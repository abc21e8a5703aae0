import ApiAtlas.Table
import ApiAtlas.Text.Ranges
import ApiAtlas.Decimal.Shortest
import ApiAtlas.Json.Printer
import ApiAtlas.Json.Reader
import ApiAtlas.Text.Quoted
import ApiAtlas.Identity
import ApiAtlas.Identity.Wire
import ApiAtlas.Outline.Format
import ApiAtlas.Registry
import ApiAtlas.Schema
import ApiAtlas.Hints
import ApiAtlas.Walk.State
import ApiAtlas.Walk.Reader
import ApiAtlas.Method
import ApiAtlas.MediaType
import ApiAtlas.Documentation.Text
import ApiAtlas.Documentation.Wire
import ApiAtlas.Documentation.Collect
import ApiAtlas.View
import ApiAtlas.Route
import ApiAtlas.Run
import ApiAtlas.Documentation.Reflect
import ApiAtlas.Demo
import ApiAtlas.CommandLine
import ApiAtlas.Main
import ApiAtlas.Proofs.Canonical
import ApiAtlas.Proofs.Acceptance
import ApiAtlas.Proofs.Placeholders
import ApiAtlas.Proofs.Rotation
import ApiAtlas.Proofs.Records
import ApiAtlas.Proofs.Lockstep
import ApiAtlas.Proofs.Spelling
import ApiAtlas.Proofs.RoundTrip
import ApiAtlas.Proofs.Stability
import ApiAtlas.Proofs.Recorded
import ApiAtlas.Proofs.Grouping
import ApiAtlas.Proofs.Listing
import ApiAtlas.Proofs.Isolation
import ApiAtlas.Proofs.Muted
import ApiAtlas.Proofs.Preorder
import ApiAtlas.Proofs.Ordered
import ApiAtlas.Proofs.Unwrapping
import ApiAtlas.Proofs.Flattened
import ApiAtlas.Proofs.Tagged
import ApiAtlas.Proofs.Lessons
import ApiAtlas.Proofs.Unfolding
import ApiAtlas.Proofs.Sequences
import ApiAtlas.Proofs.Repetition
import ApiAtlas.Proofs.MediaTypes
import ApiAtlas.Proofs.Named
import ApiAtlas.Proofs.UsualOrder
import ApiAtlas.Proofs.Qualified
import ApiAtlas.Proofs.Compression
import ApiAtlas.Proofs.Cursor
import ApiAtlas.Proofs.Occurrences
import ApiAtlas.Proofs.Positions
