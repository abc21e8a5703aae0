import ApiAtlas.Hints
import ApiAtlas.Registry
import ApiAtlas.Schema

/-!
# The state of a walk

A walk runs the reader of a type against made-up data and records what it asks for. The world
outlasts walks: the cache of decoded shapes, registrations, schemas and decode counts. A session
belongs to one walk: the recorded tree, how often each step occurs on the way down, the sample of
the data that was handed out last, and what is known about self-describing sites.

A decode keeps the state it reached when it fails. Besides a fault it can stop for three reasons
of its own: a step of the way down was never recorded, a value was requested before its key from
data that has no answer to that, or the depth allowance is used up.
-/
namespace ApiAtlas.Walk

structure Options where
  /-- How often a step may repeat on the way down before it counts as a cycle. -/
  cycleThreshold : Nat := 3
  /-- How many elements are asked of an open sequence. -/
  maxSequenceLength : Nat := 10
  deriving DecidableEq, Repr

namespace Options

/-- Repetitions beyond this bound have no optional, sequence, map or enumeration between them.
The bound is a 64-bit word. -/
def runawayLimit (options : Options) : Nat :=
  (2 * options.cycleThreshold + 1) % Decimal.wordBound

end Options

structure Segment where
  key : String
  type : TypeRef
  deriving DecidableEq, Repr

/-- The way from the root to a value. -/
abbrev Path := List Segment

namespace Path

def keys (path : Path) : List String := path.map Segment.key

/-- The site of a path. Elements of a sequence share the site of every element of their type. -/
def site (path : Path) : Site :=
  path.map fun segment =>
    if Decimal.isIndex segment.key then "[" ++ segment.type.name ++ "]" else segment.key

/-- The path as it is shown. -/
def text (path : Path) : String :=
  if path.isEmpty then "<root>" else ".".intercalate path.keys

end Path

structure CacheEntry where
  sample : Json
  shape : Shape

/-- Decoded shapes by type and options. -/
abbrev Cache := List ((TypeRef × Options) × CacheEntry)

/-- What outlasts walks. -/
structure World where
  cache : Cache := []
  registry : Registry := []
  schemas : Schemas := []
  /-- How often the reader of each declared type ran. -/
  counts : List (Slot × Nat) := []

namespace World

/-- How often the reader of a type ran. -/
def count (world : World) (slot : Slot) : Nat := (Table.get? world.counts slot).getD 0

end World

structure Session where
  /-- The recorded tree. -/
  tree : Shape
  options : Options
  /-- Values that readers may look up. -/
  context : List (String × Json)
  /-- How often each step stands on the way down to the value being decoded. -/
  occurrences : List (Segment × Nat) := []
  /-- The data handed out by the last step. -/
  sample : Json := .null
  hints : Hints := []
  /-- Sites of self-describing requests of this walk. -/
  anySites : List Site := []
  /-- The number of self-describing requests of this walk. -/
  anyRequests : Nat := 0
  /-- Whether a fault of this walk taught something new. -/
  revised : Bool := false

namespace Session

/-- The session of a walk that starts at a type. -/
def start (type : TypeRef) (options : Options) (context : List (String × Json)) (hints : Hints) :
    Session :=
  { tree := Shape.leaf type, options, context, hints }

/-- How often the last step of a path stands on the way down. The root never repeats. -/
def occurrencesAt (session : Session) (path : Path) : Nat :=
  match path.getLast? with
  | none => 0
  | some segment => (Table.get? session.occurrences segment).getD 0

/-- Whether the last step of a path repeats too often. -/
def inCycle (session : Session) (path : Path) : Bool :=
  session.options.cycleThreshold < session.occurrencesAt path

/-- Count a step. -/
def enter (session : Session) (segment : Segment) : Session :=
  let count := (Table.get? session.occurrences segment).getD 0
  { session with occurrences := Table.put session.occurrences segment (count + 1) }

/-- Take back the count of a step; no step is kept with a count of zero. -/
def leave (session : Session) (segment : Segment) : Session :=
  match Table.get? session.occurrences segment with
  | none => session
  | some count =>
      { session with
        occurrences :=
          if count ≤ 1 then Table.erase session.occurrences segment
          else Table.put session.occurrences segment (count - 1) }

/-- Learn from a fault at a site. Only the first lesson of a walk counts, and a site of which no
self-describing request was made teaches nothing about one. -/
def revise (session : Session) (site : Site) (kind : SiteKind) (fault : Fault) : Session :=
  if session.revised || kind = .any && !session.anySites.contains site then session
  else
    let (hints, learned) := session.hints.revise site kind fault
    { session with hints, revised := learned }

end Session

/-- Why a decode stops. -/
inductive Stop where
  | fault (fault : Fault)
  /-- The node of a path was never recorded. -/
  | unrecorded (path : Path)
  /-- Data was asked for a value before its key. -/
  | valueBeforeKey
  /-- The depth allowance is used up. -/
  | depth
  deriving DecidableEq, Repr

structure State where
  world : World
  session : Session

/-- A decode: it stops or succeeds, and keeps the state it reached either way. -/
abbrev Decode (α : Type) := ExceptT Stop (StateM State) α

namespace Decode

def fail {α : Type} (fault : Fault) : Decode α := throw (.fault fault)

def session : Decode Session := do return (← get).session

def world : Decode World := do return (← get).world

def modifySession (f : Session → Session) : Decode Unit :=
  modify fun state => { state with session := f state.session }

def modifyWorld (f : World → World) : Decode Unit :=
  modify fun state => { state with world := f state.world }

/-- Note the data that was handed out. -/
def setSample (sample : Json) : Decode Unit :=
  modifySession fun session => { session with sample }

/-- Take the data that was handed out last. -/
def takeSample : Decode Json := do
  let sample := (← session).sample
  setSample .null
  return sample

/-- Look at a fault and go on failing. -/
def onFault {α : Type} (decode : Decode α) (look : Fault → Decode Unit) : Decode α :=
  tryCatch decode fun stop => do
    match stop with
    | .fault fault => look fault
    | _ => pure ()
    throw stop

def revise (site : Site) (kind : SiteKind) (fault : Fault) : Decode Unit :=
  modifySession fun session => session.revise site kind fault

def nodeAt (path : Path) : Decode Shape := do
  match (← session).tree.at? path.keys with
  | some node => return node
  | none => throw (.unrecorded path)

def modifyNode (path : Path) (f : Shape → Shape) : Decode Unit := do
  match (← session).tree.modifyAt? f path.keys with
  | some tree => modifySession fun session => { session with tree }
  | none => throw (.unrecorded path)

def recordField (path : Path) (name : String) (child : Shape) : Decode Bool := do
  let node ← nodeAt path
  match node.setField? name child with
  | none => return false
  | some node => do
      modifyNode path fun _ => node
      return true

def cached? (type : TypeRef) : Decode (Option CacheEntry) := do
  let state ← get
  return Table.get? state.world.cache (type, state.session.options)

/-- Cache the shape of a type under the options of the session. -/
def insertCache (type : TypeRef) (entry : CacheEntry) : Decode Unit := do
  let options := (← session).options
  modifyWorld fun world => { world with cache := Table.put world.cache (type, options) entry }

end Decode
end ApiAtlas.Walk
