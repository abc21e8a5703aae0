import ApiAtlas.Fault
import ApiAtlas.Table

/-!
# Answers to self-describing requests

A request for any data says nothing of the data it accepts, so every site of such requests is
offered a candidate. When a walk fails, its fault refines the offer: a missing field becomes a
key, an unknown variant becomes the text under the key learned last, and anything else moves on
to the next candidate. A site is the list of keys that lead to it.
-/
namespace ApiAtlas

/-- The keys of a path. -/
abbrev Site := List String

/-- Where a fault surfaced. -/
inductive SiteKind where
  /-- A self-describing request. -/
  | any
  /-- A map whose keys its reader chooses. -/
  | openMap
  deriving DecidableEq, Repr

structure Hint where
  /-- The candidate that is offered. -/
  candidate : Nat := 0
  /-- Keys that were missed, in the order in which they were. -/
  keys : List String := []
  /-- A variant that was expected. -/
  variant : Option String := none
  deriving DecidableEq, Repr

namespace Hint

/-- The candidates, in the order in which they are offered. -/
def candidates : List Json :=
  [.null, .string "", .number (.whole 0), .bool false, .array [], .object []]

/-- Whether something was learned, so that candidates no longer count. -/
def isLearned (hint : Hint) : Bool := hint.variant.isSome || !hint.keys.isEmpty

end Hint

/-- What is known of sites. -/
abbrev Hints := List (Site × Hint)

namespace Hints

/-- What is known of a site; nothing is known at first. -/
def at? (hints : Hints) (site : Site) : Option Hint := Table.get? hints site

/-- The hint of a site, or an empty one. -/
def get (hints : Hints) (site : Site) : Hint := (hints.at? site).getD {}

/-- Keys learned for the map at a site. -/
def keys? (hints : Hints) (site : Site) : Option (List String) :=
  match hints.at? site with
  | some hint => if hint.keys.isEmpty then none else some hint.keys
  | none => none

/-- The length of the longest site. -/
def longest (hints : Hints) : Nat := (hints.map fun entry => entry.1.length).foldl max 0

/-- The value offered at a site, with a bound on the number of keys below it. -/
def valueWithin (hints : Hints) : Nat → Site → Json
  | 0, _ => .null
  | depth + 1, site =>
      match hints.at? site with
      | none => .null
      | some hint =>
          match hint.variant with
          | some variant => .string variant
          | none =>
              if hint.keys.isEmpty then Hint.candidates.getD hint.candidate .null
              else .object (Table.ofList (hint.keys.map fun key =>
                (key, valueWithin hints depth (site ++ [key]))))

/-- The value offered at a site. Nothing is known of sites longer than the longest. -/
def value (hints : Hints) (site : Site) : Json :=
  hints.valueWithin (hints.longest + 1 - site.length) site

/-- The site of the key learned last. -/
def lastKeySite? (hints : Hints) (site : Site) : Option Site :=
  match hints.at? site with
  | none => none
  | some hint => hint.keys.getLast?.map fun key => site ++ [key]

/-- Move on to the next candidate of a site. Whether there is one is the second answer. -/
def advance (hints : Hints) (site : Site) : Hints × Bool :=
  let hint := hints.get site
  if hint.isLearned then (Table.put hints site hint, false)
  else
    let hint := { hint with candidate := hint.candidate + 1 }
    (Table.put hints site hint, decide (hint.candidate < Hint.candidates.length))

/-- Refine the offers after a fault at a site. The second answer tells whether there is anything
new to try. -/
def revise (hints : Hints) (site : Site) (kind : SiteKind) : Fault → Hints × Bool
  | .missingField field =>
      let hint := hints.get site
      if hint.keys.contains field then (Table.put hints site hint, false)
      else (Table.put hints site { hint with keys := hint.keys ++ [field] }, true)
  | .unknownVariant _ expected =>
      match hints.lastKeySite? site, expected.head? with
      | some tag, some variant =>
          let hint := hints.get tag
          if hint.variant.isSome then (Table.put hints tag hint, false)
          else (Table.put hints tag { hint with variant := some variant }, true)
      | _, _ => (hints, false)
  | .decode _ =>
      match hints.lastKeySite? site with
      | some tag => hints.advance tag
      | none => if kind = .any then hints.advance site else (hints, false)

end Hints
end ApiAtlas
