import ApiAtlas.Json

/-!
# Outlines

What the library writes out is first an outline: a tree of texts, numbers, lists, records and
named variants. JSON has no variants of its own and writes one as a record with a single member;
YAML tags the content instead.
-/
namespace ApiAtlas

/-- A value to be written. -/
inductive Outline where
  | null
  | flag (value : Bool)
  | count (value : Nat)
  | text (value : String)
  | list (items : List Outline)
  | record (members : List (String × Outline))
  | variant (name : String) (content : Outline)

namespace Outline

/-- A text, or null where there is none. -/
def text? : Option String → Outline
  | none => null
  | some value => text value

/-- An outline, or null where there is none. -/
def optional : Option Outline → Outline
  | none => null
  | some outline => outline

mutual

def toJson : Outline → Json
  | null => .null
  | flag value => .bool value
  | count value => Json.ofNat value
  | text value => .string value
  | list items => .array (itemsToJson items)
  | record members => .object (membersToJson members)
  | variant name content => .object [(name, toJson content)]

def itemsToJson : List Outline → List Json
  | [] => []
  | item :: rest => toJson item :: itemsToJson rest

def membersToJson : List (String × Outline) → List (String × Json)
  | [] => []
  | (name, value) :: rest => (name, toJson value) :: membersToJson rest

end

/-- Lists and records without anything in them. -/
def isHollow : Outline → Bool
  | list [] => true
  | record [] => true
  | _ => false

end Outline
end ApiAtlas
