import ApiAtlas.Json
import ApiAtlas.Identity.Parser

/-!
# Reading records from JSON

A record is read from an object, whose further members are ignored, or from an array that lists
the fields in their order. Fields are visited in the order in which the value lists them and the
first one that cannot be read decides the fault; only then does it count whether a field is
missing. In an object a field that may be null may also be absent; in an array only fields with a
default may be, from the end on.
-/
namespace ApiAtlas.Wire

/-- Why a JSON value is no value of a type. -/
inductive Fault where
  /-- The value, or a part of it, has another shape. -/
  | shape
  /-- A part that names a type does not. -/
  | typeName (cause : Identity.MalformedName)
  deriving DecidableEq, Repr

/-- Reads a value of a type. -/
abbrev Reader (α : Type) := Json → Except Fault α

def text : Reader String
  | .string value => .ok value
  | _ => .error .shape

def flag : Reader Bool
  | .bool value => .ok value
  | _ => .error .shape

/-- A whole number of a 64-bit word. -/
def word : Reader UInt64
  | .number (.whole value) =>
      if 0 ≤ value ∧ value < Decimal.wordBound then .ok (UInt64.ofNat value.toNat)
      else .error .shape
  | _ => .error .shape

/-- Null, or a value of the type. -/
def nullable {α : Type} (read : Reader α) : Reader (Option α)
  | .null => .ok none
  | value => (read value).map some

def listOf {α : Type} (read : Reader α) : Reader (List α)
  | .array items => items.mapM read
  | _ => .error .shape

structure Fields where
  entries : List (String × Json)
  /-- Whether an array lists too few or too many fields. -/
  misfit : Bool

namespace Fields

/-- The fields of a record. The first `needed` of the names must be listed by an array. -/
def of (names : List String) (needed : Nat) : Reader Fields
  | .object members => .ok ⟨members.filter fun m => names.contains m.1, false⟩
  | .array items => .ok ⟨names.zip items, items.length < needed || names.length < items.length⟩
  | _ => .error .shape

/-- What a field holds, if it is listed. -/
def get? {α : Type} (fields : Fields) (name : String) (read : Reader α) : Except Fault (Option α) :=
  match Table.get? fields.entries name with
  | none => .ok none
  | some value => (read value).map some

/-- The fault of a field, under its name. -/
def faultOf {α : Type} (name : String) (result : Except Fault α) : List (String × Fault) :=
  match result with
  | .ok _ => []
  | .error fault => [(name, fault)]

/-- The faults of fields in any order are judged by the order of the value; a misfit comes last. -/
def check (fields : Fields) (faults : List (String × Fault)) : Except Fault Unit :=
  match fields.entries.findSome? fun entry => Table.get? faults entry.1 with
  | some fault => .error fault
  | none => if fields.misfit then .error .shape else .ok ()

end Fields

/-- A field that must be there. -/
def required {α : Type} (result : Except Fault (Option α)) : Except Fault α :=
  match result with
  | .ok (some value) => .ok value
  | .ok none => .error .shape
  | .error fault => .error fault

/-- A field that has a value of its own when it is absent. -/
def withDefault {α : Type} (value : α) (result : Except Fault (Option α)) : Except Fault α :=
  result.map (·.getD value)

end ApiAtlas.Wire
