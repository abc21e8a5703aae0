import ApiAtlas.Table
import ApiAtlas.Identity.Parser

/-!
# Shapes

The shape of a type is a tree: every node names a runtime type and says what is known of its
inside, which is nothing, a table of fields, or the cases of an enumeration. A node that lists
cases never goes back to fields. Fields are ascending by name.

The operations on a node at a path of field names are partial: they fail where the path leaves
the recorded tree.
-/
namespace ApiAtlas

/-- A type as the running program names it. -/
structure TypeRef where
  name : String
  deriving DecidableEq, Repr

namespace TypeRef

/-- The identity that the name spells; an unreadable name is an opaque type of the root module. -/
def identity (t : TypeRef) : Identity := Identity.parseLossy t.name

def isOptional (t : TypeRef) : Bool := t.identity.isOptional

end TypeRef

/-- A case of an enumeration: its wire value, and a readable name if one was declared. -/
structure EnumCase where
  name : Option String
  value : String
  deriving DecidableEq, Repr

mutual

structure Shape where
  type : TypeRef
  body : ShapeBody

/-- What is known of the inside of a type. -/
inductive ShapeBody where
  | plain
  | fields (fields : List (String × Shape))
  | cases (cases : List EnumCase)

end

namespace Shape

instance : Inhabited ShapeBody := ⟨.plain⟩
instance : Inhabited Shape := ⟨⟨⟨""⟩, .plain⟩⟩

mutual

def decEq : (a b : Shape) → Decidable (a = b)
  | ⟨t, body⟩, ⟨t', body'⟩ =>
      if ht : t = t' then
        match decEqBody body body' with
        | isTrue h => isTrue (by rw [ht, h])
        | isFalse h => isFalse (by simp [h])
      else isFalse (by simp [ht])

def decEqBody : (a b : ShapeBody) → Decidable (a = b)
  | .plain, .plain => isTrue rfl
  | .fields a, .fields b =>
      match decEqFields a b with
      | isTrue h => isTrue (by rw [h])
      | isFalse h => isFalse (by simp [h])
  | .cases a, .cases b => if h : a = b then isTrue (by rw [h]) else isFalse (by simp [h])
  | .plain, .fields _ | .plain, .cases _ | .fields _, .plain | .fields _, .cases _
  | .cases _, .plain | .cases _, .fields _ => isFalse (by intro h; cases h)

def decEqFields : (a b : List (String × Shape)) → Decidable (a = b)
  | [], [] => isTrue rfl
  | [], _ :: _ => isFalse (by simp)
  | _ :: _, [] => isFalse (by simp)
  | (k, a) :: r, (l, b) :: s =>
      if hk : k = l then
        match decEq a b, decEqFields r s with
        | isTrue h, isTrue h' => isTrue (by rw [hk, h, h'])
        | isFalse h, _ => isFalse (by simp [h])
        | _, isFalse h => isFalse (by simp [h])
      else isFalse (by simp [hk])

end

instance : DecidableEq Shape := decEq
instance : DecidableEq ShapeBody := decEqBody

/-- A node of which only the type is known. -/
def leaf (type : TypeRef) : Shape := ⟨type, .plain⟩

def fields? (s : Shape) : Option (List (String × Shape)) :=
  match s.body with
  | .fields fields => some fields
  | _ => none

/-- Record a field, or replace it; a node that lists cases takes none. -/
def setField? (s : Shape) (name : String) (child : Shape) : Option Shape :=
  match s.body with
  | .cases _ => none
  | .plain => some { s with body := .fields [(name, child)] }
  | .fields fields => some { s with body := .fields (Table.insert fields name child) }

/-- As `setField?`, leaving a node that lists cases as it is. -/
def setField (s : Shape) (name : String) (child : Shape) : Shape :=
  (s.setField? name child).getD s

/-- Make a node list cases, whatever it held. -/
def setCases (s : Shape) (cases : List EnumCase) : Shape := { s with body := .cases cases }

/-- The field name that stands for every key of a map. -/
def anyKey : String := "\x7bany\x7d"

/-- The field name that stands for every element of a sequence. -/
def elementsKey : String := "\x7b0...\x7d"

/-- Collapse fields named `0` to `count - 1` into one, if these are all fields there are and they
hold equal shapes. -/
def compress? (s : Shape) (count : Nat) : Option Shape :=
  match s.body with
  | .fields fields =>
      if count = 0 || fields.length ≠ count then none
      else
        match Table.get? fields (Decimal.numeral 0) with
        | none => none
        | some first =>
            if (List.range count).all fun i =>
                Table.get? fields (Decimal.numeral i) = some first
            then some { s with body := .fields [(elementsKey, first)] }
            else none
  | _ => none

/-- As `compress?`, leaving the node as it is where nothing can be collapsed. -/
def compress (s : Shape) (count : Nat) : Shape := (s.compress? count).getD s

/-- The node at a path of field names. -/
def at? (s : Shape) : List String → Option Shape
  | [] => some s
  | key :: rest =>
      match s.fields? with
      | none => none
      | some fields =>
          match Table.get? fields key with
          | none => none
          | some child => child.at? rest

/-- Replace the node at a path by its image. -/
def modifyAt? (f : Shape → Shape) : List String → Shape → Option Shape
  | [], s => some (f s)
  | key :: rest, s =>
      match s.fields? with
      | none => none
      | some fields =>
          match Table.get? fields key with
          | none => none
          | some child =>
              match modifyAt? f rest child with
              | none => none
              | some child => some { s with body := .fields (Table.put fields key child) }

mutual

/-- The text of a node: its type name, and its cases or, on lines of their own, its fields. -/
def display (level : Nat) : Shape → String
  | ⟨type, body⟩ => type.identity.typeName .parents ++ displayBody level body

def displayBody (level : Nat) : ShapeBody → String
  | .plain => ""
  | .cases cases => " = " ++ " | ".intercalate (cases.map EnumCase.value)
  | .fields fields =>
      let indent := String.ofList (List.replicate (2 * level) ' ')
      " \x7b\n" ++ String.join (displayFields (indent ++ "  ") (level + 1) fields) ++ indent ++ "\x7d"

def displayFields (front : String) (level : Nat) : List (String × Shape) → List String
  | [] => []
  | (name, child) :: rest =>
      (front ++ name ++ ": " ++ display level child ++ "\n") :: displayFields front level rest

end

def text (s : Shape) : String := s.display 0

end Shape
end ApiAtlas
