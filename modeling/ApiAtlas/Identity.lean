import ApiAtlas.Decimal.Numeral

/-!
# Type identities

An identity names a type by its module, the types it is nested in, its own name and its generic
arguments. Two spellings exist: dotted names, `Module.Outer.Inner<A, B>`, and paths,
`module::path::Name<A, B>`. Identities of the root module are written without it.
-/
namespace ApiAtlas

/-- How the module of an identity is joined to its name. -/
inductive PathStyle where
  | dotted
  | coloned
  deriving DecidableEq, Repr

namespace PathStyle

/-- What stands between module and name. -/
def separator : PathStyle → String
  | dotted => "."
  | coloned => "::"

end PathStyle

mutual

/-- A type: where it is declared, what it is called, and what it is applied to. -/
structure Identity where
  /-- The declaring module. -/
  module : String
  /-- The type that this one is nested in. -/
  parent : Option Identity
  /-- The name alone. -/
  name : String
  /-- The generic arguments, in order. -/
  parameters : List Parameter
  style : PathStyle

/-- A generic argument: a type, or a number such as the length of an array. -/
inductive Parameter where
  | type (identity : Identity)
  | literal (label : Option String) (value : UInt64) (valueType : Identity)

end

/-- The module of primitives and of names without a module. -/
def rootModule : String := "core"

namespace Identity

/-- An identity outside any other type, written as a path. -/
def coloned (module name : String) (parameters : List Parameter) : Identity :=
  ⟨module, none, name, parameters, .coloned⟩

/-- An identity of the root module without arguments. -/
def root (name : String) : Identity := coloned rootModule name []

instance : Inhabited Identity := ⟨root ""⟩

mutual

/-- Equality compares every field, and arguments one by one. -/
def decEq : (a b : Identity) → Decidable (a = b)
  | ⟨m, p, n, ps, s⟩, ⟨m', p', n', ps', s'⟩ =>
      if hm : m = m' then
        if hn : n = n' then
          if hs : s = s' then
            match decEqParent p p', decEqParameters ps ps' with
            | isTrue hp, isTrue hps => isTrue (by rw [hm, hn, hs, hp, hps])
            | isFalse h, _ => isFalse (by simp [h])
            | _, isFalse h => isFalse (by simp [h])
          else isFalse (by simp [hs])
        else isFalse (by simp [hn])
      else isFalse (by simp [hm])

def decEqParent : (a b : Option Identity) → Decidable (a = b)
  | none, none => isTrue rfl
  | none, some _ => isFalse (by simp)
  | some _, none => isFalse (by simp)
  | some a, some b =>
      match decEq a b with
      | isTrue h => isTrue (by rw [h])
      | isFalse h => isFalse (by simp [h])

def decEqParameters : (a b : List Parameter) → Decidable (a = b)
  | [], [] => isTrue rfl
  | [], _ :: _ => isFalse (by simp)
  | _ :: _, [] => isFalse (by simp)
  | a :: r, b :: s =>
      match decEqParameter a b, decEqParameters r s with
      | isTrue h, isTrue h' => isTrue (by rw [h, h'])
      | isFalse h, _ => isFalse (by simp [h])
      | _, isFalse h => isFalse (by simp [h])

def decEqParameter : (a b : Parameter) → Decidable (a = b)
  | .type a, .type b =>
      match decEq a b with
      | isTrue h => isTrue (by rw [h])
      | isFalse h => isFalse (by simp [h])
  | .literal l v t, .literal l' v' t' =>
      if hl : l = l' then
        if hv : v = v' then
          match decEq t t' with
          | isTrue h => isTrue (by rw [hl, hv, h])
          | isFalse h => isFalse (by simp [h])
        else isFalse (by simp [hv])
      else isFalse (by simp [hl])
  | .type _, .literal _ _ _ => isFalse (by simp)
  | .literal _ _ _, .type _ => isFalse (by simp)

end

instance : DecidableEq Identity := decEq
instance : DecidableEq Parameter := decEqParameter

end Identity

/-- The type of numbers among generic arguments. -/
def Parameter.lengthType : Identity := Identity.root "usize"

def Parameter.length (value : UInt64) : Parameter := .literal none value Parameter.lengthType

structure NameParts where
  withModule : Bool
  withParents : Bool
  deriving DecidableEq, Repr

namespace NameParts

/-- Module and enclosing types. -/
def full : NameParts := ⟨true, true⟩

/-- Enclosing types without the module. -/
def parents : NameParts := ⟨false, true⟩

/-- The name with its arguments only. -/
def bare : NameParts := ⟨false, false⟩

end NameParts

namespace Identity

def isRoot (t : Identity) : Bool := t.module = rootModule

/-- Whether the identity is an optional applied to one argument. -/
def isOptional (t : Identity) : Bool :=
  ((t.module = "core::option" || t.module = "std::option") && t.name = "Option" ||
      t.module = "Swift" && t.name = "Optional") &&
    t.parameters.length = 1

def firstType? (t : Identity) : Option Identity :=
  match t.parameters with
  | .type identity :: _ => some identity
  | _ => none

/-- Arguments in angle brackets; nothing is written for none. -/
def angled : List String → String
  | [] => ""
  | names => "<" ++ ", ".intercalate names ++ ">"

mutual

/-- The written name of an identity. The enclosing type takes the place of the module. -/
def typeName (parts : NameParts) : Identity → String
  | ⟨module, parent, name, parameters, style⟩ =>
      let arguments := angled (typeNames parts parameters)
      match parentName parts parent with
      | some front => front ++ "." ++ name ++ arguments
      | none =>
          if parts.withModule && module ≠ rootModule then
            module ++ style.separator ++ name ++ arguments
          else name ++ arguments

/-- The written name of the enclosing type, if it is to be written. -/
def parentName (parts : NameParts) : Option Identity → Option String
  | none => none
  | some parent => if parts.withParents then some (typeName parts parent) else none

def typeNames (parts : NameParts) : List Parameter → List String
  | [] => []
  | parameter :: rest => parameterName parts parameter :: typeNames parts rest

def parameterName (parts : NameParts) : Parameter → String
  | .type identity => typeName parts identity
  | .literal _ value _ => Decimal.numeral value.toNat

end

def fullName (t : Identity) : String := t.typeName .full

end Identity
end ApiAtlas
