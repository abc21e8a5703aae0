import ApiAtlas.Table
import ApiAtlas.Decimal.Binary64

/-!
# JSON values

Numbers are whole or floating: `3` and `3.0` are two values. An object lists its members; those
that the library builds for data are kept ascending by name (`Table.insert`), those that it
writes out are kept in the order in which the members are declared. Looking a member up is
indifferent to the order.
-/
namespace ApiAtlas

open Decimal (Binary64)

/-- A JSON number. Whole numbers lie between `-2 ^ 63` and `2 ^ 64 - 1`; beyond, a number is
floating. -/
inductive JsonNumber where
  | whole (value : Int)
  | floating (value : Binary64)
  deriving DecidableEq, Repr

inductive Json where
  | null
  | bool (value : Bool)
  | number (value : JsonNumber)
  | string (value : String)
  | array (items : List Json)
  | object (members : List (String × Json))
  deriving Repr

namespace Json

instance : Inhabited Json := ⟨null⟩

mutual

/-- Equality of values is decided member by member. -/
def decEq : (a b : Json) → Decidable (a = b)
  | null, null => isTrue rfl
  | bool a, bool b => if h : a = b then isTrue (h ▸ rfl) else isFalse (by simpa using h)
  | number a, number b => if h : a = b then isTrue (h ▸ rfl) else isFalse (by simpa using h)
  | string a, string b => if h : a = b then isTrue (h ▸ rfl) else isFalse (by simpa using h)
  | array a, array b =>
      match decEqList a b with
      | isTrue h => isTrue (h ▸ rfl)
      | isFalse h => isFalse (by simpa using h)
  | object a, object b =>
      match decEqMembers a b with
      | isTrue h => isTrue (h ▸ rfl)
      | isFalse h => isFalse (by simpa using h)
  | null, bool _ | null, number _ | null, string _ | null, array _ | null, object _
  | bool _, null | bool _, number _ | bool _, string _ | bool _, array _ | bool _, object _
  | number _, null | number _, bool _ | number _, string _ | number _, array _
  | number _, object _ | string _, null | string _, bool _ | string _, number _
  | string _, array _ | string _, object _ | array _, null | array _, bool _
  | array _, number _ | array _, string _ | array _, object _ | object _, null
  | object _, bool _ | object _, number _ | object _, string _ | object _, array _ =>
      isFalse (by intro h; cases h)

def decEqList : (a b : List Json) → Decidable (a = b)
  | [], [] => isTrue rfl
  | [], _ :: _ => isFalse (by simp)
  | _ :: _, [] => isFalse (by simp)
  | a :: r, b :: s =>
      match decEq a b, decEqList r s with
      | isTrue h, isTrue h' => isTrue (by rw [h, h'])
      | isFalse h, _ => isFalse (by simp [h])
      | _, isFalse h => isFalse (by simp [h])

def decEqMembers : (a b : List (String × Json)) → Decidable (a = b)
  | [], [] => isTrue rfl
  | [], _ :: _ => isFalse (by simp)
  | _ :: _, [] => isFalse (by simp)
  | (k, a) :: r, (l, b) :: s =>
      if hk : k = l then
        match decEq a b, decEqMembers r s with
        | isTrue h, isTrue h' => isTrue (by rw [hk, h, h'])
        | isFalse h, _ => isFalse (by simp [h])
        | _, isFalse h => isFalse (by simp [h])
      else isFalse (by simp [hk])

end

instance : DecidableEq Json := decEq

mutual

/-- Whether two values mean the same: as equality, but the two floating zeros are one number. -/
def same : Json → Json → Bool
  | null, null => true
  | bool a, bool b => a = b
  | number (.whole a), number (.whole b) => a = b
  | number (.floating a), number (.floating b) => a.same b
  | string a, string b => a = b
  | array a, array b => sameItems a b
  | object a, object b => sameMembers a b
  | _, _ => false

def sameItems : List Json → List Json → Bool
  | [], [] => true
  | a :: r, b :: s => same a b && sameItems r s
  | _, _ => false

def sameMembers : List (String × Json) → List (String × Json) → Bool
  | [], [] => true
  | (k, a) :: r, (l, b) :: s => k = l && same a b && sameMembers r s
  | _, _ => false

end

mutual

/-- How many arrays and objects enclose the innermost value, and one more. -/
def depth : Json → Nat
  | array items => depthOfItems items + 1
  | object members => depthOfMembers members + 1
  | _ => 1

def depthOfItems : List Json → Nat
  | [] => 0
  | item :: rest => max (depth item) (depthOfItems rest)

def depthOfMembers : List (String × Json) → Nat
  | [] => 0
  | (_, value) :: rest => max (depth value) (depthOfMembers rest)

end

def ofNat (n : Nat) : Json := number (.whole n)

/-- The floating zero. -/
def zeroPointZero : Json := number (.floating ⟨0⟩)

/-- A text, or null where there is none. -/
def ofText? : Option String → Json
  | none => null
  | some text => string text

def member? : Json → String → Option Json
  | object members, name => Table.get? members name
  | _, _ => none

end Json
end ApiAtlas
