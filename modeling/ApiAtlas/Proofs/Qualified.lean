import ApiAtlas.Proofs.Spelling
import Mathlib.Algebra.Ring.Nat
import Mathlib.Data.List.TakeWhile

/-!
# Qualified segments

A segment in angle brackets names the implementation of a trait for a type, and a path keeps it as
it stands: the reader goes up to the bracket that closes the one in front, and only counts brackets
on its way. It takes the arrow in front of a function pointer's result for a closing bracket. So a
path with such a segment is read as the identity that it names exactly if no function pointer in the
trait or in the type states a result; otherwise the segment ends too early, and what is left of it
does not continue the path.
-/
namespace ApiAtlas.Identity

open Decimal (digits)

/-! ## Counting brackets -/

section

/-- A text in which so many angle brackets close more than open. Where more than these are open in
front of it, a qualified segment goes on behind it; where fewer are, the segment ends inside it, at
a place where a path could end as well. -/
structure Surplus (count : Nat) (text : List Char) : Prop where
  through : ∀ level rest, count < level → splitQualified level (text ++ rest) =
    (splitQualified (level - count) rest).map fun (s, r) => (text ++ s, r)
  ends : ∀ level rest, 0 < level → level ≤ count → ∃ front back, text = front ++ back ∧
    Follows boundEnds back ∧ splitQualified level (text ++ rest) = some (front, back ++ rest)

variable {n m : Nat} {a b text : List Char}

theorem Follows.append {ends : List Char} (ha : Follows ends a) (hb : Follows ends b) :
    Follows ends (a ++ b) := by
  cases a with
  | nil => exact hb
  | cons c a => exact follows_cons (ha c rfl)

theorem surplus_nil : Surplus 0 [] where
  through level rest _ := by simp
  ends level rest open_ none := by omega

/-- A bracket at the end of a text may only be followed by what follows a path. -/
theorem Surplus.append (ha : Surplus n a) (hb : Surplus m b) (next : Follows boundEnds b) :
    Surplus (n + m) (a ++ b) where
  through level rest above := by
    rw [List.append_assoc, ha.through level _ (by omega), hb.through _ rest (by omega),
      Nat.sub_sub, Option.map_map]
    simp [Function.comp_def]
  ends level rest opened few := by
    rw [List.append_assoc]
    by_cases inFront : level ≤ n
    · obtain ⟨front, back, rfl, bound, split⟩ := ha.ends level (b ++ rest) opened inFront
      exact ⟨front, back ++ b, List.append_assoc .., bound.append next,
        by rw [split, List.append_assoc]⟩
    · obtain ⟨front, back, rfl, bound, split⟩ := hb.ends (level - n) rest (by omega) (by omega)
      refine ⟨a ++ front, back, by simp, bound, ?_⟩
      rw [ha.through level _ (by omega), split, Option.map_some]

/-- No segment ends inside a text whose brackets balance, whatever stands behind it. -/
theorem Surplus.after (hb : Surplus m b) (ha : Surplus 0 a) : Surplus m (a ++ b) where
  through level rest above := by
    rw [List.append_assoc, ha.through level _ (by omega), Nat.sub_zero, hb.through _ rest above,
      Option.map_map]
    simp [Function.comp_def]
  ends level rest opened few := by
    obtain ⟨front, back, rfl, bound, split⟩ := hb.ends level rest opened few
    refine ⟨a ++ front, back, by simp, bound, ?_⟩
    rw [List.append_assoc, ha.through level _ opened, Nat.sub_zero, split, Option.map_some]

theorem surplus_plain (h : '<' ∉ text ∧ '>' ∉ text) : Surplus 0 text := by
  induction text with
  | nil => exact surplus_nil
  | cons c text ih =>
      simp only [List.mem_cons, not_or] at h
      obtain ⟨⟨noOpening, openings⟩, ⟨noClosing, closings⟩⟩ := h
      have char : Surplus 0 [c] := by
        refine ⟨fun level rest _ => ?_, fun level rest opened few => by omega⟩
        rw [List.singleton_append, splitQualified]
        · rfl
        · exact noOpening ∘ Eq.symm
        · exact noClosing ∘ Eq.symm
      exact .after (ih ⟨openings, closings⟩) char

theorem surplus_arrow : Surplus 1 [' ', '-', '>'] where
  through level rest above := by
    have other : level ≠ 1 := by omega
    simp [splitQualified, other, Option.map_map, Function.comp_def]
  ends level rest opened few := by
    obtain rfl : level = 1 := by omega
    exact ⟨[' ', '-', '>'], [], rfl, follows_nil, by simp [splitQualified]⟩

theorem Surplus.bracketed (h : Surplus n text) : Surplus n ('<' :: (text ++ ['>'])) where
  through level rest above := by
    have other : level + 1 - n ≠ 1 := by omega
    have before : level + 1 - n - 1 = level - n := by omega
    rw [List.cons_append, List.append_assoc, splitQualified, h.through _ _ (by omega),
      List.singleton_append, splitQualified, if_neg other, before]
    simp [Option.map_map, Function.comp_def]
  ends level rest opened few := by
    rw [List.cons_append, List.append_assoc, splitQualified]
    by_cases inside : level + 1 ≤ n
    · obtain ⟨front, back, rfl, bound, split⟩ :=
        h.ends (level + 1) (['>'] ++ rest) (by omega) inside
      refine ⟨'<' :: front, back ++ ['>'], by simp, bound.append (follows_cons (by decide)), ?_⟩
      rw [split, Option.map_some, List.append_assoc]
    · obtain rfl : level = n := by omega
      refine ⟨'<' :: (text ++ ['>']), [], by simp, follows_nil, ?_⟩
      rw [h.through _ _ (by omega), Nat.add_sub_cancel_left]
      simp [splitQualified]

theorem surplus_separated {α : Type} (count : α → Nat) {text : α → List Char} {items : List α}
    (h : ∀ item ∈ items, Surplus (count item) (text item)) :
    Surplus (items.map count).sum (separated (items.map text)) := by
  induction items with
  | nil => exact surplus_nil
  | cons first items ih =>
      have front := h first List.mem_cons_self
      have later := ih fun item member => h item (List.mem_cons_of_mem _ member)
      cases items with
      | nil => simpa [separated] using front
      | cons second items =>
          have comma : Surplus 0 [',', ' '] := surplus_plain (by decide)
          simp only [List.map_cons, List.sum_cons, separated_cons_cons] at later ⊢
          exact front.append (later.after comma) (follows_cons (by decide))

end

/-! ## Function pointers in a type -/

mutual

/-- The function pointers in a type: the front of each, and its result if it states one. -/
def Spelling.functions : Spelling → List (FunctionFront × Option Spelling)
  | .primitive _ _ => []
  | .path path => path.functions
  | .tuple elements => Spelling.allFunctions elements
  | .array element _ => element.functions
  | .slice element => element.functions
  | .reference _ _ target => target.functions
  | .pointer _ target => target.functions
  | .function front arguments _ result =>
      (front, result) :: (Spelling.allFunctions arguments ++ Spelling.resultFunctions result)
  | .traitObject principal bounds => principal.functions ++ SpelledBound.allFunctions bounds

def Spelling.allFunctions : List Spelling → List (FunctionFront × Option Spelling)
  | [] => []
  | type :: types => type.functions ++ Spelling.allFunctions types

def Spelling.resultFunctions : Option Spelling → List (FunctionFront × Option Spelling)
  | none => []
  | some result => result.functions

def SpelledPath.functions : SpelledPath → List (FunctionFront × Option Spelling)
  | ⟨_, _, _, arguments⟩ => SpelledArgument.allFunctions arguments

def SpelledArgument.functions : SpelledArgument → List (FunctionFront × Option Spelling)
  | .lifetime _ => []
  | .type type => type.functions
  | .length _ => []

def SpelledArgument.allFunctions :
    List SpelledArgument → List (FunctionFront × Option Spelling)
  | [] => []
  | argument :: arguments => argument.functions ++ SpelledArgument.allFunctions arguments

def SpelledBound.functions : SpelledBound → List (FunctionFront × Option Spelling)
  | .lifetime _ => []
  | .path path => path.functions

def SpelledBound.allFunctions : List SpelledBound → List (FunctionFront × Option Spelling)
  | [] => []
  | bound :: bounds => bound.functions ++ SpelledBound.allFunctions bounds

end

theorem Spelling.allFunctions_eq_flatMap (types : List Spelling) :
    Spelling.allFunctions types = types.flatMap Spelling.functions := by
  induction types with
  | nil => rfl
  | cons type types ih => simp [Spelling.allFunctions, ih]

theorem SpelledArgument.allFunctions_eq_flatMap (arguments : List SpelledArgument) :
    SpelledArgument.allFunctions arguments = arguments.flatMap SpelledArgument.functions := by
  induction arguments with
  | nil => rfl
  | cons argument arguments ih => simp [SpelledArgument.allFunctions, ih]

/-- How many function pointers state a result. -/
def arrows (functions : List (FunctionFront × Option Spelling)) : Nat :=
  functions.countP (·.2.isSome)

/-- No calling convention is named with an angle bracket. -/
def PlainFronts (functions : List (FunctionFront × Option Spelling)) : Prop :=
  ∀ f ∈ functions, ∀ convention ∈ f.1.convention,
    '<' ∉ convention.text.toList ∧ '>' ∉ convention.text.toList

theorem arrows_append (f g : List (FunctionFront × Option Spelling)) :
    arrows (f ++ g) = arrows f + arrows g :=
  List.countP_append

theorem arrows_eq_zero {f : List (FunctionFront × Option Spelling)} :
    arrows f = 0 ↔ ∀ pointer ∈ f, pointer.2 = none := by
  simp [arrows, List.countP_eq_zero]

theorem plainFronts_append {f g : List (FunctionFront × Option Spelling)} :
    PlainFronts (f ++ g) ↔ PlainFronts f ∧ PlainFronts g :=
  List.forall_mem_append

/-! ## Brackets of spelled types -/

theorem Word.surplus (w : Word) : Surplus 0 w.text.toList :=
  have chars := List.all_eq_true.mp w.isWord.chars
  surplus_plain ⟨fun member => absurd (chars _ member) (by decide),
    fun member => absurd (chars _ member) (by decide)⟩

theorem surplus_lifetime (name : Word) : Surplus 0 (lifetimeText name) := by
  have quote : Surplus 0 ['\''] := surplus_plain (by decide)
  exact name.surplus.after quote

theorem surplus_words (first : Word) (further : List Word) :
    Surplus 0 (first.text.toList ++ furtherText (further.map Word.text)) := by
  refine .after ?_ first.surplus
  induction further with
  | nil => exact surplus_nil
  | cons w further ih =>
      have colons : Surplus 0 [':', ':'] := surplus_plain (by decide)
      exact ih.after (w.surplus.after colons)

theorem FunctionFront.surplus {front : FunctionFront}
    (h : ∀ convention ∈ front.convention,
      '<' ∉ convention.text.toList ∧ '>' ∉ convention.text.toList) : Surplus 0 front.text := by
  obtain ⟨binder, isUnsafe, convention⟩ := front
  have bound : Surplus 0 (binderText binder) := by
    cases binder with
    | nil => exact surplus_nil
    | cons w binder =>
        have names : Surplus 0 (separated ((w :: binder).map lifetimeText)) := by
          have all := surplus_separated (fun _ => 0) fun name (_ : name ∈ w :: binder) =>
            surplus_lifetime name
          rwa [List.map_const', List.sum_replicate_nat, Nat.mul_zero] at all
        have binds : Surplus 0 ['f', 'o', 'r'] := surplus_plain (by decide)
        have space : Surplus 0 [' '] := surplus_plain (by decide)
        have whole := (space.after names.bracketed).after binds
        simpa [binderText] using whole
  have safety : Surplus 0 (unsafeText isUnsafe) := by
    cases isUnsafe <;> exact surplus_plain (by decide)
  have called : Surplus 0 (conventionText convention) := by
    cases convention with
    | none => exact surplus_nil
    | some convention =>
        have before : Surplus 0 ['e', 'x', 't', 'e', 'r', 'n', ' ', '"'] :=
          surplus_plain (by decide)
        have behind : Surplus 0 ['"', ' '] := surplus_plain (by decide)
        exact behind.after ((surplus_plain (h convention rfl)).after before)
  exact called.after (safety.after bound)

theorem surplus_digits (value : Nat) : Surplus 0 (digits value) :=
  have chars := Decimal.all_isDigit_digits value
  surplus_plain ⟨fun member => absurd (chars _ member) (by decide),
    fun member => absurd (chars _ member) (by decide)⟩

section
variable {n : Nat} {types : List Spelling} {arguments : List SpelledArgument}
  {bounds : List SpelledBound}

theorem surplus_array {element : Spelling} (h : Surplus n element.text) (length : UInt64) :
    Surplus n (Spelling.text (.array element length)) := by
  have opening : Surplus 0 ['['] := surplus_plain (by decide)
  have between : Surplus 0 [';', ' '] := surplus_plain (by decide)
  have closing : Surplus 0 [']'] := surplus_plain (by decide)
  have behind := closing.after ((surplus_digits length.toNat).after between)
  have whole := (h.append behind (follows_cons (by decide))).after opening
  simpa [Spelling.text] using whole

theorem surplus_slice {element : Spelling} (h : Surplus n element.text) :
    Surplus n (Spelling.text (.slice element)) := by
  have opening : Surplus 0 ['['] := surplus_plain (by decide)
  have closing : Surplus 0 [']'] := surplus_plain (by decide)
  exact (h.append closing (follows_cons (by decide))).after opening

theorem surplus_reference {target : Spelling} (h : Surplus n target.text) (lifetime : Option Word)
    (isMutable : Bool) : Surplus n (Spelling.text (.reference lifetime isMutable target)) := by
  have sign : Surplus 0 ['&'] := surplus_plain (by decide)
  have named : Surplus 0 (referenceText lifetime) := by
    cases lifetime with
    | none => exact surplus_nil
    | some name =>
        have space : Surplus 0 [' '] := surplus_plain (by decide)
        exact space.after (surplus_lifetime name)
  have mutability : Surplus 0 (mutableText isMutable) := by
    cases isMutable <;> exact surplus_plain (by decide)
  exact (h.after (mutability.after named)).after sign

theorem surplus_pointer {target : Spelling} (h : Surplus n target.text) (isMutable : Bool) :
    Surplus n (Spelling.text (.pointer isMutable target)) := by
  have sign : Surplus 0 ['*'] := surplus_plain (by decide)
  have mutability : Surplus 0 (pointerText isMutable) := by
    cases isMutable <;> exact surplus_plain (by decide)
  exact (h.after mutability).after sign

theorem surplus_tuple (h : ∀ t ∈ types, Surplus (arrows t.functions) t.text) :
    Surplus (arrows (Spelling.allFunctions types)) (Spelling.text (.tuple types)) := by
  have opening : Surplus 0 ['('] := surplus_plain (by decide)
  have closing : Surplus 0 [')'] := surplus_plain (by decide)
  have elements : Surplus (arrows (Spelling.allFunctions types))
      (elementsText (Spelling.texts types)) := by
    have all := surplus_separated (fun t : Spelling => arrows t.functions) h
    rw [Spelling.allFunctions_eq_flatMap, Spelling.texts_eq_map, arrows, List.countP_flatMap]
    cases types with
    | nil => exact all
    | cons type types =>
        cases types with
        | nil =>
            have comma : Surplus 0 [','] := surplus_plain (by decide)
            have alone : Surplus (arrows type.functions) type.text := h type (by simp)
            exact alone.append comma (follows_cons (by decide))
        | cons second types => exact all
  exact (elements.append closing (follows_cons (by decide))).after opening

theorem surplus_parameters (h : ∀ t ∈ types, Surplus (arrows t.functions) t.text)
    (isVariadic : Bool) : Surplus (arrows (Spelling.allFunctions types))
      (parametersText isVariadic (Spelling.texts types)) := by
  have items : ∀ item ∈ types.map (fun t => (arrows t.functions, t.text)) ++
      (if isVariadic then [(0, ['.', '.', '.'])] else []), Surplus item.1 item.2 := by
    refine List.forall_mem_append.2 ⟨List.forall_mem_map.2 h, ?_⟩
    cases isVariadic with
    | false => nofun
    | true => exact List.forall_mem_singleton.2 (surplus_plain (by decide))
  have all := surplus_separated Prod.fst items
  rw [Spelling.allFunctions_eq_flatMap, Spelling.texts_eq_map, arrows, List.countP_flatMap]
  cases isVariadic <;>
    simpa [parametersText, Function.comp_def, arrows] using all

theorem surplus_path (first : Word) (further : List Word)
    (h : ∀ a ∈ arguments, Surplus (arrows a.functions) a.text) :
    Surplus (arrows (SpelledArgument.allFunctions arguments))
      (first.text.toList ++ furtherText (further.map Word.text) ++
        bracketed (SpelledArgument.texts arguments)) := by
  have all := surplus_separated (fun a : SpelledArgument => arrows a.functions) h
  have list : Surplus (arrows (SpelledArgument.allFunctions arguments))
      (bracketed (SpelledArgument.texts arguments)) := by
    rw [SpelledArgument.allFunctions_eq_flatMap, SpelledArgument.texts_eq_map, arrows,
      List.countP_flatMap]
    cases arguments with
    | nil => exact all
    | cons argument arguments => exact all.bracketed
  exact list.after (surplus_words first further)

theorem surplus_bounds (h : ∀ b ∈ bounds, Surplus (arrows b.functions) b.text) :
    Surplus (arrows (SpelledBound.allFunctions bounds)) (SpelledBound.texts bounds) := by
  induction bounds with
  | nil => exact surplus_nil
  | cons bound bounds ih =>
      have plus : Surplus 0 [' ', '+', ' '] := surplus_plain (by decide)
      have first := h bound List.mem_cons_self
      have later := ih fun b hb => h b (List.mem_cons_of_mem _ hb)
      have next : Follows boundEnds (SpelledBound.texts bounds) := by
        simpa using SpelledBound.follows bounds follows_nil
      rw [SpelledBound.allFunctions, arrows_append]
      exact (first.after plus).append later next

theorem surplus_traitObject {principal : SpelledPath}
    (first : Surplus (arrows principal.functions) principal.text)
    (h : ∀ b ∈ bounds, Surplus (arrows b.functions) b.text) :
    Surplus (arrows (Spelling.functions (.traitObject principal bounds)))
      (Spelling.text (.traitObject principal bounds)) := by
  have keyword : Surplus 0 ['d', 'y', 'n', ' '] := surplus_plain (by decide)
  have next : Follows boundEnds (SpelledBound.texts bounds) := by
    simpa using SpelledBound.follows bounds follows_nil
  have whole := (first.append (surplus_bounds h) next).after keyword
  rw [Spelling.functions, arrows_append]
  simpa [Spelling.text] using whole

theorem surplus_function {front : FunctionFront} {result : Option Spelling}
    (called : Surplus 0 front.text) (h : ∀ t ∈ types, Surplus (arrows t.functions) t.text)
    (isVariadic : Bool) (stated : ∀ r ∈ result, Surplus (arrows r.functions) r.text) :
    Surplus (arrows (Spelling.functions (.function front types isVariadic result)))
      (Spelling.text (.function front types isVariadic result)) := by
  have keyword : Surplus 0 ['f', 'n', '('] := surplus_plain (by decide)
  have closing : Surplus 0 [')'] := surplus_plain (by decide)
  have given := ((surplus_parameters h isVariadic).append closing (follows_cons (by decide))).after
    (keyword.after called)
  rw [Spelling.functions, arrows, List.countP_cons, ← arrows, arrows_append]
  cases result with
  | none => simpa [Spelling.text, Spelling.resultText, Spelling.resultFunctions, arrows] using given
  | some result =>
      have space : Surplus 0 [' '] := surplus_plain (by decide)
      have behind := surplus_arrow.append ((stated result rfl).after space)
        (follows_cons (by decide))
      have whole := given.append behind (follows_cons (by decide))
      have count : arrows (Spelling.allFunctions types) + 0 + (1 + arrows result.functions) =
          arrows (Spelling.allFunctions types) + arrows result.functions + 1 := by omega
      rw [count] at whole
      simpa [Spelling.text, Spelling.resultText, Spelling.resultFunctions] using whole

end

mutual

theorem Spelling.surplus : (t : Spelling) → PlainFronts t.functions →
    Surplus (arrows t.functions) t.text
  | .primitive name _, _ => name.surplus
  | .path path, plain => path.surplus plain
  | .tuple elements, plain => surplus_tuple (Spelling.allSurplus elements plain)
  | .array element length, plain => surplus_array (element.surplus plain) length
  | .slice element, plain => surplus_slice (element.surplus plain)
  | .reference lifetime isMutable target, plain =>
      surplus_reference (target.surplus plain) lifetime isMutable
  | .pointer isMutable target, plain => surplus_pointer (target.surplus plain) isMutable
  | .function front arguments isVariadic result, plain => by
      obtain ⟨called, plain⟩ := List.forall_mem_cons.1 plain
      obtain ⟨given, stated⟩ := plainFronts_append.1 plain
      exact surplus_function (FunctionFront.surplus called) (Spelling.allSurplus arguments given)
        isVariadic (Spelling.resultSurplus result stated)
  | .traitObject principal bounds, plain => by
      obtain ⟨first, further⟩ := plainFronts_append.1 plain
      exact surplus_traitObject (principal.surplus first) (SpelledBound.allSurplus bounds further)

theorem Spelling.allSurplus : (types : List Spelling) →
    PlainFronts (Spelling.allFunctions types) → ∀ t ∈ types, Surplus (arrows t.functions) t.text
  | [], _ => nofun
  | type :: types, plain => List.forall_mem_cons.2
      ⟨type.surplus (plainFronts_append.1 plain).1,
        Spelling.allSurplus types (plainFronts_append.1 plain).2⟩

theorem Spelling.resultSurplus : (result : Option Spelling) →
    PlainFronts (Spelling.resultFunctions result) →
    ∀ r ∈ result, Surplus (arrows r.functions) r.text
  | none, _ => nofun
  | some result, plain => fun _ hr => Option.some.inj hr ▸ result.surplus plain

theorem SpelledPath.surplus : (path : SpelledPath) → PlainFronts path.functions →
    Surplus (arrows path.functions) path.text
  | ⟨first, further, name, arguments⟩, plain => by
      have whole := surplus_path first (further ++ [name])
        (SpelledArgument.allSurplus arguments plain)
      rwa [List.map_append] at whole

theorem SpelledArgument.surplus : (a : SpelledArgument) → PlainFronts a.functions →
    Surplus (arrows a.functions) a.text
  | .lifetime name, _ => surplus_lifetime name
  | .type type, plain => type.surplus plain
  | .length value, _ => surplus_digits value.toNat

theorem SpelledArgument.allSurplus : (arguments : List SpelledArgument) →
    PlainFronts (SpelledArgument.allFunctions arguments) →
    ∀ a ∈ arguments, Surplus (arrows a.functions) a.text
  | [], _ => nofun
  | a :: arguments, plain => List.forall_mem_cons.2
      ⟨a.surplus (plainFronts_append.1 plain).1,
        SpelledArgument.allSurplus arguments (plainFronts_append.1 plain).2⟩

theorem SpelledBound.surplus : (b : SpelledBound) → PlainFronts b.functions →
    Surplus (arrows b.functions) b.text
  | .lifetime name, _ => surplus_lifetime name
  | .path path, plain => path.surplus plain

theorem SpelledBound.allSurplus : (bounds : List SpelledBound) →
    PlainFronts (SpelledBound.allFunctions bounds) →
    ∀ b ∈ bounds, Surplus (arrows b.functions) b.text
  | [], _ => nofun
  | b :: bounds, plain => List.forall_mem_cons.2
      ⟨b.surplus (plainFronts_append.1 plain).1,
        SpelledBound.allSurplus bounds (plainFronts_append.1 plain).2⟩

end

/-! ## The segment of an implementation -/

/-- A trait as an implementation names it: a path, and what it is applied to. -/
structure TraitPath where
  first : Word
  further : List Word
  arguments : List SpelledArgument

namespace TraitPath

def text (trait : TraitPath) : List Char :=
  trait.first.text.toList ++ furtherText (trait.further.map Word.text) ++
    bracketed (SpelledArgument.texts trait.arguments)

def functions (trait : TraitPath) : List (FunctionFront × Option Spelling) :=
  SpelledArgument.allFunctions trait.arguments

end TraitPath

/-- The implementation of a trait for a type. -/
structure Implementation where
  trait : TraitPath
  type : Spelling

namespace Implementation
variable {implementation : Implementation}

/-- What stands between the brackets of a segment that names an implementation. -/
def inside (implementation : Implementation) : List Char :=
  ['i', 'm', 'p', 'l', ' '] ++ (implementation.trait.text ++
    ([' ', 'f', 'o', 'r', ' '] ++ implementation.type.text))

/-- The segment that names an implementation. -/
def segment (implementation : Implementation) : String :=
  String.ofList ('<' :: (implementation.inside ++ ['>']))

def functions (implementation : Implementation) : List (FunctionFront × Option Spelling) :=
  implementation.trait.functions ++ implementation.type.functions

theorem surplus (plain : PlainFronts implementation.functions) :
    Surplus (arrows implementation.functions) implementation.inside := by
  obtain ⟨given, applied⟩ := plainFronts_append.1 plain
  have keyword : Surplus 0 ['i', 'm', 'p', 'l', ' '] := surplus_plain (by decide)
  have target : Surplus 0 [' ', 'f', 'o', 'r', ' '] := surplus_plain (by decide)
  have trait : Surplus (arrows implementation.trait.functions) implementation.trait.text :=
    surplus_path _ _ (SpelledArgument.allSurplus implementation.trait.arguments given)
  rw [functions, arrows_append]
  exact (trait.append ((implementation.type.surplus applied).after target)
    (follows_cons (by decide))).after keyword

end Implementation

section
variable {n : Nat} {inside : List Char}

/-- A text in brackets is read as a segment as far as its brackets go. -/
theorem readSegment_bracket {cs segment after : List Char}
    (split : splitQualified 1 cs = some (segment, after)) :
    readSegment ('<' :: cs) = .ok (String.ofList ('<' :: segment), after) := by
  simp [readSegment, unknownContext, eat?, readPlainSegment, splitQualified, split]

/-- A text whose brackets balance is kept whole between brackets of its own. -/
theorem Surplus.readsSegment (h : Surplus 0 inside) :
    ReadsSegment (String.ofList ('<' :: (inside ++ ['>']))) := by
  intro rest _
  have split : splitQualified 1 (inside ++ '>' :: rest) = some (inside ++ ['>'], rest) := by
    rw [h.through 1 _ Nat.one_pos]
    simp [splitQualified]
  simpa using readSegment_bracket split

/-- With a bracket too many the segment ends before the closing one, and the path with it. -/
theorem Surplus.readSegment_early (h : Surplus n inside) (many : 0 < n) (rest : List Char) :
    ∃ segment back, Follows boundEnds (back ++ '>' :: rest) ∧
      readSegment ('<' :: (inside ++ '>' :: rest)) = .ok (segment, back ++ '>' :: rest) := by
  obtain ⟨front, back, -, bound, split⟩ := h.ends 1 ('>' :: rest) Nat.one_pos many
  exact ⟨_, back, bound.append (follows_cons (by decide)), readSegment_bracket split⟩

end

/-! ## Paths with such a segment -/

variable {read : Read Identity} {cs rest : List Char} {t : Identity}

/-- A segment of a path, of letters of any script. -/
structure PathSegment where
  text : String
  isSegment : IsSegment text

theorem readsSegment_text (segments : List PathSegment) :
    ∀ s ∈ segments.map PathSegment.text, ReadsSegment s :=
  List.forall_mem_map.2 fun s _ => s.isSegment.readsSegment

theorem furtherText_append (segments more : List String) :
    furtherText (segments ++ more) = furtherText segments ++ furtherText more :=
  List.flatMap_append

theorem follows_furtherText (segments : List String) : Follows [':'] (furtherText segments) := by
  cases segments with
  | nil => exact follows_nil
  | cons _ _ => exact follows_cons (by decide)

theorem readTypeWith_bracket (cs : List Char) :
    readTypeWith read ('<' :: cs) = readPath read ('<' :: cs) := by
  simp [readTypeWith, skipSpaces, extensionFront, eat?, readWord]

/-- Segments are read as a path, also if the first of them is in brackets. -/
theorem readTypeWith_path (modules : List PathSegment) {s : String}
    (bracket : ∃ cs, s.toList = '<' :: cs) (behind : List String) :
    readTypeWith read ("::".intercalate (modules.map PathSegment.text ++ s :: behind)).toList =
      readPath read ("::".intercalate (modules.map PathSegment.text ++ s :: behind)).toList := by
  cases modules with
  | nil =>
      obtain ⟨cs, front⟩ := bracket
      rw [List.map_nil, List.nil_append, toList_intercalate_coloned, front]
      exact readTypeWith_bracket _
  | cons first modules =>
      rw [List.map_cons, List.cons_append, toList_intercalate_coloned]
      have next := follows_furtherText (modules.map PathSegment.text ++ s :: behind)
      exact readTypeWith_segment first.isSegment (next.mono (by decide))
        (.inr fun opening => absurd (next _ opening) (by decide))

/-- A path ends where its segments do, and its last one is the name. -/
theorem readPath_ends {after : List Char} {first : String} {further : List String}
    (start : readSegment cs = .ok (first, after))
    (segments : readFurtherSegments (after.length + 1) after = .ok (further, rest))
    (ends : Follows boundEnds rest) : ∃ t, readPath read cs = .ok (t, rest) ∧
      ∀ name ∈ further.getLast?,
        t = coloned ("::".intercalate (first :: further.dropLast)) name [] := by
  simp only [readPath, start, segments, bind, Except.bind]
  cases last : further.getLast? with
  | some name =>
      exact ⟨_, readNested_end _ _ ends, fun _ same => by rw [Option.some.inj same]; rfl⟩
  | none =>
      have noDot : eat? ['.'] rest = none := ends.eat?_none (by decide) _
      simp only [noDot]
      split
      · exact ⟨_, rfl, fun _ last => absurd last (Option.not_mem_none _)⟩
      · exact ⟨_, readNested_end _ _ ends, fun _ last => absurd last (Option.not_mem_none _)⟩

/-- Segments that are read one by one are a name in its module. -/
theorem readPath_segments {segments : List String} {name : String} (nonempty : segments ≠ [])
    (reads : ∀ s ∈ segments ++ [name], ReadsSegment s) :
    readPath read ("::".intercalate (segments ++ [name])).toList =
      .ok (coloned ("::".intercalate segments) name [], []) := by
  obtain ⟨first, further, rfl⟩ := List.exists_cons_of_ne_nil nonempty
  rw [List.cons_append] at reads ⊢
  obtain ⟨start, behind⟩ := List.forall_mem_cons.1 reads
  have next := follows_furtherText (further ++ [name])
  have all := readFurtherSegments_all behind follows_nil
    (Nat.lt_succ_of_le (length_le_furtherText (further ++ [name])))
  rw [List.append_nil] at all
  obtain ⟨t, path, named⟩ := readPath_ends (start _ (next.mono (by decide))) all follows_nil
  have same := named name (by simp)
  rw [List.dropLast_concat] at same
  rw [toList_intercalate_coloned, path, same]

/-- A path whose reader stops in one of its segments is read up to there. -/
theorem readPath_early (modules : List PathSegment) {s segment : String} {behind : List String}
    (early : readSegment (s.toList ++ furtherText behind) = .ok (segment, rest))
    (bound : Follows boundEnds rest) : ∃ t, readPath read
      ("::".intercalate (modules.map PathSegment.text ++ s :: behind)).toList = .ok (t, rest) := by
  cases modules with
  | nil =>
      rw [List.map_nil, List.nil_append, toList_intercalate_coloned]
      obtain ⟨t, path, -⟩ := readPath_ends early
        (readFurtherSegments_none (bound.mono (by decide)) _) bound
      exact ⟨t, path⟩
  | cons first modules =>
      have last (steps : Nat) : readFurtherSegments (steps + 2) (furtherText (s :: behind)) =
          .ok ([segment], rest) := by
        have text : furtherText (s :: behind) =
            [':', ':'] ++ (s.toList ++ furtherText behind) := by
          simp [furtherText]
        have none := readFurtherSegments_none (bound.mono (by decide)) steps
        rw [text, readFurtherSegments, eat?_append]
        simp only [early, none, bind, Except.bind]
      have few := length_le_furtherText (modules.map PathSegment.text ++ s :: behind)
      rw [List.length_append, List.length_cons] at few
      obtain ⟨steps, count⟩ := Nat.exists_eq_add_of_le'
        (by omega : (modules.map PathSegment.text).length + 2 ≤
          (furtherText (modules.map PathSegment.text ++ s :: behind)).length + 1)
      have all := readFurtherSegments_append (readsSegment_text modules)
        ((follows_furtherText _).mono (by decide)) (last steps)
      rw [Nat.add_left_comm, ← count, ← furtherText_append] at all
      rw [List.map_cons, List.cons_append, toList_intercalate_coloned]
      obtain ⟨t, path, -⟩ := readPath_ends (first.isSegment.readsSegment _
        ((follows_furtherText _).mono (by decide))) all bound
      exact ⟨t, path⟩

/-- Only spaces may follow a path. -/
theorem readAll_path (opens : ∀ read, readTypeWith read cs = readPath read cs)
    (path : readPath (readType cs.length) cs = .ok (t, rest)) :
    readAll cs =
      if (skipSpaces rest).isEmpty then .ok t else .error (.trailing, skipSpaces rest) := by
  simp only [readAll, readType, opens, path, bind, Except.bind]

theorem isEmpty_skipSpaces {c : Char} (h : c ∈ rest) (other : c ≠ ' ') :
    (skipSpaces rest).isEmpty = false := by
  rw [List.isEmpty_eq_false_iff, skipSpaces, Ne, List.dropWhile_eq_nil_iff]
  exact fun spaces => other (of_decide_eq_true (spaces c h))

/-- A segment that names an implementation is kept as it stands, whatever path it stands in, exactly
if no function pointer in it states a result. -/
theorem parse_implementation_iff (implementation : Implementation)
    (modules inner : List PathSegment) (name : PathSegment)
    (plain : PlainFronts implementation.functions) :
    parse ("::".intercalate (modules.map PathSegment.text ++
        implementation.segment :: (inner.map PathSegment.text ++ [name.text]))) =
      .ok (coloned ("::".intercalate (modules.map PathSegment.text ++
        implementation.segment :: inner.map PathSegment.text)) name.text []) ↔
    ∀ pointer ∈ implementation.functions, pointer.2 = none := by
  have surplus := implementation.surplus plain
  have brackets : implementation.segment.toList = '<' :: (implementation.inside ++ ['>']) :=
    String.toList_ofList
  have opens : ∀ read : Read Identity, readTypeWith read _ = readPath read _ :=
    fun read => readTypeWith_path modules ⟨_, brackets⟩ (inner.map PathSegment.text ++ [name.text])
  rw [← arrows_eq_zero]
  refine ⟨fun kept => Nat.eq_zero_of_not_pos fun many => ?_, fun none => ?_⟩
  · obtain ⟨segment, back, bound, stops⟩ := surplus.readSegment_early many
      (furtherText (inner.map PathSegment.text ++ [name.text]))
    have early : readSegment (implementation.segment.toList ++
        furtherText (inner.map PathSegment.text ++ [name.text])) = .ok (segment, back ++ '>' ::
          furtherText (inner.map PathSegment.text ++ [name.text])) := by
      simpa [brackets] using stops
    obtain ⟨t, path⟩ := readPath_early modules early bound
    have left : (skipSpaces (back ++ '>' ::
        furtherText (inner.map PathSegment.text ++ [name.text]))).isEmpty = false :=
      isEmpty_skipSpaces (List.mem_append_right back List.mem_cons_self) (by decide)
    rw [parse, readAll_path opens path, left] at kept
    cases kept
  · rw [none] at surplus
    have reads : ∀ s ∈ modules.map PathSegment.text ++ implementation.segment ::
        inner.map PathSegment.text ++ [name.text], ReadsSegment s := by
      refine List.forall_mem_append.2 ⟨List.forall_mem_append.2 ⟨readsSegment_text modules,
        List.forall_mem_cons.2 ⟨surplus.readsSegment, readsSegment_text inner⟩⟩, ?_⟩
      exact List.forall_mem_singleton.2 name.isSegment.readsSegment
    have path : ∀ read : Read Identity, readPath read _ = _ :=
      fun read => readPath_segments (by simp) reads
    rw [List.append_assoc, List.cons_append] at path
    rw [parse, readAll_path opens (path _)]
    rfl

namespace Callback

def word (s : String) (h : IsWord s) : Word := ⟨s, h⟩

def byte : Spelling := .primitive (word "u8" (by decide)) (by decide)

/-- A conversion from a function pointer. -/
def conversion (front : FunctionFront) (result : Option Spelling) : Implementation where
  trait := ⟨word "core" (by decide), [word "convert" (by decide), word "From" (by decide)],
    [.type (.function front [.reference none false byte] false result)]⟩
  type := .path ⟨word "api" (by decide), [], word "User" (by decide), []⟩

def modules : List PathSegment := [⟨"api", by decide⟩, ⟨"_", by decide⟩]

/-- A binder has angle brackets of its own. -/
def bound : FunctionFront :=
  ⟨[word "a" (by decide)], true, some ⟨"C", by decide⟩⟩

theorem parse_implementation_bound :
    (conversion bound none).segment =
      "<impl core::convert::From<for<'a> unsafe extern \"C\" fn(&u8)> for api::User>" ∧
    PlainFronts (conversion bound none).functions ∧
    parse ("::".intercalate (modules.map PathSegment.text ++
        (conversion bound none).segment :: (["from"] ++ ["Local"]))) =
      .ok (coloned ("::".intercalate (modules.map PathSegment.text ++
        (conversion bound none).segment :: ["from"])) "Local" []) := by
  have plain : PlainFronts (conversion bound none).functions :=
    List.forall_mem_singleton.2 fun convention called => by
      obtain rfl : ⟨"C", by decide⟩ = convention := Option.some.inj called
      decide
  refine ⟨by decide +kernel, plain, ?_⟩
  exact (parse_implementation_iff _ modules [⟨"from", by decide⟩] ⟨"Local", by decide⟩ plain).mpr
    (arrows_eq_zero.mp rfl)

/-- The arrow closes the bracket of the arguments. -/
theorem implementation_split :
    "::".intercalate (modules.map PathSegment.text ++
        (conversion ⟨[], false, none⟩ (some byte)).segment :: ["from", "Local"]) =
      "api::_::<impl core::convert::From<fn(&u8) -> u8> for api::User>::from::Local" ∧
    parse "api::_::<impl core::convert::From<fn(&u8) -> u8> for api::User>::from::Local" =
      .error ⟨"api::_::<impl core::convert::From<fn(&u8) -> u8> for api::User>::from::Local",
        .trailing, 49⟩ := by
  exact ⟨by decide +kernel, by rfl⟩

end Callback

end ApiAtlas.Identity
