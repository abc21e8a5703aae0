import ApiAtlas.Proofs.Named
import Mathlib.Data.String.Basic

/-!
# Scanning a type name by positions

The reader of type names hands on the characters that are left. A scanner hands on a position in
the bytes of the text instead: it takes slices that start and end at positions, and moves on by the
sizes of tokens and by what a search found. A slice that cuts a character in two is refused, as is a
slice beyond the end of the text, and so is a counter that was to fall below zero.

The cursor of a scan remembers every position that it had. A scan follows a reading if it ends as
the reading does, in front of the same characters, and every position of it is the start of a
character or the end of the text. The steps of a scanner follow what the reader does to the
characters that are left.
-/
namespace ApiAtlas.Identity

open Text (isAlphanumeric)

/-- Why a scan stops. -/
inductive Halt where
  | fault (fault : NameFault)
  /-- A slice was to be taken that does not start and end between characters of the text. -/
  | slice
  /-- A counter was to fall below zero. -/
  | underflow

/-- A position in a text. -/
structure Cursor where
  input : String
  /-- The number of bytes in front. -/
  position : Nat := 0
  /-- Where the cursor stood before, the last position first. -/
  earlier : List Nat := []

/-- Every position that a cursor had. -/
def Cursor.positions (c : Cursor) : List Nat := c.position :: c.earlier

/-- A scan: it moves the cursor, and ends with a value or stops. -/
abbrev Scan (α : Type) := EStateM Halt Cursor α

/-- Split behind a number of bytes, if there is a place between characters. -/
def splitBytes : Nat → List Char → Option (List Char × List Char)
  | 0, cs => some ([], cs)
  | _ + 1, [] => none
  | n + 1, c :: cs =>
      if c.utf8Size ≤ n + 1 then
        (splitBytes (n + 1 - c.utf8Size) cs).map fun (front, back) => (c :: front, back)
      else none

/-- The number of bytes in front of the first character of a kind. -/
def findBytes (p : Char → Bool) : List Char → Option Nat
  | [] => none
  | c :: cs => if p c then some 0 else (findBytes p cs).map (c.utf8Size + ·)

/-- The number of bytes in front of the first character that is not of a kind, or of all. -/
def runBytes (p : Char → Bool) (cs : List Char) : Nat :=
  (findBytes (fun c => !p c) cs).getD (utf8Size cs)

/-- The index of the angle bracket that closes so many open ones, counted from an index on. -/
def closing (level index : Nat) : List Char → Except Halt (Option Nat)
  | [] => .ok none
  | c :: cs =>
      if c = '<' then closing (level + 1) (index + c.utf8Size) cs
      else if c = '>' then
        if level = 0 then .error .underflow
        else if level - 1 = 0 then .ok (some index)
        else closing (level - 1) (index + c.utf8Size) cs
      else closing level (index + c.utf8Size) cs

namespace Scan

/-! ## Steps -/

def fail {α : Type} (fault : NameFault) : Scan α := throw (.fault fault)

/-- The parts of a text in front of a position and behind it. -/
def slice (bytes : Nat) (cs : List Char) : Scan (List Char × List Char) :=
  match splitBytes bytes cs with
  | some parts => return parts
  | none => throw .slice

/-- The text behind the cursor. -/
def rest : Scan (List Char) := do
  let cursor ← get
  let (_, back) ← slice cursor.position cursor.input.toList
  return back

/-- Move by a number of bytes. -/
def advance (bytes : Nat) : Scan Unit :=
  modify fun c => { c with position := c.position + bytes, earlier := c.positions }

/-- The next character. -/
def peek : Scan (Option Char) := do return (← rest).head?

/-- Move behind a token, if it is next. -/
def eat (token : List Char) : Scan Bool := do
  let rest ← rest
  if token.isPrefixOf rest then do
    advance (utf8Size token)
    return true
  else return false

/-- Move behind a token that has to be next. -/
def expect (token : List Char) : Scan Unit := do
  if ← eat token then return () else fail (.expected token)

/-- Move behind a delimiter, and return what stood in front of it. -/
def seek (delimiter : Char) : Scan (List Char) := do
  let rest ← rest
  match findBytes (fun c => c = delimiter) rest with
  | some index => do
      advance (index + delimiter.utf8Size)
      let (front, _) ← slice index rest
      return front
  | none => fail (.expected [delimiter])

/-- Move behind so many spaces at most. -/
def skipSpacesWithin : Nat → Scan Unit
  | 0 => fail .depth
  | steps + 1 => do
      if (← peek) = some ' ' then do
        advance 1
        skipSpacesWithin steps
      else return ()

/-- Move behind spaces. -/
def skipSpaces : Scan Unit := do
  let rest ← rest
  skipSpacesWithin (rest.length + 1)

/-- Move behind a lifetime and the spaces behind it, if one is next. -/
def skipLifetime : Scan Unit := do
  if (← peek) = some '\'' then do
    advance 1
    let rest ← rest
    advance (runBytes (fun c => isAlphanumeric c || c = '_') rest)
    skipSpaces
  else return ()

end Scan

/-! ## Sizes -/

section
variable {cs front back : List Char}

@[simp] theorem utf8Size_cons (c : Char) (cs : List Char) :
    utf8Size (c :: cs) = c.utf8Size + utf8Size cs := rfl

@[simp] theorem utf8Size_append (front back : List Char) :
    utf8Size (front ++ back) = utf8Size front + utf8Size back := by
  induction front with
  | nil => exact (Nat.zero_add _).symm
  | cons c front ih => rw [List.cons_append, utf8Size_cons, ih, utf8Size_cons, Nat.add_assoc]

theorem utf8Size_pos (full : cs ≠ []) : 0 < utf8Size cs := by
  cases cs with
  | nil => exact absurd rfl full
  | cons c cs => exact Nat.lt_of_lt_of_le c.utf8Size_pos (Nat.le_add_right _ _)

theorem utf8ByteSize_ofList (cs : List Char) : (String.ofList cs).utf8ByteSize = utf8Size cs := by
  rw [String.utf8ByteSize_ofList]
  induction cs with
  | nil => rfl
  | cons c cs ih => rw [String.utf8Len_cons, ih, utf8Size_cons, Nat.add_comm]

/-- Behind whole characters there is the start of a character, or the end of the text. -/
theorem isValid_of_append {input : String} (whole : input.toList = front ++ back) :
    String.Pos.Raw.IsValid input ⟨utf8Size front⟩ := by
  refine String.Pos.Raw.isValid_iff_exists_append.mpr ⟨.ofList front, .ofList back, ?_, ?_⟩
  · rw [← String.ofList_append, ← whole, String.ofList_toList]
  · rw [← utf8ByteSize_ofList]
    rfl

theorem splitBytes_append (front back : List Char) :
    splitBytes (utf8Size front) (front ++ back) = some (front, back) := by
  induction front with
  | nil => cases back <;> rfl
  | cons c front ih =>
      have positive := c.utf8Size_pos
      obtain ⟨n, size⟩ : ∃ n, utf8Size (c :: front) = n + 1 :=
        ⟨_, (Nat.succ_pred_eq_of_pos (utf8Size_pos (List.cons_ne_nil c front))).symm⟩
      have left : n + 1 - c.utf8Size = utf8Size front := by
        rw [← size, utf8Size_cons, Nat.add_sub_cancel_left]
      rw [size, List.cons_append, splitBytes, if_pos, left, ih]
      · rfl
      · rw [← size]
        exact Nat.le_add_right _ _

theorem findBytes_eq (p : Char → Bool) (cs : List Char) :
    findBytes p cs = if (cs.dropWhile fun c => !p c) = [] then none
      else some (utf8Size (cs.takeWhile fun c => !p c)) := by
  induction cs with
  | nil => rfl
  | cons c cs ih =>
      by_cases found : p c
      · simp [findBytes, found, utf8Size]
      · rw [findBytes, if_neg found, ih]
        simp only [List.dropWhile_cons, List.takeWhile_cons, found]
        split <;> simp_all

theorem runBytes_eq (p : Char → Bool) (cs : List Char) :
    runBytes p cs = utf8Size (cs.takeWhile p) := by
  have whole := List.takeWhile_append_dropWhile (p := p) (l := cs)
  unfold runBytes
  rw [findBytes_eq]
  simp only [Bool.not_not]
  split
  · next all =>
      rw [all, List.append_nil] at whole
      rw [whole]
      rfl
  · rfl

/-- The bracket that closes is the last character of the segment. -/
theorem closing_eq {level : Nat} (opened : 0 < level) (index : Nat) (cs : List Char) :
    closing level index cs =
      .ok ((splitQualified level cs).map fun split => index + (utf8Size split.1 - 1)) := by
  induction cs generalizing level index with
  | nil => rfl
  | cons c cs ih =>
      have further {level : Nat} (opened : 0 < level) :
          closing level (index + c.utf8Size) cs = .ok (((splitQualified level cs).map
            fun split => (c :: split.1, split.2)).map
              fun split => index + (utf8Size split.1 - 1)) := by
        rw [ih opened, Option.map_map]
        refine congrArg Except.ok (Option.map_congr fun split member => ?_)
        have full := utf8Size_pos (splitQualified_eq member).2
        simp only [Function.comp_apply, utf8Size_cons]
        omega
      rw [closing]
      by_cases opens : c = '<'
      · subst opens
        exact further (Nat.succ_pos level)
      · by_cases closes : c = '>'
        · subst closes
          rw [if_neg opens, if_pos rfl, if_neg (Nat.ne_of_gt opened)]
          by_cases last : level = 1
          · subst last
            rfl
          · rw [if_neg (by omega)]
            refine (further (by omega)).trans ?_
            simp [splitQualified, last]
        · rw [if_neg opens, if_neg closes]
          have skipped : splitQualified level (c :: cs) =
              (splitQualified level cs).map fun split => (c :: split.1, split.2) := by
            simp [splitQualified]
          rw [skipped]
          exact further opened

end

/-! ## Scans that follow a reading -/

/-- A cursor stands in front of some characters of its text, and wherever it stood, a character of
the text starts, or the text ends. -/
structure Cursor.At (input : String) (cs : List Char) (c : Cursor) : Prop where
  text : c.input = input
  place : ∃ front, input.toList = front ++ cs ∧ c.position = utf8Size front
  boundaries : ∀ p ∈ c.positions, String.Pos.Raw.IsValid input ⟨p⟩

/-- A scan ends as a reading does, and in front of the characters that the reading leaves. -/
inductive Lands {α : Type} (input : String) :
    Except (NameFault × List Char) (α × List Char) → EStateM.Result Halt Cursor α → Prop
  | found {a : α} {rest : List Char} {c : Cursor} (there : c.At input rest) :
      Lands input (.ok (a, rest)) (.ok a c)
  | fault {fault : NameFault} {rest : List Char} {c : Cursor} (there : c.At input rest) :
      Lands input (.error (fault, rest)) (.error (.fault fault) c)

/-- From a cursor in front of some characters a scan lands as a reading of these characters. -/
def Scan.Follows {α : Type} (input : String) (m : Scan α) (cs : List Char)
    (x : Except (NameFault × List Char) (α × List Char)) : Prop :=
  ∀ c : Cursor, c.At input cs → Lands input x (m.run c)

theorem Cursor.at_start (input : String) : Cursor.At input input.toList ⟨input, 0, []⟩ := by
  refine ⟨rfl, ⟨[], rfl, rfl⟩, fun p member => ?_⟩
  obtain rfl := List.mem_singleton.mp member
  exact isValid_of_append (List.nil_append input.toList).symm

section
variable {input : String} {cs front back token : List Char} {c : Cursor}

/-- A cursor moves on by whole characters. -/
theorem Cursor.At.advance (h : c.At input (front ++ back)) {bytes : Nat}
    (size : bytes = utf8Size front) :
    At input back { c with position := c.position + bytes, earlier := c.positions } := by
  obtain ⟨passed, whole, here⟩ := h.place
  have whole : input.toList = (passed ++ front) ++ back := by rw [whole, List.append_assoc]
  have there : c.position + bytes = utf8Size (passed ++ front) := by
    rw [here, size, utf8Size_append]
  refine ⟨h.text, ⟨_, whole, there⟩, ?_⟩
  refine List.forall_mem_cons.mpr ⟨?_, h.boundaries⟩
  exact there ▸ isValid_of_append whole

end

namespace Scan
variable {α β : Type} {input : String} {cs front back token : List Char} {m : Scan α}
variable {f : α → Scan β}

namespace Follows
variable {x : Except (NameFault × List Char) (α × List Char)}
variable {y : Except (NameFault × List Char) (β × List Char)}

theorem pure (a : α) : Follows input (Pure.pure a) cs (.ok (a, cs)) := fun _ here => .found here

theorem fail (fault : NameFault) :
    Follows input (Scan.fail fault : Scan α) cs (.error (fault, cs)) :=
  fun _ here => .fault here

theorem bind {g : α × List Char → Except (NameFault × List Char) (β × List Char)}
    (hm : Follows input m cs x)
    (hf : ∀ a rest, x = .ok (a, rest) → Follows input (f a) rest (g (a, rest))) :
    Follows input (m >>= f) cs (x >>= g) := by
  intro c here
  have landed := hm c here
  rw [EStateM.run_bind]
  generalize m.run c = r at landed ⊢
  cases landed with
  | found there => exact hf _ _ rfl _ there
  | fault there => exact .fault there

/-- What is done behind a step that cannot fail. -/
theorem behind {a : α} {rest : List Char} (hm : Follows input m cs (.ok (a, rest)))
    (hf : Follows input (f a) rest y) : Follows input (m >>= f) cs y :=
  hm.bind (g := fun _ => y) fun b left same => by
    obtain ⟨rfl, rfl⟩ := Prod.mk.inj (Except.ok.inj same)
    exact hf

end Follows

theorem follows_slice {text : List Char} (whole : text = front ++ back) (cs : List Char) :
    Follows input (slice (utf8Size front) text) cs (.ok ((front, back), cs)) := by
  unfold slice
  rw [whole, splitBytes_append]
  exact .pure _

theorem follows_rest : Follows input rest cs (.ok (cs, cs)) := by
  intro c here
  obtain ⟨front, whole, place⟩ := here.place
  show Lands input _ ((slice c.position c.input.toList >>= fun parts => Pure.pure parts.2).run c)
  rw [here.text, place]
  exact (follows_slice whole cs).behind (.pure cs) c here

theorem follows_advance (front : List Char) {bytes : Nat} (whole : cs = front ++ back)
    (size : bytes = utf8Size front) : Follows input (advance bytes) cs (.ok ((), back)) := by
  subst whole
  exact fun _ here => .found (here.advance size)

theorem follows_peek : Follows input peek cs (.ok (cs.head?, cs)) :=
  follows_rest.behind (.pure _)

theorem isPrefixOf_eq (token cs : List Char) : token.isPrefixOf cs = (eat? token cs).isSome := by
  induction token generalizing cs with
  | nil => simp [eat?]
  | cons t token ih =>
      cases cs with
      | nil => rfl
      | cons c cs =>
          by_cases same : t = c
          · simp [eat?, same, ih]
          · simp [eat?, same, List.isPrefixOf]

theorem follows_eat (token cs : List Char) :
    Follows input (eat token) cs (.ok ((eat? token cs).isSome, eatOptional token cs)) := by
  refine follows_rest.behind ?_
  rw [isPrefixOf_eq]
  unfold eatOptional
  cases eaten : eat? token cs with
  | none => exact .pure false
  | some rest =>
      exact (follows_advance token (eq_of_eat? eaten) rfl).behind (.pure true)

/-- What is done behind a token, or where it is not next. -/
theorem Follows.eatThen {first second : Scan β}
    {y : Except (NameFault × List Char) (β × List Char)}
    (hf : ∀ rest, eat? token cs = some rest → Follows input first rest y)
    (hs : eat? token cs = none → Follows input second cs y) :
    Follows input (Scan.eat token >>= fun found => if found then first else second) cs y := by
  refine (follows_eat token cs).behind ?_
  unfold eatOptional
  cases eaten : eat? token cs with
  | none => exact hs eaten
  | some rest => exact hf rest eaten

theorem Follows.eat {first second : Scan β}
    {taken : List Char → Except (NameFault × List Char) (β × List Char)}
    {left : Except (NameFault × List Char) (β × List Char)}
    (hf : ∀ rest, Follows input first rest (taken rest)) (hs : Follows input second cs left) :
    Follows input (Scan.eat token >>= fun found => if found then first else second) cs
      (match eat? token cs with
      | some rest => taken rest
      | none => left) := by
  refine .eatThen (fun rest eaten => ?_) fun missing => ?_
  · rw [eaten]
    exact hf rest
  · rw [missing]
    exact hs

theorem follows_expect (token cs : List Char) :
    Follows input (expect token) cs (Identity.expect token cs) := by
  unfold Identity.expect
  exact .eat (fun _ => .pure ()) (.fail _)

theorem follows_seek (delimiter : Char) (cs : List Char) :
    Follows input (seek delimiter) cs (readUpTo delimiter cs) := by
  have settled := settles_readUpTo delimiter cs
  unfold readUpTo at settled ⊢
  refine follows_rest.behind ?_
  rw [findBytes_eq]
  simp only [ne_eq, decide_not] at settled ⊢
  split at settled
  · next c rest found =>
    obtain ⟨-, whole⟩ := settled
    rw [found, if_neg (List.cons_ne_nil _ _)]
    dsimp only
    generalize cs.takeWhile _ = front at whole ⊢
    have passed : cs = (front ++ [delimiter]) ++ rest := by
      rw [whole, List.append_assoc, List.singleton_append]
    have size : utf8Size front + delimiter.utf8Size = utf8Size (front ++ [delimiter]) :=
      (utf8Size_append front [delimiter]).symm
    exact (follows_advance _ passed size).behind ((follows_slice whole rest).behind (.pure front))
  · next none =>
    rw [none, if_pos rfl]
    exact .fail _

theorem follows_skipSpaces (cs : List Char) :
    Follows input skipSpaces cs (.ok ((), Identity.skipSpaces cs)) := by
  have within (steps : Nat) (cs : List Char) (enough : cs.length < steps) :
      Follows input (skipSpacesWithin steps) cs (.ok ((), Identity.skipSpaces cs)) := by
    induction steps generalizing cs with
    | zero => exact absurd enough (Nat.not_lt_zero _)
    | succ steps ih =>
        refine follows_peek.behind ?_
        split
        · next space =>
          obtain ⟨rest, rfl⟩ := List.head?_eq_some_iff.mp space
          exact (follows_advance [' '] rfl rfl).behind
            (ih rest (Nat.lt_of_succ_lt_succ enough))
        · next other =>
          have none : Identity.skipSpaces cs = cs := by
            cases cs with
            | nil => rfl
            | cons c cs => exact List.dropWhile_cons_of_neg (by simpa using other)
          rw [none]
          exact .pure ()
  exact follows_rest.behind (within _ cs (Nat.lt_succ_self _))

theorem follows_skipLifetime (cs : List Char) :
    Follows input skipLifetime cs (.ok ((), Identity.skipLifetime cs)) := by
  refine follows_peek.behind ?_
  split
  · next mark =>
    obtain ⟨rest, rfl⟩ := List.head?_eq_some_iff.mp mark
    refine (follows_advance ['\''] rfl rfl).behind (follows_rest.behind ?_)
    have word := (List.takeWhile_append_dropWhile
      (p := fun c => isAlphanumeric c || c = '_') (l := rest)).symm
    exact (follows_advance _ word (runBytes_eq _ rest)).behind (follows_skipSpaces _)
  · next other =>
    have none : Identity.skipLifetime cs = cs := by
      unfold Identity.skipLifetime
      split
      · exact absurd rfl other
      · rfl
    rw [none]
    exact .pure ()

end Scan
end ApiAtlas.Identity
