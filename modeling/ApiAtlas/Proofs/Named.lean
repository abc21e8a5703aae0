import ApiAtlas.Proofs.Canonical

/-!
# Named identities

Every production of the reader of type names starts at an end of the text. It leaves an end of the
text too, or it fails at one, and never because its allowance is used up; a type takes at least one
character. What is read is named to any depth: no name in it is empty, and no module is, except that
an extension puts whatever stands in its parentheses in place of the module, and that may be
nothing.
-/
namespace ApiAtlas

/-- The type of an argument, or that of its value. -/
def Parameter.identity : Parameter → Identity
  | .type identity => identity
  | .literal _ _ valueType => valueType

namespace Identity

open Decimal (isDigit)

/-! ## Identities inside an identity -/

/-- An identity itself, one of those it is nested in, or one inside its arguments. -/
inductive Contains : Identity → Identity → Prop
  | self (t : Identity) : Contains t t
  | parent {t outer s : Identity} (here : t.parent = some outer) (h : Contains outer s) :
      Contains t s
  | argument {t s : Identity} {p : Parameter} (member : p ∈ t.parameters)
      (h : Contains p.identity s) : Contains t s

/-- All identities inside have a property. -/
def Throughout (P : Identity → Prop) (t : Identity) : Prop := ∀ s, t.Contains s → P s

section
variable {P : Identity → Prop} {t : Identity}

theorem throughout_iff : t.Throughout P ↔ P t ∧ (∀ outer ∈ t.parent, outer.Throughout P) ∧
    ∀ p ∈ t.parameters, p.identity.Throughout P := by
  refine ⟨fun h => ⟨h t (.self t), fun outer here s hs => h s (.parent here hs),
    fun p member s hs => h s (.argument member hs)⟩, fun ⟨own, outer, arguments⟩ s hs => ?_⟩
  cases hs with
  | self => exact own
  | parent here inside => exact outer _ here s inside
  | argument member inside => exact arguments _ member s inside

end

/-- What an extension of the empty module starts with. -/
def emptyExtension : List Char := extensionFront ++ [')', ':']

/-- A name, and a module that is not empty unless the text extends the empty one. -/
structure Named (text : List Char) (t : Identity) : Prop where
  name : t.name ≠ ""
  module : t.module = "" → emptyExtension <:+: text

/-! ## Readings that settle -/

variable {α β : Type} {P : α → List Char → Prop} {Q : β → List Char → Prop}
variable {text cs more token : List Char} {depth : Nat} {read : Read Identity}

/-- A reading ends with a value and an end of the text, or it fails at an end of the text, and not
because its allowance is used up. -/
def Settles (cs : List Char) (P : α → List Char → Prop) :
    Except (NameFault × List Char) (α × List Char) → Prop
  | .ok (a, rest) => rest <:+ cs ∧ P a rest
  | .error (fault, rest) => rest <:+ cs ∧ fault ≠ .depth

section
variable {x : Except (NameFault × List Char) (α × List Char)}

theorem Settles.mono {P' : α → List Char → Prop} (h : Settles cs P x)
    (sub : ∀ a rest, rest <:+ cs → P a rest → P' a rest) : Settles cs P' x := by
  obtain ⟨fault, rest⟩ | ⟨a, rest⟩ := x
  · exact h
  · exact ⟨h.1, sub a rest h.1 h.2⟩

/-- A reading that starts further behind. -/
theorem Settles.behind (h : Settles cs P x) (sub : cs <:+ more) : Settles more P x := by
  obtain ⟨fault, rest⟩ | ⟨a, rest⟩ := x
  · exact ⟨h.1.trans sub, h.2⟩
  · exact ⟨h.1.trans sub, h.2⟩

theorem Settles.bind (h : Settles cs P x)
    {f : α × List Char → Except (NameFault × List Char) (β × List Char)}
    (hf : ∀ a rest, rest <:+ cs → P a rest → Settles rest Q (f (a, rest))) :
    Settles cs Q (x >>= f) := by
  obtain ⟨fault, rest⟩ | ⟨a, rest⟩ := x
  · exact h
  · exact (hf a rest h.1 h.2).behind h.1

end

/-! ## Tokens and segments -/

theorem eq_of_eat? {rest : List Char} (h : eat? token cs = some rest) : cs = token ++ rest := by
  induction token generalizing cs with
  | nil => exact Option.some.inj h
  | cons t token ih =>
      cases cs with
      | nil => cases h
      | cons c cs =>
          rw [eat?] at h
          split at h
          · next same => rw [ih h, same, List.cons_append]
          · cases h

theorem suffix_of_eat? {rest : List Char} (h : eat? token cs = some rest) : rest <:+ cs :=
  ⟨token, (eq_of_eat? h).symm⟩

/-- An end of a text that is not all of it. -/
structure Shorter (rest cs : List Char) : Prop where
  suffix : rest <:+ cs
  less : rest.length < cs.length

theorem Shorter.tail (c : Char) (rest : List Char) : Shorter rest (c :: rest) :=
  ⟨List.suffix_cons c rest, Nat.lt_succ_self _⟩

/-- A token takes something. -/
theorem Shorter.of_eat? {t : Char} {rest : List Char} (h : eat? (t :: token) cs = some rest) :
    Shorter rest cs := by
  refine ⟨suffix_of_eat? h, ?_⟩
  rw [eq_of_eat? h, List.length_append, List.length_cons]
  omega

theorem Shorter.later {rest last : List Char} (h : Shorter rest cs) (sub : last <:+ rest) :
    Shorter last cs :=
  ⟨sub.trans h.suffix, Nat.lt_of_le_of_lt sub.length_le h.less⟩

theorem Shorter.fits {rest : List Char} {steps : Nat} (h : Shorter rest cs)
    (enough : cs.length < steps + 1) : rest.length < steps :=
  Nat.lt_of_lt_of_le h.less (Nat.le_of_lt_succ enough)

theorem Shorter.before {rest : List Char} (h : Shorter rest cs) (sub : cs <:+ more) :
    Shorter rest more :=
  ⟨h.suffix.trans sub, Nat.lt_of_lt_of_le h.less sub.length_le⟩

theorem suffix_skipSpaces (cs : List Char) : skipSpaces cs <:+ cs := List.dropWhile_suffix _

theorem suffix_eatOptional (token cs : List Char) : eatOptional token cs <:+ cs := by
  unfold eatOptional
  cases eaten : eat? token cs with
  | none => exact List.suffix_refl cs
  | some rest => exact suffix_of_eat? eaten

theorem suffix_skipLifetime (cs : List Char) : skipLifetime cs <:+ cs := by
  unfold skipLifetime
  split
  · next rest =>
      exact ((suffix_skipSpaces _).trans (List.dropWhile_suffix _)).trans (List.suffix_cons _ _)
  · exact List.suffix_refl cs

theorem settles_expect (token cs : List Char) :
    Settles cs (fun _ rest => cs = token ++ rest) (expect token cs) := by
  unfold expect
  split
  · next rest eaten => exact ⟨suffix_of_eat? eaten, eq_of_eat? eaten⟩
  · exact ⟨List.suffix_refl cs, nofun⟩

theorem settles_readUpTo (delimiter : Char) (cs : List Char) :
    Settles cs (fun front rest => cs = front ++ delimiter :: rest) (readUpTo delimiter cs) := by
  unfold readUpTo
  split
  · next c rest left =>
      have stopped : c = delimiter := by
        have front := List.head?_dropWhile_not (fun c => decide (c ≠ delimiter)) cs
        rw [left] at front
        simpa using front
      have whole := List.takeWhile_append_dropWhile (p := fun c => decide (c ≠ delimiter)) (l := cs)
      rw [left, stopped] at whole
      exact ⟨⟨_, (List.append_cons _ delimiter rest ▸ whole)⟩, whole.symm⟩
  · exact ⟨List.suffix_refl cs, nofun⟩

/-- A qualified segment is not empty, and stands in front of what is left. -/
theorem splitQualified_eq {level : Nat} {segment rest : List Char}
    (h : splitQualified level cs = some (segment, rest)) : cs = segment ++ rest ∧ segment ≠ [] := by
  induction cs generalizing level segment with
  | nil => cases h
  | cons c cs ih =>
      have further {level : Nat} (h : (splitQualified level cs).map
          (fun split => (c :: split.1, split.2)) = some (segment, rest)) :
          c :: cs = segment ++ rest ∧ segment ≠ [] := by
        obtain ⟨⟨inner, left⟩, split, same⟩ := Option.map_eq_some_iff.mp h
        obtain ⟨rfl, rfl⟩ := Prod.mk.inj same
        exact ⟨congrArg (c :: ·) (ih split).1, List.cons_ne_nil _ _⟩
      unfold splitQualified at h
      split at h
      · cases h
      · next same => obtain ⟨rfl, rfl⟩ := List.cons.inj same; exact further h
      · next same =>
          obtain ⟨rfl, rfl⟩ := List.cons.inj same
          split at h
          · obtain ⟨rfl, rfl⟩ := Prod.mk.inj (Option.some.inj h)
            exact ⟨rfl, List.cons_ne_nil _ _⟩
          · exact further h
      · next same => obtain ⟨rfl, rfl⟩ := List.cons.inj same; exact further h

theorem ofList_ne_empty {segment : List Char} (h : segment ≠ []) : String.ofList segment ≠ "" := by
  intro empty
  exact h (by simpa using congrArg String.toList empty)

theorem intercalate_ne_empty {first : String} {further : List String} (full : first ≠ "") :
    "::".intercalate (first :: further) ≠ "" := by
  intro empty
  have none := congrArg String.toList empty
  rw [toList_intercalate_coloned] at none
  exact full (String.toList_eq_nil_iff.mp (List.append_eq_nil_iff.mp none).1)

/-- A segment that was read: it is not empty, and it was taken from the text. -/
def Segmented (cs : List Char) (segment : String) (rest : List Char) : Prop :=
  segment ≠ "" ∧ Shorter rest cs

theorem settles_readPlainSegment (cs : List Char) :
    Settles cs (Segmented cs) (readPlainSegment cs) := by
  have taken {segment rest : List Char} (eq : cs = segment ++ rest) (full : segment ≠ []) :
      rest <:+ cs ∧ Segmented cs (String.ofList segment) rest := by
    have pos := List.length_pos_iff.mpr full
    have less : rest.length < cs.length := by rw [eq, List.length_append]; omega
    exact ⟨⟨segment, eq.symm⟩, ofList_ne_empty full, ⟨segment, eq.symm⟩, less⟩
  unfold readPlainSegment
  split
  · split
    · next segment rest split =>
        obtain ⟨eq, full⟩ := splitQualified_eq split
        exact taken eq full
    · exact ⟨List.suffix_refl _, nofun⟩
  · dsimp only
    split
    · exact ⟨List.suffix_refl _, nofun⟩
    · next full =>
        have run := List.takeWhile_prefix (fun c => !segmentEnds.contains c) (l := cs)
        exact taken (List.prefix_iff_eq_append.mp run).symm (by simpa using full)

theorem settles_readSegment (cs : List Char) : Settles cs (Segmented cs) (readSegment cs) := by
  unfold readSegment
  split
  · refine (settles_readUpTo ')' cs).bind fun _ rest behind _ => ?_
    refine (settles_expect ['.'] rest).bind fun _ after later _ => ?_
    exact (settles_readPlainSegment after).mono fun _ _ _ ⟨full, shorter⟩ =>
      ⟨full, shorter.before (later.trans behind)⟩
  · exact settles_readPlainSegment cs

theorem settles_readFurtherSegments {steps : Nat} (enough : cs.length < steps) :
    Settles cs (fun segments _ => ∀ s ∈ segments, s ≠ "") (readFurtherSegments steps cs) := by
  induction steps generalizing cs with
  | zero => exact absurd enough (Nat.not_lt_zero _)
  | succ steps ih =>
      unfold readFurtherSegments
      split
      · exact ⟨List.suffix_refl cs, nofun⟩
      · next behind eaten =>
          have shorter := Shorter.of_eat? eaten
          refine Settles.behind ?_ shorter.suffix
          refine (settles_readSegment behind).bind fun segment rest later ⟨full, _⟩ => ?_
          refine (ih ((shorter.later later).fits enough)).bind fun segments left _ others => ?_
          exact ⟨List.suffix_refl left, List.forall_mem_cons.mpr ⟨full, others⟩⟩

theorem settles_readLength (cs : List Char) :
    Settles cs (fun p _ => ∃ value, p = .length value) (readLength cs) := by
  unfold readLength
  dsimp only
  split
  · exact ⟨List.dropWhile_suffix _, _, rfl⟩
  · exact ⟨List.suffix_refl cs, nofun⟩

/-! ## Productions -/

/-- An end of a text that is shorter than an allowance. -/
structure Within (text : List Char) (depth : Nat) (cs : List Char) : Prop where
  inside : cs <:+ text
  fits : cs.length < depth

theorem Within.later {rest : List Char} (h : Within text depth cs) (sub : rest <:+ cs) :
    Within text depth rest :=
  ⟨sub.trans h.inside, Nat.lt_of_le_of_lt sub.length_le h.fits⟩

theorem Within.shorter {rest : List Char} (h : Within text (depth + 1) cs) (s : Shorter rest cs) :
    Within text depth rest :=
  ⟨s.suffix.trans h.inside, s.fits h.fits⟩

/-- A type that was read: it is named to any depth, and it was taken from the text. -/
def Typed (text cs : List Char) (t : Identity) (rest : List Char) : Prop :=
  t.Throughout (Named text) ∧ Shorter rest cs

/-- What was read behind something that was taken is a type of the text. -/
theorem Settles.typed {rest : List Char}
    {x : Except (NameFault × List Char) (Identity × List Char)}
    (h : Settles rest (fun t _ => t.Throughout (Named text)) x) (s : Shorter rest cs) :
    Settles cs (Typed text cs) x :=
  (h.mono fun _ _ behind named => ⟨named, s.later behind⟩).behind s.suffix

/-- A reader of the types within an allowance. -/
def ReadsTypes (text : List Char) (depth : Nat) (read : Read Identity) : Prop :=
  ∀ cs, Within text depth cs → Settles cs (Typed text cs) (read cs)

/-- All arguments are named to any depth. -/
def NamedArguments (text : List Char) (parameters : List Parameter) : Prop :=
  ∀ p ∈ parameters, p.identity.Throughout (Named text)

theorem NamedArguments.append {first second : List Parameter} (h : NamedArguments text first)
    (h' : NamedArguments text second) : NamedArguments text (first ++ second) :=
  fun p member => (List.mem_append.mp member).elim (h p) (h' p)

theorem NamedArguments.singleton {p : Parameter} (h : p.identity.Throughout (Named text)) :
    NamedArguments text [p] :=
  List.forall_mem_singleton.mpr h

/-- A name in a module, neither nested nor applied to anything. -/
theorem named_outermost {module name : String} {style : PathStyle} (fullModule : module ≠ "")
    (full : name ≠ "") : Throughout (Named text) ⟨module, none, name, [], style⟩ :=
  throughout_iff.mpr ⟨⟨full, fun empty => absurd empty fullModule⟩, nofun, nofun⟩

/-- A type of the root module, applied to named arguments. -/
theorem named_coloned {name : String} {parameters : List Parameter} (full : name ≠ "")
    (arguments : NamedArguments text parameters) :
    (coloned rootModule name parameters).Throughout (Named text) :=
  throughout_iff.mpr
    ⟨⟨full, fun empty => absurd empty (by decide : rootModule ≠ "")⟩, nofun, arguments⟩

theorem named_root {name : String} (full : name ≠ "") : (root name).Throughout (Named text) :=
  named_coloned full nofun

theorem named_length (value : UInt64) : (Parameter.length value).identity.Throughout (Named text) :=
  named_root (by decide)

section
variable (reads : ReadsTypes text depth read)
include reads

/-- The reader starts behind something that was taken. -/
theorem ReadsTypes.behind {rest : List Char} (h : Within text (depth + 1) cs)
    (s : Shorter rest cs) : Settles cs (Typed text cs) (read rest) :=
  Settles.typed ((reads rest (h.shorter s)).mono fun _ _ _ typed => typed.1) s

theorem settles_readArguments (variadic : Bool) {steps : Nat} (h : Within text depth cs)
    (enough : cs.length < steps) :
    Settles cs (fun ps _ => NamedArguments text ps) (readArguments read variadic steps cs) := by
  induction steps generalizing cs with
  | zero => exact absurd enough (Nat.not_lt_zero _)
  | succ steps ih =>
      have spaces := suffix_skipSpaces cs
      unfold readArguments
      refine Settles.behind ?_ spaces
      dsimp only
      split
      · next rest eaten => exact ⟨suffix_of_eat? eaten, nofun⟩
      · split
        · next rest eaten =>
            have dots : rest <:+ skipSpaces cs := by
              cases variadic with
              | false => cases eaten
              | true => exact suffix_of_eat? eaten
            refine Settles.behind ?_ ((suffix_skipSpaces rest).trans dots)
            exact (settles_expect _ _).bind fun _ left _ _ => ⟨List.suffix_refl left, nofun⟩
        · refine (reads _ (h.later spaces)).bind fun t rest behind ⟨named, _⟩ => ?_
          refine Settles.behind ?_ (suffix_skipSpaces rest)
          have left := (suffix_skipSpaces rest).trans (behind.trans spaces)
          dsimp only
          split
          · next after eaten =>
              have shorter := (Shorter.of_eat? eaten).before left
              refine Settles.behind ?_ (suffix_of_eat? eaten)
              refine (ih (h.later shorter.suffix) (shorter.fits enough)).bind
                fun ps last _ others => ?_
              exact ⟨List.suffix_refl last, List.forall_mem_cons.mpr ⟨named, others⟩⟩
          · exact (settles_expect _ _).bind fun _ last _ _ =>
              ⟨List.suffix_refl last, .singleton named⟩

theorem settles_readGeneric (h : Within text depth cs) :
    Settles cs (fun p _ => NamedArguments text p.toList) (readGeneric read cs) := by
  unfold readGeneric
  split
  · exact ⟨suffix_skipLifetime _, nofun⟩
  · split
    · refine (settles_readLength _).bind fun p rest _ ⟨value, same⟩ => ?_
      exact ⟨List.suffix_refl rest, .singleton (same ▸ named_length value)⟩
    · exact (reads _ h).bind fun t rest _ typed => ⟨List.suffix_refl rest, .singleton typed.1⟩
  · exact (reads _ h).bind fun t rest _ typed => ⟨List.suffix_refl rest, .singleton typed.1⟩

theorem settles_readGenerics {steps : Nat} (h : Within text depth cs) (enough : cs.length < steps) :
    Settles cs (fun ps _ => NamedArguments text ps) (readGenerics read steps cs) := by
  induction steps generalizing cs with
  | zero => exact absurd enough (Nat.not_lt_zero _)
  | succ steps ih =>
      have spaces := suffix_skipSpaces cs
      unfold readGenerics
      refine Settles.behind ?_ spaces
      dsimp only
      split
      · next rest eaten => exact ⟨suffix_of_eat? eaten, nofun⟩
      · refine (settles_readGeneric reads (h.later spaces)).bind fun p rest behind named => ?_
        refine Settles.behind ?_ (suffix_skipSpaces rest)
        have left := (suffix_skipSpaces rest).trans (behind.trans spaces)
        dsimp only
        split
        · next after eaten =>
            have shorter := (Shorter.of_eat? eaten).before left
            refine Settles.behind ?_ (suffix_of_eat? eaten)
            refine (ih (h.later shorter.suffix) (shorter.fits enough)).bind
              fun ps last _ others => ?_
            exact ⟨List.suffix_refl last, named.append others⟩
        · exact (settles_expect _ _).bind fun _ last _ _ => ⟨List.suffix_refl last, named⟩

theorem settles_readTuple (h : Within text depth cs) :
    Settles cs (fun t _ => t.Throughout (Named text)) (readTuple read cs) :=
  (settles_readArguments reads false h (Nat.lt_succ_self _)).bind fun _ rest _ named =>
    ⟨List.suffix_refl rest, named_coloned (by decide) named⟩

theorem settles_readFunction (h : Within text depth cs) :
    Settles cs (fun t _ => t.Throughout (Named text)) (readFunction read cs) := by
  refine (settles_readArguments reads true h (Nat.lt_succ_self _)).bind
    fun ps rest behind named => ?_
  have spaces := suffix_skipSpaces rest
  refine Settles.behind ?_ spaces
  dsimp only
  split
  · next after eaten =>
      have arrow := suffix_of_eat? eaten
      refine Settles.behind ?_ arrow
      refine (reads _ (h.later (arrow.trans (spaces.trans behind)))).bind fun t last _ typed => ?_
      exact ⟨List.suffix_refl last, named_coloned (by decide) (named.append (.singleton typed.1))⟩
  · have void : NamedArguments text [.type (root "Void")] := .singleton (named_root (by decide))
    exact ⟨List.suffix_refl _, named_coloned (by decide) (named.append void)⟩

theorem settles_readArray (h : Within text depth cs) :
    Settles cs (fun t _ => t.Throughout (Named text)) (readArray read cs) := by
  refine (reads cs h).bind fun t rest _ ⟨named, _⟩ => ?_
  refine Settles.behind ?_ (suffix_skipSpaces rest)
  dsimp only
  split
  · next after eaten =>
      refine Settles.behind ?_ ((suffix_skipSpaces after).trans (suffix_of_eat? eaten))
      refine (settles_readLength _).bind fun p rest _ ⟨value, same⟩ => ?_
      refine Settles.behind ?_ (suffix_skipSpaces rest)
      refine (settles_expect _ _).bind fun _ last _ _ => ?_
      refine ⟨List.suffix_refl last, named_coloned (by decide) ?_⟩
      exact NamedArguments.append (.singleton named) (.singleton (same ▸ named_length value))
  · exact (settles_expect _ _).bind fun _ last _ _ =>
      ⟨List.suffix_refl last, named_coloned (by decide) (.singleton named)⟩

/-- Further bounds are dropped, so nothing is said of them. -/
theorem settles_skipBounds {steps : Nat} (h : Within text depth cs) (enough : cs.length < steps) :
    Settles cs (fun _ _ => True) (skipBounds read steps cs) := by
  induction steps generalizing cs with
  | zero => exact absurd enough (Nat.not_lt_zero _)
  | succ steps ih =>
      have spaces := suffix_skipSpaces cs
      unfold skipBounds
      refine Settles.behind ?_ spaces
      dsimp only
      split
      · exact ⟨List.suffix_refl _, trivial⟩
      · next after eaten =>
          have shorter := (Shorter.of_eat? eaten).before spaces
          have blanks := suffix_skipSpaces after
          refine Settles.behind ?_ (blanks.trans (suffix_of_eat? eaten))
          split
          · next rest front =>
              rw [front] at blanks ⊢
              have dropped := suffix_skipLifetime ('\'' :: rest)
              have left := shorter.later (dropped.trans blanks)
              exact (ih (h.later left.suffix) (left.fits enough)).behind dropped
          · refine (reads _ (h.later (shorter.later blanks).suffix)).bind fun t rest behind _ => ?_
            have left := shorter.later (behind.trans blanks)
            exact ih (h.later left.suffix) (left.fits enough)

theorem settles_readTraitObject (h : Within text depth cs) :
    Settles cs (fun t _ => t.Throughout (Named text)) (readTraitObject read cs) := by
  refine (reads cs h).bind fun t rest behind typed => ?_
  refine (settles_skipBounds reads (h.later behind) (Nat.lt_succ_self _)).bind fun _ last _ _ => ?_
  exact ⟨List.suffix_refl last, typed.1⟩

theorem settles_readNested {steps : Nat} {t : Identity} (h : Within text depth cs)
    (enough : cs.length < steps) (named : t.Throughout (Named text)) :
    Settles cs (fun t _ => t.Throughout (Named text)) (readNested read steps t cs) := by
  induction steps generalizing cs t with
  | zero => exact absurd enough (Nat.not_lt_zero _)
  | succ steps ih =>
      obtain ⟨own, outer, -⟩ := throughout_iff.mp named
      unfold readNested
      split
      · next after eaten =>
          have shorter := Shorter.of_eat? eaten
          refine Settles.behind ?_ shorter.suffix
          refine (settles_readGenerics reads (h.later shorter.suffix) (Nat.lt_succ_self _)).bind
            fun ps rest behind arguments => ?_
          have left := shorter.later behind
          exact ih (h.later left.suffix) (left.fits enough)
            (throughout_iff.mpr ⟨⟨own.name, own.module⟩, outer, arguments⟩)
      · split
        · next after eaten =>
            have shorter := Shorter.of_eat? eaten
            refine Settles.behind ?_ shorter.suffix
            refine (settles_readSegment after).bind fun name rest behind ⟨full, _⟩ => ?_
            have left := shorter.later behind
            refine ih (h.later left.suffix) (left.fits enough)
              (throughout_iff.mpr ⟨⟨full, own.module⟩, fun outer here => ?_, nofun⟩)
            exact Option.some.inj here ▸ named
        · exact ⟨List.suffix_refl cs, named⟩

theorem settles_readPath (h : Within text (depth + 1) cs) :
    Settles cs (Typed text cs) (readPath read cs) := by
  refine (settles_readSegment cs).bind fun first rest _ ⟨full, shorter⟩ => ?_
  refine (settles_readFurtherSegments (Nat.lt_succ_self _)).bind fun further after later fulls => ?_
  have nested {module name : String} {style : PathStyle} {left : List Char} (sub : left <:+ after)
      (fullModule : module ≠ "") (fullName : name ≠ "") : Settles left (Typed text cs)
        (readNested read (left.length + 1) ⟨module, none, name, [], style⟩ left) :=
    (settles_readNested reads (h.shorter (shorter.later (sub.trans later))) (Nat.lt_succ_self _)
      (named_outermost fullModule fullName)).mono
        fun t last tail named => ⟨named, shorter.later (tail.trans (sub.trans later))⟩
  dsimp only
  split
  · next name last =>
      exact nested (List.suffix_refl after) (intercalate_ne_empty full)
        (fulls name (List.mem_of_getLast? last))
  · split
    · next dotted eaten =>
        refine Settles.behind ?_ (suffix_of_eat? eaten)
        refine (settles_readSegment dotted).bind fun name left tail ⟨fullName, _⟩ => ?_
        have sub := tail.trans (suffix_of_eat? eaten)
        dsimp only
        split
        · exact ⟨List.suffix_refl left, named_root fullName, shorter.later (sub.trans later)⟩
        · exact nested sub full fullName
    · split
      · exact ⟨List.suffix_refl after, named_root full, shorter.later later⟩
      · exact nested (List.suffix_refl after) (by decide) full

/-- An extension takes the module from its parentheses. -/
theorem settles_readExtension (h : Within text depth cs) (front : extensionFront ++ cs <:+ text) :
    Settles cs (fun t _ => t.Throughout (Named text)) (readExtension read cs) := by
  refine (settles_readUpTo ')' cs).bind fun module rest behind named => ?_
  refine (settles_expect [':'] rest).bind fun _ after later colon => ?_
  refine (reads after (h.later (later.trans behind))).bind fun t last _ typed => ?_
  obtain ⟨own, outer, arguments⟩ := throughout_iff.mp typed.1
  refine ⟨List.suffix_refl last, throughout_iff.mpr ⟨⟨own.name, fun empty => ?_⟩, outer, arguments⟩⟩
  have nothing : module = [] := by simpa using congrArg String.toList empty
  have whole : extensionFront ++ cs = emptyExtension ++ after := by
    rw [named, colon, nothing, emptyExtension, List.append_assoc]
    rfl
  exact (whole ▸ List.prefix_append emptyExtension after).isInfix.trans front.isInfix

theorem settles_readWord (h : Within text (depth + 1) cs) :
    Settles cs (Typed text cs) (readWord read cs) := by
  -- what is read up to a delimiter is dropped
  have upTo {rest : List Char} (s : Shorter rest cs) (delimiter : Char) :
      Settles cs (Typed text cs) (readUpTo delimiter rest >>= fun found => read found.2) :=
    Settles.behind ((settles_readUpTo delimiter rest).bind fun _ after behind _ =>
      (reads after (h.shorter (s.later behind))).mono fun _ _ _ typed =>
        ⟨typed.1, typed.2.before (behind.trans s.suffix)⟩) s.suffix
  unfold readWord
  split
  · next rest eaten => exact upTo (.of_eat? eaten) '>'
  split
  · next rest eaten => exact reads.behind h (.of_eat? eaten)
  split
  · next rest eaten =>
      split
      · next quoted opened =>
          exact upTo ((Shorter.of_eat? opened).before (suffix_of_eat? eaten)) '"'
      · exact reads.behind h (.of_eat? eaten)
  split
  · next rest eaten =>
      have shorter := Shorter.of_eat? eaten
      exact (settles_readFunction reads (h.shorter shorter)).typed shorter
  split
  · next rest eaten =>
      have shorter := Shorter.of_eat? eaten
      exact (settles_readTraitObject reads (h.shorter shorter)).typed shorter
  · exact settles_readPath reads h

theorem settles_readTypeWith (h : Within text (depth + 1) cs) :
    Settles cs (Typed text cs) (readTypeWith read cs) := by
  have spaces := suffix_skipSpaces cs
  have within := h.later spaces
  unfold readTypeWith
  refine (Settles.behind ?_ spaces : Settles cs (Typed text cs) _)
  refine Settles.mono (P := Typed text (skipSpaces cs)) ?_ fun _ _ _ typed =>
    ⟨typed.1, typed.2.before spaces⟩
  dsimp only
  split
  · next rest eaten =>
      have shorter := Shorter.of_eat? eaten
      have front : extensionFront ++ rest <:+ text := eq_of_eat? eaten ▸ within.inside
      exact (settles_readExtension reads (within.shorter shorter) front).typed shorter
  · generalize skipSpaces cs = cs at within ⊢
    split
    · next rest =>
        have shorter : Shorter rest ('(' :: ')' :: rest) := (Shorter.tail ')' rest).before
          (List.suffix_cons _ _)
        exact ⟨shorter.suffix, named_root (by decide), shorter⟩
    · next rest _ =>
        exact (settles_readTuple reads (within.shorter (.tail _ rest))).typed (.tail _ rest)
    · next rest =>
        exact (settles_readArray reads (within.shorter (.tail _ rest))).typed (.tail _ rest)
    · next rest =>
        have tail := (suffix_eatOptional ['m', 'u', 't', ' '] (skipLifetime rest)).trans
          (suffix_skipLifetime rest)
        exact reads.behind within ((Shorter.tail '&' rest).later tail)
    · next rest =>
        split
        · next after eaten =>
            exact reads.behind within ((Shorter.tail '*' rest).later (suffix_of_eat? eaten))
        · split
          · next after eaten =>
              exact reads.behind within ((Shorter.tail '*' rest).later (suffix_of_eat? eaten))
          · exact ⟨List.suffix_refl _, nofun⟩
    · exact settles_readWord reads within

end

theorem readsTypes (text : List Char) (depth : Nat) : ReadsTypes text depth (readType depth) := by
  induction depth with
  | zero => exact fun cs h => absurd h.fits (Nat.not_lt_zero _)
  | succ depth ih => exact fun cs h => settles_readTypeWith ih h

/-- A whole text that names a type has it in front. -/
theorem readType_of_parse {input : String} {t : Identity} (h : parse input = .ok t) :
    ∃ rest, readType (input.toList.length + 1) input.toList = .ok (t, rest) := by
  unfold parse readAll at h
  dsimp only at h
  cases front : readType (input.toList.length + 1) input.toList with
  | error fault => simp [front, bind, Except.bind] at h
  | ok read =>
      obtain ⟨first, rest⟩ := read
      refine ⟨rest, ?_⟩
      simp only [front, bind, Except.bind] at h
      by_cases whole : (skipSpaces rest).isEmpty
      · simp only [whole, if_true, Except.ok.injEq] at h
        rw [h]
      · simp [whole] at h

/-- In whatever a text names, no name is empty, and a module is empty only if the text extends the
empty module. -/
theorem parse_named {input : String} {t : Identity} (h : parse input = .ok t) :
    t.Throughout (Named input.toList) := by
  obtain ⟨rest, read⟩ := readType_of_parse h
  have settled := readsTypes input.toList (input.toList.length + 1) input.toList
    ⟨List.suffix_refl _, Nat.lt_succ_self _⟩
  rw [read] at settled
  exact settled.2.1

namespace Extended

/-- A type of one module that is extended in another, inside a tuple. -/
def drawer : Identity :=
  coloned rootModule "Tuple"
    [.type ⟨"shop", some ⟨"store", none, "Chest", [], .dotted⟩, "Drawer", [.length 3], .dotted⟩]

/-- The extended type takes the other module, and the one that it is nested in keeps its own. -/
theorem parse_named_drawer :
    parse "((extension in shop):store.Chest.Drawer<3>,)" = .ok drawer ∧
      drawer.Throughout (Named "((extension in shop):store.Chest.Drawer<3>,)".toList) := by
  have reads : parse "((extension in shop):store.Chest.Drawer<3>,)" = .ok drawer := by rfl
  exact ⟨reads, parse_named reads⟩

/-- The parentheses of an extension may hold nothing, and then the type has no module. -/
theorem module_lost : ∃ t, parse "(extension in ):Store" = .ok t ∧
    ¬ t.Throughout fun s => s.module ≠ "" ∧ s.name ≠ "" :=
  ⟨⟨"", none, "Store", [], .coloned⟩, by rfl, fun named => (named _ (.self _)).1 rfl⟩

end Extended

end Identity
end ApiAtlas
