import ApiAtlas.Identity.Parser

/-!
# Canonical identities

The reader of type names inverts their writer on the canonical identities: those whose modules and
names are words, whose chain of enclosing types stays within one module and one style, and whose
arguments are canonical or lengths. Nothing is claimed of other identities: some, such as a reserved
name of the root module with arguments, are read back as another one.
-/
namespace ApiAtlas.Identity

open Decimal (NumeralError isDigit digits readBelow wordBound)

/-! ## Words and what ends them -/

def isWordChar (c : Char) : Bool := c.isAlphanum || c = '_'

/-- A word: ASCII letters, digits and underscores, no digit in front, and not the keyword of a
binder. -/
structure IsWord (s : String) : Prop where
  nonempty : s.toList ≠ []
  chars : s.toList.all isWordChar
  front : s.toList.head?.all fun c => !isDigit c
  binder : s ≠ "for"

instance (s : String) : Decidable (IsWord s) :=
  decidable_of_iff (s.toList ≠ [] ∧ s.toList.all isWordChar ∧
      (s.toList.head?.all fun c => !isDigit c) ∧ s ≠ "for")
    ⟨fun ⟨nonempty, chars, front, binder⟩ => ⟨nonempty, chars, front, binder⟩,
      fun h => ⟨h.nonempty, h.chars, h.front, h.binder⟩⟩

/-- The characters that may stand behind a word of a written name. -/
def nameEnds : List Char := ['.', ':', '<', ',', '>']

/-- The characters that may stand behind a word wherever a type stands. -/
def wordEnds : List Char := nameEnds ++ [';', ')', ']']

/-- Nothing follows, or one of some characters does. -/
def Follows (ends rest : List Char) : Prop := ∀ c ∈ rest.head?, c ∈ ends

theorem follows_nil {ends : List Char} : Follows ends [] := by simp [Follows]

theorem follows_cons {ends rest : List Char} {c : Char} (h : c ∈ ends) :
    Follows ends (c :: rest) := by
  simpa [Follows] using h

theorem Follows.mono {ends more rest : List Char} (h : Follows ends rest)
    (sub : ends.all more.contains) : Follows more rest :=
  fun c hc => by simpa using List.all_eq_true.mp sub c (h c hc)

/-- No token is eaten that starts with a character which may not follow. -/
theorem Follows.eat?_none {ends rest : List Char} (h : Follows ends rest) {c : Char}
    (other : ends.contains c = false) (token : List Char) : eat? (c :: token) rest = none := by
  cases rest with
  | nil => rfl
  | cons d rest =>
      have hne : c ≠ d := by
        rintro rfl
        simp [h c rfl] at other
      simp [eat?, hne]

theorem isWordChar_ends {c : Char} (h : c ∈ segmentEnds) : isWordChar c = false := by
  have all : segmentEnds.all fun c => !isWordChar c := by decide
  simpa using List.all_eq_true.mp all c h

theorem isDigit_ends {c : Char} (h : c ∈ segmentEnds) : isDigit c = false := by
  have all : segmentEnds.all fun c => !isDigit c := by decide
  simpa using List.all_eq_true.mp all c h

/-- No character that ends a segment stands in a word. -/
theorem segmentEnds_word {c : Char} (h : isWordChar c) : segmentEnds.contains c = false := by
  rw [List.contains_eq_mem, decide_eq_false_iff_not]
  intro hc
  simp [isWordChar_ends hc] at h

/-- The run of characters at the front that satisfy a predicate, if what follows does not. -/
theorem takeWhile_run {p : Char → Bool} {run rest : List Char} (all : ∀ c ∈ run, p c)
    (stops : ∀ c ∈ rest.head?, p c = false) : (run ++ rest).takeWhile p = run := by
  rw [List.takeWhile_append_of_pos all]
  cases rest with
  | nil => simp
  | cons c rest => simp [stops c rfl]

theorem dropWhile_run {p : Char → Bool} {run rest : List Char} (all : ∀ c ∈ run, p c)
    (stops : ∀ c ∈ rest.head?, p c = false) : (run ++ rest).dropWhile p = rest := by
  rw [List.dropWhile_append_of_pos all]
  cases rest with
  | nil => rfl
  | cons c rest => simp [stops c rfl]

theorem skipSpaces_cons {c : Char} {rest : List Char} (h : c ≠ ' ') :
    skipSpaces (c :: rest) = c :: rest := by
  simp [skipSpaces, h]

@[simp] theorem eat?_append (token rest : List Char) : eat? token (token ++ rest) = some rest := by
  induction token with
  | nil => rfl
  | cons t token ih => simpa [eat?] using ih

/-- No character that ends a segment stands in a text. -/
def isPlain (cs : List Char) : Bool := cs.all fun c => !segmentEnds.contains c

theorem isPlain_word {cs : List Char} (h : cs.all isWordChar) : isPlain cs :=
  List.all_eq_true.mpr fun c hc => by rw [segmentEnds_word (List.all_eq_true.mp h c hc)]; rfl

theorem isPlain_cons {c : Char} {cs : List Char} (h : isPlain (c :: cs)) :
    c ∉ segmentEnds ∧ isPlain cs := by
  simpa [isPlain] using h

/-- A keyword and the character behind it stand in front of a plain text only if they are this text
and what follows it. -/
theorem eat?_plain {keyword word rest : List Char} {c : Char} (hk : isPlain keyword)
    (hw : isPlain word) (hc : c ∈ segmentEnds) (ends : Follows segmentEnds rest)
    (other : word ≠ keyword ∨ c ∉ rest.head?) : eat? (keyword ++ [c]) (word ++ rest) = none := by
  induction keyword generalizing word with
  | nil =>
      cases word with
      | nil =>
          cases rest with
          | nil => rfl
          | cons r rest =>
              have hne : c ≠ r := fun h => other.elim (· rfl) (· (h ▸ rfl))
              simp [eat?, hne]
      | cons a word =>
          have hne : c ≠ a := fun h => (isPlain_cons hw).1 (h ▸ hc)
          simp [eat?, hne]
  | cons k keyword ih =>
      cases word with
      | nil =>
          cases rest with
          | nil => rfl
          | cons r rest =>
              have hne : k ≠ r := fun h => (isPlain_cons hk).1 (h ▸ ends r rfl)
              simp [eat?, hne]
      | cons a word =>
          simp only [List.cons_append, eat?]
          split
          · next same =>
              exact ih (isPlain_cons hk).2 (isPlain_cons hw).2
                (other.imp_left fun h same' => h (by rw [same, same']))
          · rfl

variable {s : String} {rest : List Char}

/-- A word has a first character, which starts no other form of a type. -/
theorem IsWord.cons (h : IsWord s) :
    ∃ c cs, s.toList = c :: cs ∧ isWordChar c = true ∧ isDigit c = false := by
  obtain ⟨c, cs, eq⟩ := List.exists_cons_of_ne_nil h.nonempty
  exact ⟨c, cs, eq, List.all_eq_true.mp h.chars c (by simp [eq]), by simpa [eq] using h.front⟩

/-- A name that a path takes for one segment: a run of characters that do not end one. No raw
pointer starts like it. -/
structure IsSegment (s : String) : Prop where
  nonempty : s.toList ≠ []
  chars : isPlain s.toList
  front : s.toList.head? ≠ some '*'

instance (s : String) : Decidable (IsSegment s) :=
  decidable_of_iff (s.toList ≠ [] ∧ isPlain s.toList ∧ s.toList.head? ≠ some '*')
    ⟨fun ⟨nonempty, chars, front⟩ => ⟨nonempty, chars, front⟩,
      fun h => ⟨h.nonempty, h.chars, h.front⟩⟩

theorem IsWord.isSegment (h : IsWord s) : IsSegment s where
  nonempty := h.nonempty
  chars := isPlain_word h.chars
  front := by
    obtain ⟨c, cs, eq, word, -⟩ := h.cons
    rw [eq, List.head?_cons, Ne, Option.some.injEq]
    rintro rfl
    exact absurd word (by decide)

/-- A segment has a first character, which starts no other form of a type. -/
theorem IsSegment.cons (h : IsSegment s) :
    ∃ c cs, s.toList = c :: cs ∧ c ∉ segmentEnds ∧ c ≠ '*' := by
  obtain ⟨c, cs, eq⟩ := List.exists_cons_of_ne_nil h.nonempty
  exact ⟨c, cs, eq, (isPlain_cons (eq ▸ h.chars)).1, by simpa [eq] using h.front⟩

/-- A text is read as a segment, wherever the segment ends behind it. -/
def ReadsSegment (s : String) : Prop :=
  ∀ rest, Follows segmentEnds rest → readSegment (s.toList ++ rest) = .ok (s, rest)

theorem IsSegment.readsSegment (h : IsSegment s) : ReadsSegment s := by
  intro rest ends
  obtain ⟨c, cs, eq, inside, -⟩ := h.cons
  have other {d : Char} (hd : d ∈ segmentEnds) : d ≠ c := fun same => inside (same ▸ hd)
  have noContext : eat? unknownContext (s.toList ++ rest) = none := by
    simp [eq, unknownContext, eat?, other (show '(' ∈ segmentEnds by decide)]
  have run : (s.toList ++ rest).takeWhile (fun c => !segmentEnds.contains c) = s.toList :=
    takeWhile_run (List.all_eq_true.mp h.chars) fun a ha => by simpa using ends a ha
  have plain : readPlainSegment (s.toList ++ rest) = .ok (s, rest) := by
    unfold readPlainSegment
    split
    · next bracket =>
        rw [eq, List.cons_append, List.cons.injEq] at bracket
        exact absurd bracket.1.symm (other (by decide))
    · rw [run]
      simp [h.nonempty]
  simp [readSegment, noContext, plain]

theorem readSegment_word (h : IsWord s) (ends : Follows segmentEnds rest) :
    readSegment (s.toList ++ rest) = .ok (s, rest) :=
  h.isSegment.readsSegment rest ends

/-! ## Modules -/

/-- Segments as they stand behind the first one of a path. -/
def furtherText (segments : List String) : List Char :=
  segments.flatMap fun segment => ':' :: ':' :: segment.toList

theorem toList_intercalate_coloned (first : String) (further : List String) :
    ("::".intercalate (first :: further)).toList = first.toList ++ furtherText further := by
  rw [String.toList_intercalate, List.map_cons]
  induction further generalizing first with
  | nil => simp [furtherText]
  | cons second further ih =>
      rw [List.map_cons, List.intercalate_cons_cons, ih]
      simp [furtherText]

/-- The characters that may stand behind a type. -/
def typeEnds : List Char := [',', '>', ';', ')', ']']

/-- The characters that may stand behind a path with its arguments. -/
def boundEnds : List Char := ' ' :: typeEnds

/-- The characters that may stand behind the last name of a path. -/
def pathEnds : List Char := '.' :: '<' :: boundEnds

theorem Follows.furtherText {ends : List Char} (h : Follows ends rest) (colon : ':' ∈ ends)
    (segments : List String) : Follows ends (furtherText segments ++ rest) := by
  cases segments with
  | nil => exact h
  | cons _ _ => exact follows_cons colon

/-- Nothing is read as a further segment where no colon stands. -/
theorem readFurtherSegments_none (ends : Follows pathEnds rest) (steps : Nat) :
    readFurtherSegments (steps + 1) rest = .ok ([], rest) := by
  have noColon : eat? [':', ':'] rest = none := ends.eat?_none (by decide) _
  simp [readFurtherSegments, noColon]

/-- Segments behind double colons are read one by one, and then what follows them. -/
theorem readFurtherSegments_append {segments more : List String} {cs : List Char} {steps : Nat}
    (reads : ∀ s ∈ segments, ReadsSegment s) (ends : Follows segmentEnds cs)
    (run : readFurtherSegments steps cs = .ok (more, rest)) :
    readFurtherSegments (segments.length + steps) (furtherText segments ++ cs) =
      .ok (segments ++ more, rest) := by
  induction segments with
  | nil => simpa [furtherText] using run
  | cons s segments ih =>
      have text : furtherText (s :: segments) ++ cs =
          [':', ':'] ++ (s.toList ++ (furtherText segments ++ cs)) := by
        simp [furtherText]
      have count : (s :: segments).length + steps = segments.length + steps + 1 := by simp; omega
      have tail := ih fun s hs => reads s (by simp [hs])
      rw [text, count, readFurtherSegments, eat?_append]
      simp [reads s (by simp) _ (ends.furtherText (by decide) segments), bind, Except.bind, tail]

/-- Segments behind double colons are read up to the end of their path. -/
theorem readFurtherSegments_all {segments : List String}
    (reads : ∀ s ∈ segments, ReadsSegment s) (ends : Follows pathEnds rest) {steps : Nat}
    (enough : segments.length < steps) :
    readFurtherSegments steps (furtherText segments ++ rest) = .ok (segments, rest) := by
  obtain ⟨more, rfl⟩ : ∃ n, steps = segments.length + (n + 1) :=
    ⟨steps - segments.length - 1, by omega⟩
  have all := readFurtherSegments_append reads (ends.mono (by decide))
    (readFurtherSegments_none ends more)
  rwa [List.append_nil] at all

/-! ## Arguments -/

variable {read : Read Identity}

/-- An argument is read from its text, wherever the list goes on or closes behind it. A lifetime is
read and dropped. -/
structure ReadsItem (read : Read Identity) (text : List Char)
    (value : Option Parameter) : Prop where
  front : ∃ c cs, text = c :: cs ∧ c ≠ ' ' ∧ c ≠ '>'
  back : ∀ rest, Follows [',', '>'] rest → readGeneric read (text ++ rest) = .ok (value, rest)

/-- An argument is read from its written form. -/
abbrev ReadsArgument (read : Read Identity) (p : Parameter) : Prop :=
  ReadsItem read (parameterName .full p).toList (some p)

theorem readLength_digits (value : UInt64) (stops : ∀ c ∈ rest.head?, isDigit c = false) :
    readLength (digits value.toNat ++ rest) = .ok (.length value, rest) := by
  have all := Decimal.all_isDigit_digits value.toNat
  have below : readBelow wordBound (digits value.toNat) = .ok value.toNat := by
    simp [readBelow, Decimal.digits_ne_nil, Decimal.valueOf_digits, wordBound, value.toNat_lt]
  simp [readLength, takeWhile_run all stops, dropWhile_run all stops, below]

theorem readsItem_digits (read : Read Identity) (value : UInt64) :
    ReadsItem read (digits value.toNat) (some (.length value)) := by
  obtain ⟨c, cs, eq⟩ := List.exists_cons_of_ne_nil (Decimal.digits_ne_nil value.toNat)
  have digit : isDigit c = true := Decimal.all_isDigit_digits value.toNat c (by simp [eq])
  refine ⟨⟨c, cs, eq, ?_, ?_⟩, fun rest ends => ?_⟩
  · rintro rfl; exact absurd digit (by decide)
  · rintro rfl; exact absurd digit (by decide)
  · have stops : ∀ c ∈ rest.head?, isDigit c = false :=
      fun c hc => isDigit_ends ((ends.mono (by decide) : Follows segmentEnds rest) c hc)
    have number := readLength_digits value stops
    have noLifetime : c ≠ '\'' := by rintro rfl; exact absurd digit (by decide)
    rw [eq, List.cons_append] at number ⊢
    rw [readGeneric]
    · simp [digit, number, bind, Except.bind]
    · exact noLifetime

/-- A length is read from its numeral. -/
theorem readsArgument_length (read : Read Identity) (value : UInt64) :
    ReadsArgument read (.length value) := by
  have text : (parameterName .full (.length value)).toList = digits value.toNat := by
    simp [Parameter.length, parameterName, Decimal.numeral]
  show ReadsItem read _ _
  rw [text]
  exact readsItem_digits read value

theorem typeNames_eq_map (parts : NameParts) (ps : List Parameter) :
    typeNames parts ps = ps.map (parameterName parts) := by
  induction ps with
  | nil => rfl
  | cons p ps ih => simp [typeNames, ih]

/-- Texts with a comma and a space between them. -/
def separated (texts : List (List Char)) : List Char := [',', ' '].intercalate texts

theorem separated_cons_cons (a b : List Char) (rest : List (List Char)) :
    separated (a :: b :: rest) = a ++ ',' :: ' ' :: separated (b :: rest) := by
  simp [separated]

/-- A list starts as its first text does. -/
theorem separated_front {P : Char → Prop} {a : List Char} (h : ∃ c cs, a = c :: cs ∧ P c)
    (rest : List (List Char)) : ∃ c cs, separated (a :: rest) = c :: cs ∧ P c := by
  obtain ⟨c, cs, rfl, hc⟩ := h
  cases rest with
  | nil => exact ⟨c, cs, by simp [separated], hc⟩
  | cons b rest => exact ⟨c, _, by rw [separated_cons_cons, List.cons_append], hc⟩

theorem length_le_separated {text : List Char} {texts : List (List Char)}
    (h : text ∈ texts) :
    text.length ≤ (separated texts).length := by
  induction texts with
  | nil => simp at h
  | cons a texts ih =>
      cases texts with
      | nil =>
          obtain rfl := List.mem_singleton.1 h
          simp [separated]
      | cons b texts =>
          rw [separated_cons_cons]
          rcases List.mem_cons.1 h with rfl | h
          · simp
          · have := ih h
            simp
            omega

section
variable {text cs : List Char} {value : Option Parameter}

/-- The last argument of a list, up to the bracket. -/
theorem readGenerics_last (reads : ReadsItem read text value)
    (here : skipSpaces cs = text ++ '>' :: rest) (steps : Nat) :
    readGenerics read (steps + 1) cs = .ok (value.toList, rest) := by
  obtain ⟨⟨c, front, eq, -, noClose⟩, back⟩ := reads
  have opens : eat? ['>'] (skipSpaces cs) = none := by simp [here, eq, eat?, noClose.symm]
  have argument : readGeneric read (skipSpaces cs) = .ok (value, '>' :: rest) := by
    rw [here]
    exact back _ (follows_cons (by decide))
  simp [readGenerics, opens, argument, bind, Except.bind, skipSpaces_cons, eat?, expect]

/-- An argument in front of others. -/
theorem readGenerics_more (reads : ReadsItem read text value) {after : List Char}
    (here : skipSpaces cs = text ++ ',' :: after) {steps : Nat} {ps : List Parameter}
    (more : readGenerics read steps after = .ok (ps, rest)) :
    readGenerics read (steps + 1) cs = .ok (value.toList ++ ps, rest) := by
  obtain ⟨⟨c, front, eq, -, noClose⟩, back⟩ := reads
  have opens : eat? ['>'] (skipSpaces cs) = none := by simp [here, eq, eat?, noClose.symm]
  have argument : readGeneric read (skipSpaces cs) = .ok (value, ',' :: after) := by
    rw [here]
    exact back _ (follows_cons (by decide))
  simp [readGenerics, opens, argument, bind, Except.bind, skipSpaces_cons, eat?, more]

end

/-- A list of arguments is read back, with spaces in front of it or without. -/
theorem readGenerics_items {item : List Char × Option Parameter}
    {items : List (List Char × Option Parameter)}
    (reads : ∀ i ∈ item :: items, ReadsItem read i.1 i.2) {cs : List Char}
    (here : skipSpaces cs = separated ((item :: items).map Prod.fst) ++ '>' :: rest) {steps : Nat}
    (enough : cs.length ≤ steps) :
    readGenerics read steps cs = .ok ((item :: items).flatMap (·.2.toList), rest) := by
  have shorter : (skipSpaces cs).length ≤ cs.length := (List.dropWhile_sublist _).length_le
  obtain ⟨steps, rfl⟩ : ∃ n, steps = n + 1 := ⟨steps - 1, by simp [here] at shorter; omega⟩
  induction items generalizing item cs steps with
  | nil =>
      have last := readGenerics_last (reads item (by simp))
        (by simpa [separated] using here) steps
      simpa using last
  | cons second items ih =>
      simp only [List.map_cons, separated_cons_cons, List.append_assoc, List.cons_append] at here
      obtain ⟨c, front, eq, noSpace, -⟩ := (reads second (by simp)).front
      obtain ⟨d, behind, eq', noSpace'⟩ := separated_front (P := (· ≠ ' '))
        ⟨c, front, eq, noSpace⟩ (items.map Prod.fst)
      have next : skipSpaces (' ' :: (separated (second.1 :: items.map Prod.fst) ++ '>' :: rest)) =
          separated ((second :: items).map Prod.fst) ++ '>' :: rest := by
        simp [skipSpaces, eq', noSpace']
      have left : (separated (second.1 :: items.map Prod.fst) ++ '>' :: rest).length + 2 ≤
          steps + 1 := by
        have := congrArg List.length here
        simp at this ⊢
        omega
      obtain ⟨steps, rfl⟩ : ∃ n, steps = n + 1 := ⟨steps - 1, by simp at left; omega⟩
      have more := ih (fun i hi => reads i (by simp_all)) next
        (List.dropWhile_sublist _).length_le steps (by simpa using left)
      exact readGenerics_more (reads item (by simp)) here more

/-! ## Canonical identities -/

/-- The modules of a style: words behind one another, or one word that does not name the root
module. -/
def IsModule : PathStyle → String → Prop
  | .coloned, module => ∃ first further,
      (∀ s ∈ first :: further, IsWord s) ∧ module = "::".intercalate (first :: further)
  | .dotted, module => IsWord module ∧ module ≠ rootModule

/-- Identities of words. A chain of enclosing types stays outside the root module, and a reserved
name stands where it is not taken for the whole type. -/
inductive Canonical : Identity → Prop
  | mk {module name : String} {parent : Option Identity} {parameters : List Parameter}
      {style : PathStyle} (allowed : IsModule style module) (word : IsWord name)
      (outer : ∀ p, parent = some p → Canonical p)
      (shared : ∀ p ∈ parent, p.module = module ∧ p.style = style ∧ module ≠ rootModule)
      (types : ∀ t, .type t ∈ parameters → Canonical t)
      (lengths : ∀ label value type, .literal label value type ∈ parameters →
        label = none ∧ type = Parameter.lengthType)
      (bare : style = .coloned → module = rootModule → isReserved name → parameters = [])
      (spelled : style = .dotted → module = standardModule → ¬ isReserved name) :
      Canonical ⟨module, parent, name, parameters, style⟩

/-- The module of a name and what joins it to the rest. -/
def moduleText (module : String) (style : PathStyle) : List Char :=
  if module = rootModule then [] else module.toList ++ style.separator.toList

/-- Texts in angle brackets; nothing is written for none. -/
def bracketed (texts : List (List Char)) : List Char :=
  if texts.isEmpty then [] else '<' :: (separated texts ++ ['>'])

/-- Where a bracket may follow, a list in brackets may, or what stands behind an empty one. -/
theorem Follows.bracketed {ends rest : List Char} (h : Follows ends rest) (list : '<' ∈ ends)
    (texts : List (List Char)) : Follows ends (bracketed texts ++ rest) := by
  cases texts with
  | nil => exact h
  | cons a texts => exact follows_cons list

theorem length_lt_bracketed {text : List Char} {texts : List (List Char)}
    (h : text ∈ texts) :
    text.length < (bracketed texts).length := by
  have := length_le_separated h
  cases texts with
  | nil => simp at h
  | cons a texts =>
      simp only [bracketed, List.isEmpty_cons, Bool.false_eq_true, if_false, List.length_cons,
        List.length_append]
      omega

/-- Arguments with their brackets. -/
def argumentsText (ps : List Parameter) : List Char :=
  (angled (ps.map (parameterName .full))).toList

theorem argumentsText_eq (ps : List Parameter) :
    argumentsText ps = bracketed (ps.map fun p => (parameterName .full p).toList) := by
  cases ps <;> simp [argumentsText, angled, bracketed, separated, Function.comp_def]

theorem Follows.arguments {ends rest : List Char} (h : Follows ends rest) (list : '<' ∈ ends)
    (ps : List Parameter) : Follows ends (argumentsText ps ++ rest) :=
  argumentsText_eq ps ▸ h.bracketed list _

/-- The written name of a type that is not nested. -/
theorem fullName_none (module name : String) (parameters : List Parameter) (style : PathStyle) :
    (fullName ⟨module, none, name, parameters, style⟩).toList =
      moduleText module style ++ name.toList ++ argumentsText parameters := by
  by_cases root : module = rootModule <;>
    simp [fullName, typeName, parentName, typeNames_eq_map, NameParts.full, moduleText,
      argumentsText, root]

/-- The written name of a nested type goes on behind that of the enclosing type. -/
theorem fullName_some (module name : String) (p : Identity) (parameters : List Parameter)
    (style : PathStyle) :
    (fullName ⟨module, some p, name, parameters, style⟩).toList =
      p.fullName.toList ++ '.' :: (name.toList ++ argumentsText parameters) := by
  simp [fullName, typeName, parentName, typeNames_eq_map, NameParts.full, argumentsText]

/-- Where the names of an identity start: the outermost one, and the text behind it. -/
structure Starts (t : Identity) (first : String) (tail : List Char) : Prop where
  module : IsModule t.style t.module
  text : t.fullName.toList = moduleText t.module t.style ++ first.toList ++ tail
  word : IsWord first
  ends : Follows ['.', '<'] tail
  rooted : t.style = .coloned → t.module = rootModule →
    Follows ['<'] tail ∧ (isReserved first → tail = [] ∧ t = root first)
  spelled : t.style = .dotted → t.module = standardModule → ¬ isReserved first

/-- The reader goes from the outermost name of an identity to all of it. -/
def Nests (read : Read Identity) (t : Identity) (first : String) (tail : List Char) : Prop :=
  ∃ k ≤ tail.length, ∀ steps rest, Follows nameEnds rest →
    readNested read (k + steps) ⟨t.module, none, first, [], t.style⟩ (tail ++ rest) =
      readNested read steps t rest

/-- An identity is read back from its written name, wherever a list goes on or closes behind it. -/
def ReadsBack (t : Identity) : Prop :=
  ∀ depth rest, t.fullName.toList.length < depth → Follows [',', '>'] rest →
    readType depth (t.fullName.toList ++ rest) = .ok (t, rest)

theorem readNested_name {name : String} (word : IsWord name) (t : Identity) (steps : Nat)
    (ends : Follows nameEnds rest) :
    readNested read (steps + 1) t ('.' :: (name.toList ++ rest)) =
      readNested read steps ⟨t.module, some t, name, [], t.style⟩ rest := by
  simp [readNested, eat?, readSegment_word word (ends.mono (by decide)), bind, Except.bind]

/-- The arguments behind a name are read in one step, or there are none. -/
theorem nests_items {items : List (List Char × Option Parameter)}
    (reads : ∀ i ∈ items, ReadsItem read i.1 i.2) (module : String) (parent : Option Identity)
    (name : String) (style : PathStyle) :
    ∃ k ≤ (bracketed (items.map Prod.fst)).length, ∀ steps rest,
      readNested read (k + steps) ⟨module, parent, name, [], style⟩
          (bracketed (items.map Prod.fst) ++ rest) =
        readNested read steps ⟨module, parent, name, items.flatMap (·.2.toList), style⟩ rest := by
  cases items with
  | nil => exact ⟨0, by simp, fun steps rest => by simp [bracketed]⟩
  | cons item items =>
      refine ⟨1, by simp [bracketed], fun steps rest => ?_⟩
      obtain ⟨c, front, eq, noSpace, -⟩ := (reads item (by simp)).front
      obtain ⟨d, behind, eq', noSpace'⟩ := separated_front (P := (· ≠ ' '))
        ⟨c, front, eq, noSpace⟩ (items.map Prod.fst)
      have here : skipSpaces (separated ((item :: items).map Prod.fst) ++ '>' :: rest) =
          separated ((item :: items).map Prod.fst) ++ '>' :: rest := by
        simp [skipSpaces, eq', noSpace']
      have list := readGenerics_items reads here (Nat.le_add_right _ 1)
      have text : bracketed ((item :: items).map Prod.fst) ++ rest =
          '<' :: (separated ((item :: items).map Prod.fst) ++ '>' :: rest) := by
        simp [bracketed]
      rw [text, Nat.add_comm]
      simp only [readNested, eat?, if_pos, list, bind, Except.bind]

theorem nests_arguments {ps : List Parameter} (reads : ∀ p ∈ ps, ReadsArgument read p)
    (module : String) (parent : Option Identity) (name : String) (style : PathStyle) :
    ∃ k ≤ (argumentsText ps).length, ∀ steps rest,
      readNested read (k + steps) ⟨module, parent, name, [], style⟩ (argumentsText ps ++ rest) =
        readNested read steps ⟨module, parent, name, ps, style⟩ rest := by
  let item (q : Parameter) : List Char × Option Parameter :=
    ((parameterName .full q).toList, some q)
  have all : ∀ i ∈ ps.map item, ReadsItem read i.1 i.2 := by
    simpa [item] using reads
  have items := nests_items all module parent name style
  simpa [item, argumentsText_eq, Function.comp_def, List.flatMap_map] using items

/-- Nothing is nested in a type where it ends. -/
theorem readNested_end (t : Identity) (steps : Nat) (ends : Follows boundEnds rest) :
    readNested read (steps + 1) t rest = .ok (t, rest) := by
  have noList : eat? ['<'] rest = none := ends.eat?_none (by decide) _
  have noDot : eat? ['.'] rest = none := ends.eat?_none (by decide) _
  simp [readNested, noList, noDot]

variable {t p : Identity} {first : String} {tail : List Char}

theorem starts_none {module name : String} {style : PathStyle} {ps : List Parameter}
    (allowed : IsModule style module) (word : IsWord name)
    (bare : style = .coloned → module = rootModule → isReserved name → ps = [])
    (spelled : style = .dotted → module = standardModule → ¬ isReserved name) :
    Starts ⟨module, none, name, ps, style⟩ name (argumentsText ps) where
  module := allowed
  text := fullName_none module name ps style
  word := word
  ends := by simpa using follows_nil.arguments (by decide) ps
  rooted := by
    rintro rfl rfl
    constructor
    · simpa using follows_nil.arguments (by decide) ps
    · intro reserved
      obtain rfl := bare rfl rfl reserved
      exact ⟨rfl, rfl⟩
  spelled := spelled

theorem Starts.nested (h : Starts p first tail) (other : p.module ≠ rootModule) (name : String)
    (ps : List Parameter) :
    Starts ⟨p.module, some p, name, ps, p.style⟩ first
      (tail ++ '.' :: (name.toList ++ argumentsText ps)) where
  module := h.module
  text := by simp [fullName_some, h.text]
  word := h.word
  ends := by
    cases tail with
    | nil => exact follows_cons (by decide)
    | cons c cs => exact follows_cons (h.ends c rfl)
  rooted := fun _ root => absurd root other
  spelled := h.spelled

theorem nests_none {module name : String} {style : PathStyle} {ps : List Parameter}
    (reads : ∀ p ∈ ps, ReadsArgument read p) :
    Nests read ⟨module, none, name, ps, style⟩ name (argumentsText ps) := by
  obtain ⟨k, few, run⟩ := nests_arguments reads module none name style
  exact ⟨k, few, fun steps rest _ => run steps rest⟩

theorem Nests.nested (h : Nests read p first tail) {name : String} (word : IsWord name)
    {ps : List Parameter} (reads : ∀ p ∈ ps, ReadsArgument read p) :
    Nests read ⟨p.module, some p, name, ps, p.style⟩ first
      (tail ++ '.' :: (name.toList ++ argumentsText ps)) := by
  obtain ⟨k, few, run⟩ := h
  obtain ⟨l, few', run'⟩ := nests_arguments reads p.module (some p) name p.style
  refine ⟨k + 1 + l, by simp; omega, fun steps rest ends => ?_⟩
  have behind : Follows nameEnds (argumentsText ps ++ rest) := ends.arguments (by decide) ps
  calc readNested read (k + 1 + l + steps) ⟨p.module, none, first, [], p.style⟩
        (tail ++ '.' :: (name.toList ++ argumentsText ps) ++ rest)
      = readNested read (k + (l + steps + 1)) ⟨p.module, none, first, [], p.style⟩
          (tail ++ '.' :: (name.toList ++ (argumentsText ps ++ rest))) := by
        simp; congr 1; omega
    _ = readNested read (l + steps + 1) p ('.' :: (name.toList ++ (argumentsText ps ++ rest))) :=
        run _ _ (follows_cons (by decide))
    _ = readNested read (l + steps) ⟨p.module, some p, name, [], p.style⟩
          (argumentsText ps ++ rest) := readNested_name word p _ behind
    _ = readNested read steps ⟨p.module, some p, name, ps, p.style⟩ rest := run' steps rest

/-- The names behind the outermost one are read to the end of the identity. -/
theorem Nests.whole (h : Nests read t first tail) (ends : Follows [',', '>'] rest) :
    readNested read ((tail ++ rest).length + 1) ⟨t.module, none, first, [], t.style⟩
      (tail ++ rest) = .ok (t, rest) := by
  obtain ⟨k, few, run⟩ := h
  obtain ⟨n, eq⟩ : ∃ n, (tail ++ rest).length + 1 = k + (n + 1) :=
    ⟨(tail ++ rest).length - k, by simp; omega⟩
  rw [eq, run _ _ (ends.mono (by decide))]
  exact readNested_end t n (ends.mono (by decide))

/-- A type that starts with a segment is read as a path. -/
theorem readTypeWith_segment {s : String} {after : List Char} (h : IsSegment s)
    (ends : Follows wordEnds after) (binder : s ≠ "for" ∨ '<' ∉ after.head?) :
    readTypeWith read (s.toList ++ after) = readPath read (s.toList ++ after) := by
  have keyword (k : List Char) (c : Char) (hk : isPlain k) (hc : c ∈ segmentEnds)
      (other : s.toList ≠ k ∨ c ∉ after.head?) : eat? (k ++ [c]) (s.toList ++ after) = none :=
    eat?_plain hk h.chars hc (ends.mono (by decide)) other
  have never {c : Char} (hc : c ∉ wordEnds) : c ∉ after.head? := fun at_ => hc (ends c at_)
  have words : readWord read (s.toList ++ after) = readPath read (s.toList ++ after) := by
    have h₁ := keyword ['f', 'o', 'r'] '<' (by decide) (by decide)
      (binder.imp_left fun other same => other (String.toList_inj.1 (by simpa using same)))
    have h₂ := keyword ['u', 'n', 's', 'a', 'f', 'e'] ' ' (by decide) (by decide)
      (.inr (never (by decide)))
    have h₃ := keyword ['e', 'x', 't', 'e', 'r', 'n'] ' ' (by decide) (by decide)
      (.inr (never (by decide)))
    have h₄ := keyword ['f', 'n'] '(' (by decide) (by decide) (.inr (never (by decide)))
    have h₅ := keyword ['d', 'y', 'n'] ' ' (by decide) (by decide) (.inr (never (by decide)))
    simp only [List.cons_append, List.nil_append] at h₁ h₂ h₃ h₄ h₅
    simp only [readWord, h₁, h₂, h₃, h₄, h₅]
  obtain ⟨c, cs, eq, inside, noPointer⟩ := h.cons
  have other {d : Char} (hd : d ∈ segmentEnds) : d ≠ c := fun same => inside (same ▸ hd)
  have noFront : eat? extensionFront (s.toList ++ after) = none := by
    simp [eq, extensionFront, eat?, other (show '(' ∈ segmentEnds by decide)]
  have noSpace : skipSpaces (s.toList ++ after) = s.toList ++ after := by
    rw [eq, List.cons_append]
    exact skipSpaces_cons (other (by decide)).symm
  simp only [readTypeWith, noSpace, noFront]
  rw [eq, List.cons_append] at words ⊢
  split
  · next same => exact absurd (List.cons.inj same).1.symm (other (by decide))
  · next same => exact absurd (List.cons.inj same).1.symm (other (by decide))
  · next same => exact absurd (List.cons.inj same).1.symm (other (by decide))
  · next same => exact absurd (List.cons.inj same).1.symm (other (by decide))
  · next same => exact absurd (List.cons.inj same).1 noPointer
  · exact words

/-- A type that starts with a word is read as a path. -/
theorem readTypeWith_word {s : String} {after : List Char} (h : IsWord s)
    (ends : Follows wordEnds after) :
    readTypeWith read (s.toList ++ after) = readPath read (s.toList ++ after) :=
  readTypeWith_segment h.isSegment ends (.inl h.binder)

/-- What follows the outermost name of an identity ends it. -/
theorem Starts.behind (h : Starts t first tail) (ends : Follows [',', '>'] rest) :
    Follows ['.', '<', ',', '>'] (tail ++ rest) := by
  cases tail with
  | nil => exact ends.mono (by decide)
  | cons c cs => exact (follows_cons (h.ends c rfl)).mono (by decide)

/-- The text of an identity is a word and what ends it, and is read back as a path. -/
def ReadsPath (read : Read Identity) (t : Identity) (rest : List Char) : Prop :=
  ∃ s after, IsWord s ∧ Follows nameEnds after ∧ t.fullName.toList ++ rest = s.toList ++ after ∧
    readPath read (s.toList ++ after) = .ok (t, rest)

theorem length_le_furtherText (segments : List String) :
    segments.length ≤ (furtherText segments).length := by
  induction segments with
  | nil => simp
  | cons s segments ih =>
      have : (furtherText (s :: segments)).length =
          s.toList.length + 2 + (furtherText segments).length := by
        simp [furtherText]; omega
      simp only [List.length_cons]
      omega

/-- The name of a module of words is read up to the outermost name. -/
theorem readsPath_coloned (h : Starts t first tail) (style : t.style = .coloned)
    (other : t.module ≠ rootModule) (nests : Nests read t first tail)
    (ends : Follows [',', '>'] rest) : ReadsPath read t rest := by
  obtain ⟨w, ws, words, eq⟩ : IsModule .coloned t.module := style ▸ h.module
  have path : ∀ s ∈ ws ++ [first], IsWord s := by
    intro s hs
    rcases List.mem_append.1 hs with hs | hs
    · exact words s (by simp [hs])
    · exact List.mem_singleton.1 hs ▸ h.word
  have text : t.fullName.toList ++ rest =
      w.toList ++ (furtherText (ws ++ [first]) ++ (tail ++ rest)) := by
    have module : t.module.toList = w.toList ++ furtherText ws :=
      eq ▸ toList_intercalate_coloned w ws
    simp [h.text, moduleText, other, module, style, PathStyle.separator, furtherText]
  have next : Follows nameEnds (furtherText (ws ++ [first]) ++ (tail ++ rest)) := by
    cases ws <;> exact follows_cons (by decide)
  have few : (ws ++ [first]).length <
      (furtherText (ws ++ [first]) ++ (tail ++ rest)).length + 1 := by
    have := length_le_furtherText (ws ++ [first])
    simp only [List.length_append] at this ⊢
    omega
  have further := readFurtherSegments_all (fun s hs => (path s hs).isSegment.readsSegment)
    ((h.behind ends).mono (by decide)) few
  have whole := nests.whole ends
  rw [style, eq] at whole
  refine ⟨w, _, words w (by simp), next, text, ?_⟩
  simp only [readPath, readSegment_word (words w (by simp)) (next.mono (by decide)), further, bind,
    Except.bind,
    List.getLast?_concat, List.dropLast_concat, whole]

/-- A name of the root module is read without a module. -/
theorem readsPath_root (h : Starts t first tail) (style : t.style = .coloned)
    (root : t.module = rootModule) (nests : Nests read t first tail)
    (ends : Follows [',', '>'] rest) : ReadsPath read t rest := by
  obtain ⟨flat, reserved⟩ := h.rooted style root
  have text : t.fullName.toList ++ rest = first.toList ++ (tail ++ rest) := by
    simp [h.text, moduleText, root]
  have noDot : eat? ['.'] (tail ++ rest) = none := by
    have next : Follows ['<', ',', '>'] (tail ++ rest) := by
      cases tail with
      | nil => exact ends.mono (by decide)
      | cons c cs => exact (follows_cons (flat c rfl)).mono (by decide)
    exact next.eat?_none (by decide) _
  have next : Follows nameEnds (tail ++ rest) := (h.behind ends).mono (by decide)
  refine ⟨first, _, h.word, next, text, ?_⟩
  simp only [readPath, readSegment_word h.word (next.mono (by decide)),
    readFurtherSegments_none ((h.behind ends).mono (by decide)), bind,
    Except.bind, List.getLast?_nil, noDot]
  split
  · next name =>
      obtain ⟨rfl, rfl⟩ := reserved name
      rfl
  · have whole := nests.whole ends
    rwa [style, root] at whole

/-- The module of a dotted name is read up to its dot. -/
theorem readsPath_dotted (h : Starts t first tail) (style : t.style = .dotted)
    (nests : Nests read t first tail) (ends : Follows [',', '>'] rest) : ReadsPath read t rest := by
  obtain ⟨word, other⟩ : IsModule .dotted t.module := style ▸ h.module
  have text : t.fullName.toList ++ rest =
      t.module.toList ++ ('.' :: (first.toList ++ (tail ++ rest))) := by
    simp [h.text, moduleText, other, style, PathStyle.separator]
  have next : Follows nameEnds (tail ++ rest) := (h.behind ends).mono (by decide)
  have notReserved : (t.module = standardModule && isReserved first && endsName (tail ++ rest)) =
      false := by
    by_cases standard : t.module = standardModule
    · simp [h.spelled style standard]
    · simp [standard]
  have module : readSegment (t.module.toList ++ '.' :: (first.toList ++ (tail ++ rest))) = _ :=
    readSegment_word word (follows_cons (by decide))
  have further (steps : Nat) :
      readFurtherSegments (steps + 1) ('.' :: (first.toList ++ (tail ++ rest))) = _ :=
    readFurtherSegments_none (follows_cons (by decide)) steps
  have whole := nests.whole ends
  rw [style] at whole
  refine ⟨t.module, _, word, follows_cons (by decide), text, ?_⟩
  simp only [readPath, module, further, bind, Except.bind, List.getLast?_nil, eat?, if_pos,
    readSegment_word h.word (next.mono (by decide)), notReserved, whole]
  rfl

theorem Starts.readsPath (h : Starts t first tail) (nests : Nests read t first tail)
    (ends : Follows [',', '>'] rest) : ReadsPath read t rest := by
  cases style : t.style with
  | dotted => exact readsPath_dotted h style nests ends
  | coloned =>
      by_cases root : t.module = rootModule
      · exact readsPath_root h style root nests ends
      · exact readsPath_coloned h style root nests ends

/-- An identity is read back from its name if its nested names and arguments are. -/
theorem Starts.readsBack (h : Starts t first tail)
    (nests : ∀ depth, t.fullName.toList.length ≤ depth → Nests (readType depth) t first tail) :
    ReadsBack t := by
  intro depth rest enough ends
  obtain ⟨depth, rfl⟩ : ∃ n, depth = n + 1 := ⟨depth - 1, by omega⟩
  obtain ⟨s, after, word, next, text, run⟩ := h.readsPath (nests depth (by omega)) ends
  rw [readType, text, readTypeWith_word word (next.mono (by decide)), run]

/-- An argument that is a type is read back as the type is. -/
theorem Starts.readsArgument (h : Starts t first tail)
    (nests : ∀ depth, t.fullName.toList.length ≤ depth → Nests (readType depth) t first tail)
    {depth : Nat} (enough : t.fullName.toList.length < depth) :
    ReadsArgument (readType depth) (.type t) := by
  obtain ⟨s, after, word, -, text, -⟩ := h.readsPath (nests depth (by omega)) follows_nil
  obtain ⟨c, cs, eq, wordChar, noDigit⟩ := word.cons
  have front : t.fullName.toList = c :: (cs ++ after) := by simpa [eq] using text
  have other : ∀ d, isWordChar d = false → c ≠ d := by
    rintro d hd rfl
    simp [hd] at wordChar
  refine ⟨⟨c, _, front, other ' ' (by decide), other '>' (by decide)⟩, fun rest ends => ?_⟩
  have back := h.readsBack nests depth rest enough ends
  change readGeneric (readType depth) (t.fullName.toList ++ rest) = _
  rw [front, List.cons_append] at back ⊢
  rw [readGeneric]
  · simp only [noDigit, Bool.false_eq_true, if_false, back, bind, Except.bind]
  · exact other '\'' (by decide)

/-- An argument is shorter than the list it stands in. -/
theorem length_lt_argumentsText {ps : List Parameter} {q : Parameter} (hq : q ∈ ps) :
    (parameterName .full q).toList.length < (argumentsText ps).length := by
  rw [argumentsText_eq]
  exact length_lt_bracketed (List.mem_map_of_mem (f := fun p => (parameterName .full p).toList) hq)

/-- The names and arguments of a canonical identity are read back. -/
theorem Canonical.starts (h : Canonical t) : ∃ first tail, Starts t first tail ∧
    ∀ depth, t.fullName.toList.length ≤ depth → Nests (readType depth) t first tail := by
  induction h with
  | @mk module name parent parameters style allowed word outer shared types lengths bare spelled
      outer_ih types_ih =>
      have arguments : ∀ depth, (argumentsText parameters).length ≤ depth →
          ∀ q ∈ parameters, ReadsArgument (readType depth) q := by
        intro depth enough q hq
        cases q with
        | type t =>
            obtain ⟨first, tail, starts, nests⟩ := types_ih t hq
            exact starts.readsArgument nests
              (Nat.lt_of_lt_of_le (length_lt_argumentsText hq) enough)
        | literal label value type =>
            obtain ⟨rfl, rfl⟩ := lengths label value type hq
            exact readsArgument_length _ value
      cases parent with
      | none =>
          refine ⟨name, _, starts_none allowed word bare spelled, fun depth enough => ?_⟩
          simp only [fullName_none, List.length_append] at enough
          exact nests_none (arguments depth (by omega))
      | some p =>
          obtain ⟨rfl, rfl, other⟩ := shared p rfl
          obtain ⟨first, tail, starts, nests⟩ := outer_ih p rfl
          refine ⟨first, _, starts.nested other name parameters, fun depth enough => ?_⟩
          simp only [fullName_some, List.length_append, List.length_cons] at enough
          exact (nests depth (by omega)).nested word (arguments depth (by omega))

/-- A canonical identity is read back from its full name. -/
theorem parse_fullName (h : Canonical t) : parse t.fullName = .ok t := by
  obtain ⟨first, tail, starts, nests⟩ := h.starts
  have back := starts.readsBack nests (t.fullName.toList.length + 1) [] (Nat.lt_succ_self _)
    follows_nil
  rw [List.append_nil] at back
  simp [parse, readAll, back, bind, Except.bind, skipSpaces]

namespace Stored

def byte : Identity := root "u8"

/-- A store of bytes, with its capacity. -/
def store : Identity := coloned "api::model" "Store" [.type byte, .length 16]

/-- What a store holds under a key. -/
def entry : Identity :=
  ⟨"api::model", some store, "Entry", [.type (coloned "core::option" "Option" [.type byte])],
    .coloned⟩

theorem canonical_byte : Canonical byte :=
  .mk ⟨"core", [], by decide, rfl⟩ (by decide) (by simp) (by simp) (by simp) (by simp) (by decide)
    (by decide)

theorem canonical_store : Canonical store :=
  .mk ⟨"api", ["model"], by decide, rfl⟩ (by decide) (by simp) (by simp)
    (by simp [Parameter.length, canonical_byte]) (by simp +contextual [Parameter.length])
    (by decide) (by decide)

theorem canonical_option : Canonical (coloned "core::option" "Option" [.type byte]) :=
  .mk ⟨"core", ["option"], by decide, rfl⟩ (by decide) (by simp) (by simp)
    (by simp [canonical_byte]) (by simp) (by decide) (by decide)

theorem canonical_entry : Canonical entry :=
  .mk ⟨"api", ["model"], by decide, rfl⟩ (by decide) (by simp [canonical_store])
    (by simp [store, coloned, rootModule]) (by simp [canonical_option]) (by simp) (by decide)
    (by decide)

theorem parse_fullName_entry :
    entry.fullName = "api::model::Store<u8, 16>.Entry<core::option::Option<u8>>" ∧
      parse entry.fullName = .ok entry :=
  ⟨by decide +kernel, parse_fullName canonical_entry⟩

end Stored
end ApiAtlas.Identity
