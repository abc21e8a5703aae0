import ApiAtlas.Proofs.Canonical

/-!
# Spelled types

The grammar in which a running program spells its types: primitives, paths with arguments, tuples,
arrays, slices, references, raw pointers, function pointers and trait objects, each inside any
other. Every spelling denotes an identity, and the reader of type names takes the text of a spelling
to what it denotes.

What may stand behind a type decides which text a reader may go on with. It is a comma, a semicolon
or a closing bracket; only inside a trait object a path is followed by a space. A function pointer
without a result is never followed by one, so the spaces that are skipped in search of its arrow are
its own.
-/
namespace ApiAtlas.Identity

open Decimal (isDigit digits)

/-! ## Spellings and their texts -/

/-- An identifier, or the name of a lifetime. -/
structure Word where
  text : String
  isWord : IsWord text

/-- The name of a calling convention, which stands in quotes. -/
structure Convention where
  text : String
  plain : '"' ∉ text.toList

/-- What stands in front of the parameters of a function pointer: the lifetimes it binds, and how it
is called. -/
structure FunctionFront where
  binder : List Word
  isUnsafe : Bool
  convention : Option Convention

mutual

inductive Spelling where
  | primitive (name : Word) (free : isReserved name.text = false)
  | path (path : SpelledPath)
  | tuple (elements : List Spelling)
  | array (element : Spelling) (length : UInt64)
  | slice (element : Spelling)
  | reference (lifetime : Option Word) (isMutable : Bool) (target : Spelling)
  | pointer (isMutable : Bool) (target : Spelling)
  | function (front : FunctionFront) (arguments : List Spelling) (isVariadic : Bool)
      (result : Option Spelling)
  | traitObject (principal : SpelledPath) (bounds : List SpelledBound)

/-- A name in a module, and what it is applied to. -/
structure SpelledPath where
  /-- The first segment of the module. -/
  first : Word
  further : List Word
  name : Word
  arguments : List SpelledArgument

inductive SpelledArgument where
  | lifetime (name : Word)
  | type (type : Spelling)
  | length (value : UInt64)

/-- A further bound of a trait object. -/
inductive SpelledBound where
  | lifetime (name : Word)
  | path (path : SpelledPath)

end

def lifetimeText (name : Word) : List Char := '\'' :: name.text.toList

namespace FunctionFront

def binderText : List Word → List Char
  | [] => []
  | binder => ['f', 'o', 'r', '<'] ++ separated (binder.map lifetimeText) ++ ['>', ' ']

def unsafeText (isUnsafe : Bool) : List Char :=
  if isUnsafe then ['u', 'n', 's', 'a', 'f', 'e', ' '] else []

def conventionText : Option Convention → List Char
  | none => []
  | some convention =>
      ['e', 'x', 't', 'e', 'r', 'n', ' ', '"'] ++ convention.text.toList ++ ['"', ' ']

def text (front : FunctionFront) : List Char :=
  binderText front.binder ++ unsafeText front.isUnsafe ++ conventionText front.convention

end FunctionFront

/-- A tuple of one element keeps a comma behind it. -/
def elementsText : List (List Char) → List Char
  | [element] => element ++ [',']
  | elements => separated elements

/-- Three dots stand behind the parameters of a variadic function. -/
def parametersText (isVariadic : Bool) (parameters : List (List Char)) : List Char :=
  separated (parameters ++ if isVariadic then [['.', '.', '.']] else [])

def mutableText (isMutable : Bool) : List Char := if isMutable then ['m', 'u', 't', ' '] else []

def pointerText (isMutable : Bool) : List Char :=
  if isMutable then ['m', 'u', 't', ' '] else ['c', 'o', 'n', 's', 't', ' ']

def referenceText : Option Word → List Char
  | none => []
  | some lifetime => lifetimeText lifetime ++ [' ']

mutual

def Spelling.text : Spelling → List Char
  | .primitive name _ => name.text.toList
  | .path path => path.text
  | .tuple elements => '(' :: (elementsText (Spelling.texts elements) ++ [')'])
  | .array element length => '[' :: (element.text ++ [';', ' '] ++ digits length.toNat ++ [']'])
  | .slice element => '[' :: (element.text ++ [']'])
  | .reference lifetime isMutable target =>
      '&' :: (referenceText lifetime ++ mutableText isMutable ++ target.text)
  | .pointer isMutable target => '*' :: (pointerText isMutable ++ target.text)
  | .function front arguments isVariadic result =>
      front.text ++ ['f', 'n', '('] ++ parametersText isVariadic (Spelling.texts arguments) ++
        [')'] ++ Spelling.resultText result
  | .traitObject principal bounds =>
      ['d', 'y', 'n', ' '] ++ principal.text ++ SpelledBound.texts bounds

def Spelling.texts : List Spelling → List (List Char)
  | [] => []
  | type :: types => type.text :: Spelling.texts types

/-- A result of nothing is not written. -/
def Spelling.resultText : Option Spelling → List Char
  | none => []
  | some result => [' ', '-', '>', ' '] ++ result.text

def SpelledPath.text : SpelledPath → List Char
  | ⟨first, further, name, arguments⟩ =>
      first.text.toList ++ furtherText (further.map Word.text ++ [name.text]) ++
        bracketed (SpelledArgument.texts arguments)

def SpelledArgument.text : SpelledArgument → List Char
  | .lifetime name => lifetimeText name
  | .type type => type.text
  | .length value => digits value.toNat

def SpelledArgument.texts : List SpelledArgument → List (List Char)
  | [] => []
  | argument :: arguments => argument.text :: SpelledArgument.texts arguments

def SpelledBound.text : SpelledBound → List Char
  | .lifetime name => lifetimeText name
  | .path path => path.text

def SpelledBound.texts : List SpelledBound → List Char
  | [] => []
  | bound :: bounds => [' ', '+', ' '] ++ bound.text ++ SpelledBound.texts bounds

end

/-- The text of a spelled type. -/
def Spelling.spelled (t : Spelling) : String := String.ofList t.text

/-! ## What spellings denote -/

mutual

/-- The identity that a spelling stands for. References, pointers, binders and conventions leave no
trace, and a trait object stands for its principal path. -/
def Spelling.denotation : Spelling → Identity
  | .primitive name _ => root name.text
  | .path path => path.denotation
  | .tuple [] => root "Void"
  | .tuple (element :: elements) =>
      coloned rootModule "Tuple" (.type element.denotation :: Spelling.denotations elements)
  | .array element length =>
      coloned rootModule "Array" [.type element.denotation, .length length]
  | .slice element => coloned rootModule "Slice" [.type element.denotation]
  | .reference _ _ target => target.denotation
  | .pointer _ target => target.denotation
  | .function _ arguments _ result =>
      coloned rootModule "Fn" (Spelling.denotations arguments ++ [.type (Spelling.resultOf result)])
  | .traitObject principal _ => principal.denotation

def Spelling.denotations : List Spelling → List Parameter
  | [] => []
  | type :: types => .type type.denotation :: Spelling.denotations types

def Spelling.resultOf : Option Spelling → Identity
  | none => root "Void"
  | some result => result.denotation

def SpelledPath.denotation : SpelledPath → Identity
  | ⟨first, further, name, arguments⟩ =>
      coloned ("::".intercalate (first.text :: further.map Word.text)) name.text
        (SpelledArgument.denotations arguments)

/-- A lifetime is no argument. -/
def SpelledArgument.denotation? : SpelledArgument → Option Parameter
  | .lifetime _ => none
  | .type type => some (.type type.denotation)
  | .length value => some (.length value)

def SpelledArgument.denotations : List SpelledArgument → List Parameter
  | [] => []
  | argument :: arguments => argument.denotation?.toList ++ SpelledArgument.denotations arguments

end

theorem Spelling.texts_eq_map (types : List Spelling) :
    Spelling.texts types = types.map Spelling.text := by
  induction types with
  | nil => rfl
  | cons type types ih => simp [Spelling.texts, ih]

theorem Spelling.denotations_eq_map (types : List Spelling) :
    Spelling.denotations types = types.map fun t => .type t.denotation := by
  induction types with
  | nil => rfl
  | cons type types ih => simp [Spelling.denotations, ih]

theorem SpelledArgument.texts_eq_map (arguments : List SpelledArgument) :
    SpelledArgument.texts arguments = arguments.map SpelledArgument.text := by
  induction arguments with
  | nil => rfl
  | cons argument arguments ih => simp [SpelledArgument.texts, ih]

theorem SpelledArgument.denotations_eq_flatMap (arguments : List SpelledArgument) :
    SpelledArgument.denotations arguments = arguments.flatMap (·.denotation?.toList) := by
  induction arguments with
  | nil => rfl
  | cons argument arguments ih => simp [SpelledArgument.denotations, ih]

/-! ## Fronts -/

/-- The characters that a type may start with. -/
def isOpening (c : Char) : Bool :=
  isWordChar c && !isDigit c || ['(', '[', '&', '*'].contains c

theorem isOpening_ne {c : Char} (h : isOpening c) {d : Char} (hd : isOpening d = false) :
    c ≠ d := by
  rintro rfl
  simp [h] at hd

theorem isOpening_word {c : Char} (word : isWordChar c) (noDigit : isDigit c = false) :
    isOpening c := by
  simp [isOpening, word, noDigit]

theorem isOpening_digit {c : Char} (h : isOpening c) : isDigit c = false := by
  cases digit : isDigit c with
  | false => rfl
  | true =>
      have opening : c ∈ ['(', '[', '&', '*'] := by simpa [isOpening, digit] using h
      have noDigits : ['(', '[', '&', '*'].all fun c => !isDigit c := by decide
      exact digit.symm.trans (by simpa using List.all_eq_true.mp noDigits c opening)

theorem Word.front (w : Word) : ∃ c cs, w.text.toList = c :: cs ∧ isOpening c := by
  obtain ⟨c, cs, eq, word, noDigit⟩ := w.isWord.cons
  exact ⟨c, cs, eq, isOpening_word word noDigit⟩

/-- Words that are not the whole front of any type, with the space behind them. -/
def fronts : List (List Char) :=
  [['m', 'u', 't', ' '], ['e', 'x', 't', 'e', 'n', 's', 'i', 'o', 'n', ' ', 'i', 'n', ' ']]

/-- A token stands in front only if its own front does. -/
theorem eat?_append_none {a cs : List Char} (h : eat? a cs = none) (b : List Char) :
    eat? (a ++ b) cs = none := by
  induction a generalizing cs with
  | nil => cases h
  | cons x a ih =>
      cases cs with
      | nil => rfl
      | cons c cs =>
          simp only [List.cons_append, eat?] at h ⊢
          split
          · next same => exact ih (by simpa [same] using h)
          · rfl

/-- A word with no space behind it starts with none of the fronts. -/
theorem eat?_fronts {word rest : List Char} (hw : word.all isWordChar)
    (ends : Follows wordEnds rest) : ∀ token ∈ fronts, eat? token (word ++ rest) = none := by
  have noSpace : ' ' ∉ rest.head? := fun h => absurd (ends ' ' h) (by decide)
  have apart (k : List Char) (hk : isPlain k) (more : List Char) :
      eat? (k ++ [' '] ++ more) (word ++ rest) = none :=
    eat?_append_none (eat?_plain hk (isPlain_word hw) (by decide) (ends.mono (by decide))
      (.inr noSpace)) more
  intro token ht
  simp only [fronts, List.mem_cons, List.not_mem_nil, or_false] at ht
  rcases ht with rfl | rfl
  · exact apart ['m', 'u', 't'] (by decide) []
  · exact apart ['e', 'x', 't', 'e', 'n', 's', 'i', 'o', 'n'] (by decide) ['i', 'n', ' ']

/-! ## Texts of types -/

/-- A text is read as an identity, wherever one of some characters stands behind it or nothing. -/
def Reads (ends text : List Char) (t : Identity) : Prop :=
  ∀ depth rest, text.length < depth → Follows ends rest →
    readType depth (text ++ rest) = .ok (t, rest)

/-- A text spells an identity, and starts like no other form of a type. -/
structure Spells (ends text : List Char) (t : Identity) : Prop where
  front : ∃ c cs, text = c :: cs ∧ isOpening c
  apart : ∀ rest, Follows ends rest → ∀ token ∈ fronts, eat? token (text ++ rest) = none
  reads : Reads ends text t

variable {ends text rest cs : List Char} {t : Identity} {depth : Nat} {read : Read Identity}

theorem Spells.mono (h : Spells ends text t) {less : List Char} (sub : less.all ends.contains) :
    Spells less text t :=
  ⟨h.front, fun rest follows => h.apart rest (follows.mono sub),
    fun depth rest enough follows => h.reads depth rest enough (follows.mono sub)⟩

theorem Spells.length_pos (h : Spells ends text t) : 0 < text.length := by
  obtain ⟨c, cs, rfl, -⟩ := h.front
  simp

theorem readType_space : readType (depth + 1) (' ' :: cs) = readType (depth + 1) cs := by
  simp [readType, readTypeWith, skipSpaces]

/-- The reader has at least one level to go inside. -/
theorem Reads.of_succ (h : ∀ depth rest, text.length ≤ depth → Follows ends rest →
    readType (depth + 1) (text ++ rest) = .ok (t, rest)) : Reads ends text t := by
  intro depth rest enough follows
  cases depth with
  | zero => exact absurd enough (Nat.not_lt_zero _)
  | succ depth => exact h depth rest (Nat.le_of_lt_succ enough) follows

/-- A type behind a space. -/
theorem Spells.reads_space (h : Spells ends text t) (enough : text.length < depth)
    (follows : Follows ends rest) : readType depth (' ' :: (text ++ rest)) = .ok (t, rest) := by
  obtain ⟨depth, rfl⟩ : ∃ n, depth = n + 1 := ⟨depth - 1, by omega⟩
  rw [readType_space]
  exact h.reads _ rest enough follows

theorem Spells.skipSpaces (h : Spells ends text t) (rest : List Char) :
    skipSpaces (text ++ rest) = text ++ rest := by
  obtain ⟨c, cs, rfl, opening⟩ := h.front
  exact skipSpaces_cons (isOpening_ne opening (by decide))

theorem skipSpaces_typeEnds (follows : Follows typeEnds rest) : skipSpaces rest = rest := by
  cases rest with
  | nil => rfl
  | cons c rest =>
      apply skipSpaces_cons
      rintro rfl
      exact absurd (follows ' ' rfl) (by decide)

/-! ## Words and paths -/

theorem spells_primitive (name : Word) (free : isReserved name.text = false) :
    Spells typeEnds name.text.toList (root name.text) where
  front := name.front
  apart rest follows := eat?_fronts name.isWord.chars (follows.mono (by decide))
  reads := by
    refine .of_succ fun depth rest enough follows => ?_
    have segment : readSegment (name.text.toList ++ rest) = .ok (name.text, rest) :=
      readSegment_word name.isWord (follows.mono (by decide))
    have further := readFurtherSegments_none
      (follows.mono (by decide) : Follows pathEnds rest) rest.length
    have noDot : eat? ['.'] rest = none := follows.eat?_none (by decide) _
    have nested : readNested (readType depth) (rest.length + 1) (root name.text) rest = _ :=
      readNested_end _ _ (follows.mono (by decide))
    rw [readType, readTypeWith_word name.isWord (follows.mono (by decide))]
    simp only [readPath, segment, further, bind, Except.bind, List.getLast?_nil, noDot, free,
      Bool.false_eq_true, if_false]
    exact nested

/-- An argument of a path, as it is read. -/
def SpelledArgument.item (argument : SpelledArgument) : List Char × Option Parameter :=
  (argument.text, argument.denotation?)

theorem isWord_segments (further : List Word) (name : Word) :
    ∀ s ∈ further.map Word.text ++ [name.text], IsWord s := by
  intro s hs
  rcases List.mem_append.1 hs with hs | hs
  · obtain ⟨w, -, rfl⟩ := List.mem_map.1 hs
    exact w.isWord
  · exact List.mem_singleton.1 hs ▸ name.isWord

/-- The arguments behind the name of a path are read, and the path ends. -/
theorem readNested_arguments {arguments : List SpelledArgument}
    (reads : ∀ a ∈ arguments, ReadsItem read a.text a.denotation?) (module name : String)
    (follows : Follows boundEnds rest) :
    readNested read ((bracketed (SpelledArgument.texts arguments) ++ rest).length + 1)
        (coloned module name []) (bracketed (SpelledArgument.texts arguments) ++ rest) =
      .ok (coloned module name (SpelledArgument.denotations arguments), rest) := by
  have items : ∀ i ∈ arguments.map SpelledArgument.item, ReadsItem read i.1 i.2 := by
    intro i hi
    obtain ⟨a, ha, rfl⟩ := List.mem_map.1 hi
    exact reads a ha
  have texts : (arguments.map SpelledArgument.item).map Prod.fst =
      SpelledArgument.texts arguments := by
    simp [SpelledArgument.texts_eq_map, SpelledArgument.item, Function.comp_def]
  have values : (arguments.map SpelledArgument.item).flatMap (·.2.toList) =
      SpelledArgument.denotations arguments := by
    simp [SpelledArgument.denotations_eq_flatMap, SpelledArgument.item, List.flatMap_map]
  obtain ⟨k, few, run⟩ := nests_items items module none name .coloned
  rw [texts] at few run
  rw [values] at run
  generalize bracketed (SpelledArgument.texts arguments) = tail at few run ⊢
  obtain ⟨steps, count⟩ : ∃ n, (tail ++ rest).length + 1 = k + (n + 1) :=
    ⟨(tail ++ rest).length - k, by simp; omega⟩
  rw [count]
  exact (run (steps + 1) rest).trans (readNested_end _ _ follows)

theorem spells_path (first : Word) (further : List Word) (name : Word)
    {arguments : List SpelledArgument}
    (reads : ∀ a ∈ arguments, ∀ depth, a.text.length < depth →
      ReadsItem (readType depth) a.text a.denotation?) :
    Spells boundEnds (SpelledPath.text ⟨first, further, name, arguments⟩)
      (SpelledPath.denotation ⟨first, further, name, arguments⟩) := by
  have behind (rest : List Char) : Follows [':']
      (furtherText (further.map Word.text ++ [name.text]) ++ rest) := by
    cases further <;> exact follows_cons (by decide)
  refine ⟨?front, fun rest follows => ?apart, .of_succ fun depth rest enough follows => ?reads⟩
  case front =>
    obtain ⟨c, cs, eq, opening⟩ := first.front
    exact ⟨c, cs ++ (furtherText (further.map Word.text ++ [name.text]) ++
      bracketed (SpelledArgument.texts arguments)), by simp [SpelledPath.text, eq], opening⟩
  case apart =>
    simp only [SpelledPath.text, List.append_assoc]
    exact eat?_fronts first.isWord.chars ((behind _).mono (by decide))
  case reads =>
    have items : ∀ a ∈ arguments, ReadsItem (readType depth) a.text a.denotation? := by
      intro a ha
      have shorter := length_lt_bracketed (List.mem_map_of_mem (f := SpelledArgument.text) ha)
      apply reads a ha
      simp only [SpelledPath.text, SpelledArgument.texts_eq_map, List.length_append] at enough
      omega
    have nested := readNested_arguments items
      ("::".intercalate (first.text :: further.map Word.text)) name.text follows
    have next : Follows pathEnds (bracketed (SpelledArgument.texts arguments) ++ rest) :=
      (follows.mono (by decide)).bracketed (by decide) _
    simp only [SpelledPath.text, List.append_assoc]
    generalize bracketed (SpelledArgument.texts arguments) ++ rest = tail at nested next ⊢
    have segments : (further.map Word.text ++ [name.text]).length <
        (furtherText (further.map Word.text ++ [name.text]) ++ tail).length + 1 := by
      have := length_le_furtherText (further.map Word.text ++ [name.text])
      simp only [List.length_append] at this ⊢
      omega
    have words := readFurtherSegments_all
      (fun s hs => (isWord_segments further name s hs).isSegment.readsSegment) next segments
    have start : readSegment (first.text.toList ++
        (furtherText (further.map Word.text ++ [name.text]) ++ tail)) = _ :=
      readSegment_word first.isWord ((behind _).mono (by decide))
    rw [readType, readTypeWith_word first.isWord ((behind _).mono (by decide))]
    simp only [readPath, start, words, bind, Except.bind, List.getLast?_concat,
      List.dropLast_concat]
    exact nested

/-! ## Lifetimes -/

theorem skipLifetime_text (name : Word) (follows : Follows segmentEnds rest) :
    skipLifetime (lifetimeText name ++ rest) = skipSpaces rest := by
  have run : ∀ c ∈ name.text.toList, (Text.isAlphanumeric c || c = '_') = true := by
    intro c hc
    have word := List.all_eq_true.mp name.isWord.chars c hc
    simp only [isWordChar, Bool.or_eq_true] at word
    simp only [Text.isAlphanumeric, Bool.or_eq_true]
    exact word.imp_left .inl
  have stops : ∀ c ∈ rest.head?, (Text.isAlphanumeric c || c = '_') = false := by
    intro c hc
    have all : segmentEnds.all fun c => !(Text.isAlphanumeric c || c = '_') := by decide
    simpa using List.all_eq_true.mp all c (follows c hc)
  simp only [lifetimeText, List.cons_append, skipLifetime, dropWhile_run run stops]

theorem readsItem_lifetime (read : Read Identity) (name : Word) :
    ReadsItem read (lifetimeText name) none where
  front := ⟨'\'', _, rfl, by decide, by decide⟩
  back := by
    intro rest follows
    have skipped : skipSpaces rest = rest := skipSpaces_typeEnds (follows.mono (by decide))
    have behind := skipLifetime_text name (follows.mono (by decide) : Follows segmentEnds rest)
    show Except.ok (none, skipLifetime (lifetimeText name ++ rest)) = _
    rw [behind, skipped]

theorem Spells.readsItem (h : Spells typeEnds text t) (enough : text.length < depth) :
    ReadsItem (readType depth) text (some (.type t)) := by
  obtain ⟨c, cs, rfl, opening⟩ := h.front
  refine ⟨⟨c, cs, rfl, isOpening_ne opening (by decide), isOpening_ne opening (by decide)⟩,
    fun rest follows => ?_⟩
  have back := h.reads depth rest enough (follows.mono (by decide))
  rw [List.cons_append] at back ⊢
  rw [readGeneric]
  · simp only [isOpening_digit opening, Bool.false_eq_true, if_false, back, bind, Except.bind]
  · exact isOpening_ne opening (by decide)

theorem SpelledArgument.readsItem {argument : SpelledArgument}
    (h : ∀ type, argument = .type type → Spells typeEnds type.text type.denotation)
    (enough : argument.text.length < depth) :
    ReadsItem (readType depth) argument.text argument.denotation? := by
  cases argument with
  | lifetime name => exact readsItem_lifetime _ name
  | type type => exact (h type rfl).readsItem enough
  | length value => exact readsItem_digits _ value

/-! ## Tuples and parameters -/

/-- An element of a list in parentheses is read from its text. -/
structure ReadsElement (read : Read Identity) (text : List Char) (t : Identity) : Prop where
  front : ∃ c cs, text = c :: cs ∧ c ≠ ' ' ∧ c ≠ ')' ∧ c ≠ '.'
  back : ∀ rest, Follows [',', ')'] rest → read (text ++ rest) = .ok (t, rest)

theorem Spells.readsElement (h : Spells typeEnds text t) (enough : text.length < depth) :
    ReadsElement (readType depth) text t := by
  obtain ⟨c, cs, rfl, opening⟩ := h.front
  refine ⟨⟨c, cs, rfl, ?_, ?_, ?_⟩, fun rest follows =>
    h.reads depth rest enough (follows.mono (by decide))⟩
  all_goals exact isOpening_ne opening (by decide)

/-- What closes a list in parentheses: the parenthesis, or a comma behind which no more elements
are read. -/
def Closes (read : Read Identity) (variadic : Bool) (closing rest : List Char) : Prop :=
  closing = ')' :: rest ∨ ∃ after, closing = ',' :: after ∧
    ∀ steps, readArguments read variadic (steps + 1) after = .ok ([], rest)

section
variable {variadic : Bool} {after closing : List Char} {steps : Nat}

theorem readArguments_close (here : skipSpaces cs = ')' :: rest) :
    readArguments read variadic (steps + 1) cs = .ok ([], rest) := by
  simp [readArguments, here, eat?]

theorem readArguments_dots (here : skipSpaces cs = '.' :: '.' :: '.' :: ')' :: rest) :
    readArguments read true (steps + 1) cs = .ok ([], rest) := by
  simp [readArguments, here, eat?, skipSpaces_cons, expect, bind, Except.bind]

/-- What an element does not start with. -/
theorem ReadsElement.opens (element : ReadsElement read text t) (variadic : Bool)
    (after : List Char) :
    eat? [')'] (text ++ after) = none ∧
      (if variadic then eat? ['.', '.', '.'] (text ++ after) else none) = none := by
  obtain ⟨⟨c, cs, rfl, -, noClose, noDot⟩, -⟩ := element
  constructor
  · simp [eat?, noClose.symm]
  · simp [eat?, noDot.symm]

/-- The last element of a list, up to the parenthesis. -/
theorem readArguments_last (element : ReadsElement read text t)
    (here : skipSpaces cs = text ++ ')' :: rest) :
    readArguments read variadic (steps + 1) cs = .ok ([.type t], rest) := by
  have opens := element.opens variadic (')' :: rest)
  have back := element.back (')' :: rest) (follows_cons (by decide))
  rw [readArguments, here]
  simp [opens, back, bind, Except.bind, skipSpaces_cons, eat?, expect]

/-- An element in front of others. -/
theorem readArguments_more (element : ReadsElement read text t)
    (here : skipSpaces cs = text ++ ',' :: after) {ps : List Parameter}
    (more : readArguments read variadic steps after = .ok (ps, rest)) :
    readArguments read variadic (steps + 1) cs = .ok (.type t :: ps, rest) := by
  have opens := element.opens variadic (',' :: after)
  have back := element.back (',' :: after) (follows_cons (by decide))
  rw [readArguments, here]
  simp [opens, back, bind, Except.bind, skipSpaces_cons, eat?, more]

theorem Closes.follows (closes : Closes read variadic closing rest) :
    Follows [',', ')'] closing := by
  rcases closes with rfl | ⟨after, rfl, -⟩ <;> exact follows_cons (by decide)

theorem readArguments_list {item : List Char × Identity} {items : List (List Char × Identity)}
    (reads : ∀ i ∈ item :: items, ReadsElement read i.1 i.2)
    (closes : Closes read variadic closing rest)
    (here : skipSpaces cs = separated ((item :: items).map Prod.fst) ++ closing)
    (enough : (item :: items).length < steps) :
    readArguments read variadic steps cs =
      .ok ((item :: items).map fun i => Parameter.type i.2, rest) := by
  induction items generalizing item cs steps with
  | nil =>
      obtain ⟨steps, rfl⟩ : ∃ n, steps = n + 2 := ⟨steps - 2, by simp at enough; omega⟩
      have here : skipSpaces cs = item.1 ++ closing := by simpa [separated] using here
      rcases closes with rfl | ⟨after, rfl, done⟩
      · exact readArguments_last (reads item (by simp)) here
      · exact readArguments_more (reads item (by simp)) here (done steps)
  | cons second items ih =>
      obtain ⟨steps, rfl⟩ : ∃ n, steps = n + 1 := ⟨steps - 1, by simp at enough; omega⟩
      have here : skipSpaces cs = item.1 ++
          (',' :: ' ' :: (separated ((second :: items).map Prod.fst) ++ closing)) := by
        simpa [separated_cons_cons] using here
      obtain ⟨c, front, eq, noSpace, -⟩ := (reads second (by simp)).front
      obtain ⟨d, behind, eq', noSpace'⟩ := separated_front (P := (· ≠ ' '))
        ⟨c, front, eq, noSpace⟩ (items.map Prod.fst)
      have next : skipSpaces (' ' :: (separated ((second :: items).map Prod.fst) ++ closing)) =
          separated ((second :: items).map Prod.fst) ++ closing := by
        simp [skipSpaces, eq', noSpace']
      have more := ih (fun i hi => reads i (by simp_all)) next (by simpa using enough)
      exact readArguments_more (reads item (by simp)) here more

end

theorem separated_concat {texts : List (List Char)} (h : texts ≠ []) (last : List Char) :
    separated (texts ++ [last]) = separated texts ++ ',' :: ' ' :: last := by
  induction texts with
  | nil => exact absurd rfl h
  | cons a texts ih =>
      cases texts with
      | nil => simp [separated]
      | cons b texts =>
          simp only [List.cons_append, separated_cons_cons, List.append_assoc] at ih ⊢
          rw [ih (by simp)]

/-- Behind the first text of a list stands a comma or what closes the list. -/
theorem separated_start (text : List Char) (texts : List (List Char)) {closing : List Char}
    (follows : Follows [',', ')'] closing) :
    ∃ after, separated (text :: texts) ++ closing = text ++ after ∧ Follows [',', ')'] after := by
  cases texts with
  | nil => exact ⟨closing, by simp [separated], follows⟩
  | cons b texts =>
      refine ⟨',' :: ' ' :: (separated (b :: texts) ++ closing), ?_, follows_cons (by decide)⟩
      simp [separated_cons_cons]

/-- The text of a tuple that is not empty closes it. -/
theorem elementsText_closes (read : Read Identity) {texts : List (List Char)} (h : texts ≠ [])
    (rest : List Char) : ∃ closing, Closes read false closing rest ∧
      elementsText texts ++ ')' :: rest = separated texts ++ closing ∧
      (separated texts).length ≤ (elementsText texts).length := by
  match texts, h with
  | [a], _ =>
      refine ⟨',' :: ')' :: rest, .inr ⟨_, rfl, fun steps => ?_⟩, ?_⟩
      · exact readArguments_close (skipSpaces_cons (by decide))
      · simp [elementsText, separated]
  | a :: b :: texts, _ => exact ⟨')' :: rest, .inl rfl, rfl, Nat.le_refl _⟩

/-- The text of some parameters closes their list. -/
theorem parametersText_closes (read : Read Identity) (isVariadic : Bool)
    {texts : List (List Char)} (h : texts ≠ []) (rest : List Char) :
    ∃ closing, Closes read true closing rest ∧
      parametersText isVariadic texts ++ ')' :: rest = separated texts ++ closing ∧
      (separated texts).length ≤ (parametersText isVariadic texts).length := by
  cases isVariadic with
  | false => exact ⟨')' :: rest, .inl rfl, by simp [parametersText]⟩
  | true =>
      refine ⟨[',', ' ', '.', '.', '.', ')'] ++ rest, .inr ⟨_, rfl, fun steps => ?_⟩, ?_⟩
      · exact readArguments_dots (by simp [skipSpaces])
      · simp [parametersText, separated_concat h]

theorem length_le_count {texts : List (List Char)} (h : ∀ text ∈ texts, 0 < text.length) :
    texts.length ≤ (separated texts).length := by
  induction texts with
  | nil => simp
  | cons a texts ih =>
      have first := h a (by simp)
      cases texts with
      | nil => simpa [separated, Nat.succ_le_iff] using first
      | cons b texts =>
          have := ih fun text ht => h text (by simp [ht])
          rw [separated_cons_cons]
          simp only [List.length_append, List.length_cons] at this ⊢
          omega

/-- What the spellings of a list spell. -/
abbrev AllSpell (types : List Spelling) : Prop :=
  ∀ t ∈ types, Spells typeEnds t.text t.denotation

/-- A list of elements up to its parenthesis, whatever closes it. -/
theorem AllSpell.readArguments {type : Spelling} {types : List Spelling}
    (all : AllSpell (type :: types)) {variadic : Bool} {closing : List Char}
    (enough : (separated (Spelling.texts (type :: types))).length < depth)
    (closes : Closes (readType depth) variadic closing rest)
    (here : cs = separated (Spelling.texts (type :: types)) ++ closing) :
    readArguments (readType depth) variadic (cs.length + 1) cs =
      .ok (Spelling.denotations (type :: types), rest) := by
  let item (t : Spelling) : List Char × Identity := (t.text, t.denotation)
  have texts : (item type :: types.map item).map Prod.fst = Spelling.texts (type :: types) := by
    simp [item, Spelling.texts_eq_map, Function.comp_def]
  have elements : ∀ i ∈ item type :: types.map item, ReadsElement (readType depth) i.1 i.2 := by
    rw [← List.map_cons]
    intro i hi
    obtain ⟨t, ht, rfl⟩ := List.mem_map.1 hi
    have shorter := length_le_separated (List.mem_map_of_mem (f := Spelling.text) ht)
    rw [← Spelling.texts_eq_map] at shorter
    exact (all t ht).readsElement (by omega)
  obtain ⟨c, front, eq, noSpace⟩ := separated_front (P := (· ≠ ' '))
    (by
      obtain ⟨c, front, eq, opening⟩ := (all type (by simp)).front
      exact ⟨c, front, eq, isOpening_ne opening (by decide)⟩) (Spelling.texts types)
  have skipped : skipSpaces cs =
      separated ((item type :: types.map item).map Prod.fst) ++ closing := by
    rw [texts, here]
    simp only [Spelling.texts, eq, List.cons_append]
    exact skipSpaces_cons noSpace
  have count : (item type :: types.map item).length < cs.length + 1 := by
    have positive : ∀ text ∈ Spelling.texts (type :: types), 0 < text.length := by
      rw [Spelling.texts_eq_map]
      intro text mem
      obtain ⟨t, ht, rfl⟩ := List.mem_map.1 mem
      exact (all t ht).length_pos
    have few := length_le_count positive
    have closed : 0 < closing.length := by rcases closes with rfl | ⟨after, rfl, -⟩ <;> simp
    simp only [Spelling.texts_eq_map, List.length_map, List.length_cons] at few ⊢
    simp only [here, Spelling.texts_eq_map, List.length_append]
    omega
  have list := readArguments_list elements closes skipped count
  rw [list]
  simp [Spelling.denotations, Spelling.denotations_eq_map, item]

/-! ## Forms of types -/

theorem readTypeWith_tuple (apart : ∀ token ∈ fronts, eat? token cs = none)
    (nonempty : ∀ c ∈ cs.head?, c ≠ ')') :
    readTypeWith read ('(' :: cs) = readTuple read cs := by
  have extension : eat? extensionFront ('(' :: cs) = none := by
    have := apart _ (List.mem_cons_of_mem _ List.mem_cons_self)
    simpa [extensionFront, eat?] using this
  have skipped : skipSpaces ('(' :: cs) = '(' :: cs := skipSpaces_cons (by decide)
  simp only [readTypeWith, skipped, extension]
  cases cs with
  | nil => rfl
  | cons c cs =>
      have noClose : c ≠ ')' := nonempty c rfl
      simp [noClose]

theorem readTypeWith_array : readTypeWith read ('[' :: cs) = readArray read cs := by
  simp [readTypeWith, skipSpaces, extensionFront, eat?]

theorem readTypeWith_reference : readTypeWith read ('&' :: cs) =
    read (eatOptional ['m', 'u', 't', ' '] (skipLifetime cs)) := by
  simp [readTypeWith, skipSpaces, extensionFront, eat?]

theorem readTypeWith_pointer (isMutable : Bool) :
    readTypeWith read ('*' :: (pointerText isMutable ++ cs)) = read cs := by
  cases isMutable <;> simp [readTypeWith, pointerText, skipSpaces, extensionFront, eat?]

theorem readTypeWith_function :
    readTypeWith read ('f' :: 'n' :: '(' :: cs) = readFunction read cs := by
  simp [readTypeWith, readWord, skipSpaces, extensionFront, eat?]

theorem readTypeWith_traitObject :
    readTypeWith read ('d' :: 'y' :: 'n' :: ' ' :: cs) = readTraitObject read cs := by
  simp [readTypeWith, readWord, skipSpaces, extensionFront, eat?]

theorem spells_void : Spells typeEnds (Spelling.text (.tuple [])) (root "Void") where
  front := ⟨'(', [')'], rfl, by decide⟩
  apart rest _ := by simp [Spelling.text, Spelling.texts, elementsText, separated, fronts, eat?]
  reads := by
    refine .of_succ fun depth rest _ _ => ?_
    simp [Spelling.text, Spelling.texts, elementsText, separated, readType, readTypeWith,
      skipSpaces, extensionFront, eat?]

theorem spells_tuple {element : Spelling} {elements : List Spelling}
    (all : AllSpell (element :: elements)) :
    Spells typeEnds (Spelling.text (.tuple (element :: elements)))
      (Spelling.denotation (.tuple (element :: elements))) where
  front := ⟨'(', _, rfl, by decide⟩
  apart rest _ := by simp [Spelling.text, fronts, eat?]
  reads := by
    refine .of_succ fun depth rest enough follows => ?_
    have nonempty : Spelling.texts (element :: elements) ≠ [] := by simp [Spelling.texts]
    obtain ⟨closing, closes, here, shorter⟩ := elementsText_closes (readType depth) nonempty rest
    have inside : (separated (Spelling.texts (element :: elements))).length < depth := by
      simp only [Spelling.text, List.length_cons, List.length_append] at enough
      omega
    have list := all.readArguments inside closes rfl
    have first := all element (by simp)
    obtain ⟨after, start, next⟩ := separated_start element.text (Spelling.texts elements)
      closes.follows
    have apart : ∀ token ∈ fronts, eat? token
        (separated (Spelling.texts (element :: elements)) ++ closing) = none := by
      rw [Spelling.texts, start]
      exact first.apart _ (next.mono (by decide))
    have noClose : ∀ c ∈ (separated (Spelling.texts (element :: elements)) ++ closing).head?,
        c ≠ ')' := by
      obtain ⟨c, cs, eq, opening⟩ := first.front
      rw [Spelling.texts, start, eq]
      rintro _ ⟨⟩
      exact isOpening_ne opening (by decide)
    have text : Spelling.text (.tuple (element :: elements)) ++ rest =
        '(' :: (separated (Spelling.texts (element :: elements)) ++ closing) := by
      simp only [Spelling.text, List.cons_append, List.append_assoc, List.nil_append, here]
    rw [readType, text, readTypeWith_tuple apart noClose]
    simp only [readTuple, list, bind, Except.bind, Spelling.denotation, Spelling.denotations]

/-! ## Arrays, slices and references -/

theorem spells_array {element : Spelling} (h : Spells typeEnds element.text element.denotation)
    (length : UInt64) : Spells typeEnds (Spelling.text (.array element length))
      (Spelling.denotation (.array element length)) where
  front := ⟨'[', _, rfl, by decide⟩
  apart rest _ := by simp [Spelling.text, fronts, eat?]
  reads := by
    refine .of_succ fun depth rest enough follows => ?_
    simp only [Spelling.text, List.length_cons, List.length_append] at enough
    have inner := h.reads depth (';' :: ' ' :: (digits length.toNat ++ ']' :: rest)) (by omega)
      (follows_cons (by decide))
    have stops : ∀ c ∈ (']' :: rest).head?, isDigit c = false := by
      rintro _ ⟨⟩
      decide
    have number := readLength_digits length stops
    have skipped : skipSpaces (' ' :: (digits length.toNat ++ ']' :: rest)) =
        digits length.toNat ++ ']' :: rest := by
      obtain ⟨c, cs, eq⟩ := List.exists_cons_of_ne_nil (Decimal.digits_ne_nil length.toNat)
      have digit : isDigit c = true := Decimal.all_isDigit_digits length.toNat c (by simp [eq])
      have noSpace : c ≠ ' ' := by rintro rfl; exact absurd digit (by decide)
      simp [skipSpaces, eq, noSpace]
    simp only [Spelling.text, List.cons_append, List.append_assoc, List.nil_append]
    rw [readType, readTypeWith_array]
    simp [readArray, inner, skipSpaces_cons, eat?, skipped, number, expect, bind, Except.bind,
      Spelling.denotation]

theorem spells_slice {element : Spelling} (h : Spells typeEnds element.text element.denotation) :
    Spells typeEnds (Spelling.text (.slice element)) (Spelling.denotation (.slice element)) where
  front := ⟨'[', _, rfl, by decide⟩
  apart rest _ := by simp [Spelling.text, fronts, eat?]
  reads := by
    refine .of_succ fun depth rest enough follows => ?_
    simp only [Spelling.text, List.length_cons, List.length_append] at enough
    have inner := h.reads depth (']' :: rest) (by omega) (follows_cons (by decide))
    simp only [Spelling.text, List.cons_append, List.append_assoc, List.nil_append]
    rw [readType, readTypeWith_array]
    simp [readArray, inner, skipSpaces_cons, eat?, expect, bind, Except.bind, Spelling.denotation]

/-- Behind a reference its lifetime is dropped, and the word of a mutable one. -/
theorem dropped_reference (h : Spells typeEnds text t) (lifetime : Option Word) (isMutable : Bool)
    (follows : Follows typeEnds rest) :
    eatOptional ['m', 'u', 't', ' '] (skipLifetime
      (referenceText lifetime ++ (mutableText isMutable ++ (text ++ rest)))) = text ++ rest := by
  obtain ⟨c, cs, eq, opening⟩ := h.front
  have target : eatOptional ['m', 'u', 't', ' '] (mutableText isMutable ++ (text ++ rest)) =
      text ++ rest := by
    cases isMutable with
    | false =>
        have noWord := h.apart rest follows ['m', 'u', 't', ' '] List.mem_cons_self
        simp [mutableText, eatOptional, noWord]
    | true => simp [mutableText, eatOptional, eat?]
  have kept : skipSpaces (mutableText isMutable ++ (text ++ rest)) =
      mutableText isMutable ++ (text ++ rest) := by
    cases isMutable with
    | false => exact h.skipSpaces rest
    | true => exact skipSpaces_cons (by decide)
  cases lifetime with
  | none =>
      have noLifetime : skipLifetime (mutableText isMutable ++ (text ++ rest)) =
          mutableText isMutable ++ (text ++ rest) := by
        have noQuote : c ≠ '\'' := isOpening_ne opening (by decide)
        cases isMutable <;> simp [mutableText, eq, skipLifetime, noQuote]
      rw [referenceText, List.nil_append, noLifetime, target]
  | some lifetime =>
      have next : Follows segmentEnds (' ' :: (mutableText isMutable ++ (text ++ rest))) :=
        follows_cons (by decide)
      have behind := skipLifetime_text lifetime next
      have space : skipSpaces (' ' :: (mutableText isMutable ++ (text ++ rest))) =
          mutableText isMutable ++ (text ++ rest) := by
        simpa [skipSpaces] using kept
      rw [referenceText, List.append_assoc, List.singleton_append, behind, space, target]

theorem spells_reference {target : Spelling} (h : Spells typeEnds target.text target.denotation)
    (lifetime : Option Word) (isMutable : Bool) :
    Spells typeEnds (Spelling.text (.reference lifetime isMutable target)) target.denotation where
  front := ⟨'&', _, rfl, by decide⟩
  apart rest _ := by simp [Spelling.text, fronts, eat?]
  reads := by
    refine .of_succ fun depth rest enough follows => ?_
    simp only [Spelling.text, List.length_cons, List.length_append] at enough
    simp only [Spelling.text, List.cons_append, List.append_assoc]
    rw [readType, readTypeWith_reference, dropped_reference h lifetime isMutable follows]
    exact h.reads depth rest (by omega) follows

theorem spells_pointer {target : Spelling} (h : Spells typeEnds target.text target.denotation)
    (isMutable : Bool) :
    Spells typeEnds (Spelling.text (.pointer isMutable target)) target.denotation where
  front := ⟨'*', _, rfl, by decide⟩
  apart rest _ := by simp [Spelling.text, fronts, eat?]
  reads := by
    refine .of_succ fun depth rest enough follows => ?_
    simp only [Spelling.text, List.length_cons, List.length_append] at enough
    simp only [Spelling.text, List.cons_append, List.append_assoc]
    rw [readType, readTypeWith_pointer]
    exact h.reads depth rest (by omega) follows

/-! ## Function pointers -/

theorem readUpTo_run {delimiter : Char} {run : List Char} (h : delimiter ∉ run) :
    readUpTo delimiter (run ++ delimiter :: rest) = .ok (run, rest) := by
  have all : ∀ c ∈ run, decide (c ≠ delimiter) = true := by
    intro c hc
    have hne : c ≠ delimiter := fun same => h (same ▸ hc)
    simp [hne]
  have stops : ∀ c ∈ (delimiter :: rest).head?, decide (c ≠ delimiter) = false := by
    rintro _ ⟨⟩
    simp
  simp only [readUpTo, takeWhile_run all stops, dropWhile_run all stops]

theorem mem_separated {texts : List (List Char)} {c : Char} (h : c ∈ separated texts) :
    c = ',' ∨ c = ' ' ∨ ∃ text ∈ texts, c ∈ text := by
  induction texts with
  | nil => simp [separated] at h
  | cons a texts ih =>
      cases texts with
      | nil =>
          have inside : c ∈ a := by simpa [separated] using h
          exact .inr (.inr ⟨a, by simp, inside⟩)
      | cons b texts =>
          rw [separated_cons_cons] at h
          simp only [List.mem_append, List.mem_cons] at h
          rcases h with h | h | h | h
          · exact .inr (.inr ⟨a, by simp, h⟩)
          · exact .inl h
          · exact .inr (.inl h)
          · rcases ih h with h | h | ⟨text, ht, h⟩
            · exact .inl h
            · exact .inr (.inl h)
            · exact .inr (.inr ⟨text, List.mem_cons_of_mem _ ht, h⟩)

/-- No angle bracket stands among the lifetimes of a binder. -/
theorem not_mem_binder (binder : List Word) : '>' ∉ separated (binder.map lifetimeText) := by
  intro h
  rcases mem_separated h with h | h | ⟨text, ht, h⟩
  · exact absurd h (by decide)
  · exact absurd h (by decide)
  · obtain ⟨w, -, rfl⟩ := List.mem_map.1 ht
    rcases List.mem_cons.1 h with h | h
    · exact absurd h (by decide)
    · exact absurd (List.all_eq_true.mp w.isWord.chars _ h) (by decide)

/-- The reader goes from a text to what follows it, one level further inside. -/
def Skips (front : List Char) : Prop :=
  ∀ cs depth, front.length < depth → ∃ inner, depth ≤ inner + front.length ∧
    readType depth (front ++ cs) = readType inner cs

theorem skips_nil : Skips [] := fun _ depth _ => ⟨depth, by simp, rfl⟩

theorem Skips.append {a b : List Char} (ha : Skips a) (hb : Skips b) : Skips (a ++ b) := by
  intro cs depth enough
  rw [List.length_append] at enough
  obtain ⟨middle, few, run⟩ := ha (b ++ cs) depth (by omega)
  obtain ⟨inner, few', run'⟩ := hb cs middle (by omega)
  refine ⟨inner, by simp; omega, ?_⟩
  rw [List.append_assoc, run, run']

theorem skips_binder (binder : List Word) : Skips (FunctionFront.binderText binder) := by
  cases binder with
  | nil => exact skips_nil
  | cons w binder =>
      intro cs depth enough
      simp only [FunctionFront.binderText, List.length_append, List.length_cons] at enough
      obtain ⟨depth, rfl⟩ : ∃ n, depth = n + 2 := ⟨depth - 2, by omega⟩
      refine ⟨depth + 1, by simp [FunctionFront.binderText]; omega, ?_⟩
      have names :
          readUpTo '>' (separated ((w :: binder).map lifetimeText) ++ '>' :: ' ' :: cs) = _ :=
        readUpTo_run (not_mem_binder (w :: binder))
      rw [List.map_cons] at names
      simp only [FunctionFront.binderText, List.append_assoc, List.cons_append, List.nil_append]
      rw [readType, ← readType_space]
      simp [readTypeWith, readWord, skipSpaces, extensionFront, eat?, names, bind, Except.bind]

theorem skips_unsafety (isUnsafe : Bool) : Skips (FunctionFront.unsafeText isUnsafe) := by
  cases isUnsafe with
  | false => exact skips_nil
  | true =>
      intro cs depth enough
      obtain ⟨depth, rfl⟩ : ∃ n, depth = n + 1 := ⟨depth - 1, by omega⟩
      refine ⟨depth, by simp [FunctionFront.unsafeText], ?_⟩
      rw [readType]
      simp [FunctionFront.unsafeText, readTypeWith, readWord, skipSpaces, extensionFront, eat?]

theorem skips_convention (convention : Option Convention) :
    Skips (FunctionFront.conventionText convention) := by
  cases convention with
  | none => exact skips_nil
  | some convention =>
      intro cs depth enough
      simp only [FunctionFront.conventionText, List.length_append, List.length_cons] at enough
      obtain ⟨depth, rfl⟩ : ∃ n, depth = n + 2 := ⟨depth - 2, by omega⟩
      refine ⟨depth + 1, by simp [FunctionFront.conventionText]; omega, ?_⟩
      have quoted : readUpTo '"' (convention.text.toList ++ '"' :: ' ' :: cs) = _ :=
        readUpTo_run convention.plain
      simp only [FunctionFront.conventionText, List.append_assoc, List.cons_append, List.nil_append]
      rw [readType, ← readType_space]
      simp [readTypeWith, readWord, skipSpaces, extensionFront, eat?, quoted, bind, Except.bind]

theorem skips_front (front : FunctionFront) : Skips front.text :=
  ((skips_binder _).append (skips_unsafety _)).append (skips_convention _)

/-- The parameters of a function pointer, up to the parenthesis. -/
theorem AllSpell.readParameters {types : List Spelling} (all : AllSpell types) (isVariadic : Bool)
    (enough : (parametersText isVariadic (Spelling.texts types)).length < depth) :
    Identity.readArguments (readType depth) true
        ((parametersText isVariadic (Spelling.texts types) ++ ')' :: rest).length + 1)
        (parametersText isVariadic (Spelling.texts types) ++ ')' :: rest) =
      .ok (Spelling.denotations types, rest) := by
  cases types with
  | nil =>
      cases isVariadic with
      | false => exact readArguments_close (skipSpaces_cons (by decide))
      | true => exact readArguments_dots (skipSpaces_cons (by decide))
  | cons type types =>
      have nonempty : Spelling.texts (type :: types) ≠ [] := by simp [Spelling.texts]
      obtain ⟨closing, closes, here, shorter⟩ :=
        parametersText_closes (readType depth) isVariadic nonempty rest
      exact all.readArguments (by omega) closes here

theorem readType_function {types : List Spelling} (all : AllSpell types) (isVariadic : Bool)
    {result : Option Spelling} (h : ∀ r ∈ result, Spells typeEnds r.text r.denotation) (depth : Nat)
    (enough : (parametersText isVariadic (Spelling.texts types)).length +
      (Spelling.resultText result).length < depth) (follows : Follows typeEnds rest) :
    readType (depth + 1) ('f' :: 'n' :: '(' :: (parametersText isVariadic (Spelling.texts types) ++
        ')' :: (Spelling.resultText result ++ rest))) =
      .ok (coloned rootModule "Fn"
        (Spelling.denotations types ++ [.type (Spelling.resultOf result)]), rest) := by
  rw [readType, readTypeWith_function]
  have parameters : Identity.readArguments (readType depth) true _ (parametersText isVariadic
      (Spelling.texts types) ++ ')' :: (Spelling.resultText result ++ rest)) = _ :=
    all.readParameters isVariadic (by omega)
  simp only [readFunction, parameters, bind, Except.bind]
  cases result with
  | none =>
      have noArrow : eat? ['-', '>'] rest = none := follows.eat?_none (by decide) _
      simp [Spelling.resultText, skipSpaces_typeEnds follows, noArrow, Spelling.resultOf]
  | some r =>
      simp only [Spelling.resultText, List.length_append, List.length_cons,
        List.length_nil] at enough
      have inner : readType depth (' ' :: (r.text ++ rest)) = _ :=
        (h r rfl).reads_space (by omega) follows
      have skipped : skipSpaces (' ' :: '-' :: '>' :: ' ' :: (r.text ++ rest)) =
          '-' :: '>' :: ' ' :: (r.text ++ rest) := by simp [skipSpaces]
      simp [Spelling.resultText, skipped, eat?, inner, Spelling.resultOf]

theorem spells_function (front : FunctionFront) {types : List Spelling} (all : AllSpell types)
    (isVariadic : Bool) {result : Option Spelling}
    (h : ∀ r ∈ result, Spells typeEnds r.text r.denotation) :
    Spells typeEnds (Spelling.text (.function front types isVariadic result))
      (Spelling.denotation (.function front types isVariadic result)) where
  front := by
    obtain ⟨binder, isUnsafe, convention⟩ := front
    cases binder <;> cases isUnsafe <;> cases convention <;> exact ⟨_, _, rfl, by decide⟩
  apart rest _ := by
    obtain ⟨binder, isUnsafe, convention⟩ := front
    cases binder <;> cases isUnsafe <;> cases convention <;>
      simp [Spelling.text, FunctionFront.text, FunctionFront.binderText, FunctionFront.unsafeText,
        FunctionFront.conventionText, fronts, eat?]
  reads := by
    intro depth rest enough follows
    simp only [Spelling.text, List.length_append, List.length_cons, List.length_nil] at enough
    obtain ⟨inner, few, run⟩ := skips_front front ('f' :: 'n' :: '(' ::
      (parametersText isVariadic (Spelling.texts types) ++
        ')' :: (Spelling.resultText result ++ rest))) depth (by omega)
    obtain ⟨inner, rfl⟩ : ∃ n, inner = n + 1 := ⟨inner - 1, by omega⟩
    have whole := readType_function all isVariadic h inner (by omega) follows
    simp only [Spelling.text, List.cons_append, List.append_assoc, List.nil_append,
      Spelling.denotation]
    rw [run, whole]

/-! ## Trait objects -/

theorem skipSpaces_skipSpaces (cs : List Char) : skipSpaces (skipSpaces cs) = skipSpaces cs := by
  induction cs with
  | nil => rfl
  | cons c cs ih =>
      by_cases space : c = ' '
      · simpa [skipSpaces, space] using ih
      · simp [skipSpaces, space]

theorem skipBounds_space (steps : Nat) :
    skipBounds read (steps + 1) (skipSpaces cs) = skipBounds read (steps + 1) cs := by
  simp only [skipBounds, skipSpaces_skipSpaces]

/-- A further bound is dropped. -/
theorem skipBounds_bound {bound : SpelledBound} {more : List Char}
    (h : ∀ path, bound = .path path → Spells boundEnds path.text path.denotation)
    (enough : bound.text.length < depth) (follows : Follows boundEnds more) (steps : Nat) :
    skipBounds (readType depth) (steps + 2) ([' ', '+', ' '] ++ bound.text ++ more) =
      skipBounds (readType depth) (steps + 1) more := by
  have plus (cs : List Char) : skipSpaces (' ' :: '+' :: ' ' :: cs) = '+' :: ' ' :: cs := by
    simp [skipSpaces]
  simp only [List.cons_append, List.nil_append]
  rw [skipBounds, plus]
  cases bound with
  | lifetime name =>
      have quote : skipSpaces (' ' :: (lifetimeText name ++ more)) = lifetimeText name ++ more := by
        simp [skipSpaces, lifetimeText]
      have behind := skipLifetime_text name (follows.mono (by decide) : Follows segmentEnds more)
      rw [← skipBounds_space, ← behind]
      simp only [SpelledBound.text, eat?, if_pos, quote]
      rfl
  | path path =>
      have spells := h path rfl
      obtain ⟨c, cs, eq, opening⟩ := spells.front
      have noQuote : c ≠ '\'' := isOpening_ne opening (by decide)
      have here : skipSpaces (' ' :: (path.text ++ more)) = path.text ++ more := by
        have := spells.skipSpaces more
        simpa [skipSpaces] using this
      have back := spells.reads depth more enough follows
      simp only [SpelledBound.text, eat?, if_pos, here]
      rw [eq, List.cons_append] at back ⊢
      split
      · next same => exact absurd (List.cons.inj same).1 noQuote
      · simp [back, bind, Except.bind]

theorem SpelledBound.follows (bounds : List SpelledBound) (follows : Follows typeEnds rest) :
    Follows boundEnds (SpelledBound.texts bounds ++ rest) := by
  cases bounds with
  | nil => exact follows.mono (by decide)
  | cons bound bounds => exact follows_cons (by decide)

theorem skipBounds_texts {bounds : List SpelledBound}
    (h : ∀ b ∈ bounds, ∀ path, b = .path path → Spells boundEnds path.text path.denotation)
    (enough : (SpelledBound.texts bounds).length < depth) (follows : Follows typeEnds rest)
    {steps : Nat} (many : bounds.length < steps) :
    skipBounds (readType depth) steps (SpelledBound.texts bounds ++ rest) = .ok ((), rest) := by
  induction bounds generalizing steps with
  | nil =>
      obtain ⟨steps, rfl⟩ : ∃ n, steps = n + 1 := ⟨steps - 1, by simp at many; omega⟩
      have noPlus : eat? ['+'] rest = none := follows.eat?_none (by decide) _
      simp [SpelledBound.texts, skipBounds, skipSpaces_typeEnds follows, noPlus]
  | cons bound bounds ih =>
      simp only [List.length_cons] at many
      obtain ⟨steps, rfl⟩ : ∃ n, steps = n + 2 := ⟨steps - 2, by omega⟩
      simp only [SpelledBound.texts, List.length_append, List.length_cons] at enough
      have others := ih (fun b hb => h b (List.mem_cons_of_mem _ hb)) (by omega)
        (by omega : bounds.length < steps + 1)
      have first := skipBounds_bound (h bound List.mem_cons_self)
        (by omega : bound.text.length < depth) (SpelledBound.follows bounds follows) steps
      rw [SpelledBound.texts, List.append_assoc, first, others]

theorem length_le_bounds (bounds : List SpelledBound) :
    bounds.length ≤ (SpelledBound.texts bounds).length := by
  induction bounds with
  | nil => simp
  | cons bound bounds ih =>
      simp only [SpelledBound.texts, List.length_append, List.length_cons]
      omega

theorem spells_traitObject {principal : SpelledPath} {bounds : List SpelledBound}
    (h : Spells boundEnds principal.text principal.denotation)
    (further : ∀ b ∈ bounds, ∀ path, b = .path path → Spells boundEnds path.text path.denotation) :
    Spells typeEnds (Spelling.text (.traitObject principal bounds)) principal.denotation where
  front := ⟨'d', _, rfl, by decide⟩
  apart rest _ := by simp [Spelling.text, fronts, eat?]
  reads := by
    refine .of_succ fun depth rest enough follows => ?_
    simp only [Spelling.text, List.length_append, List.length_cons, List.length_nil] at enough
    have first := h.reads depth _ (by omega) (SpelledBound.follows bounds follows)
    have dropped := skipBounds_texts further (by omega : _ < depth) follows
      (Nat.lt_succ_of_le (Nat.le_trans (length_le_bounds bounds)
        (by simp : _ ≤ (SpelledBound.texts bounds ++ rest).length)))
    simp only [Spelling.text, List.cons_append, List.append_assoc, List.nil_append]
    rw [readType, readTypeWith_traitObject]
    simp only [readTraitObject, first, bind, Except.bind, dropped]

/-! ## All spellings -/

mutual

theorem Spelling.spells : (t : Spelling) → Spells typeEnds t.text t.denotation
  | .primitive name free => spells_primitive name free
  | .path path => path.spells.mono (by decide)
  | .tuple [] => spells_void
  | .tuple (element :: elements) => spells_tuple (Spelling.allSpell (element :: elements))
  | .array element length => spells_array element.spells length
  | .slice element => spells_slice element.spells
  | .reference lifetime isMutable target => spells_reference target.spells lifetime isMutable
  | .pointer isMutable target => spells_pointer target.spells isMutable
  | .function front arguments isVariadic result =>
      spells_function front (Spelling.allSpell arguments) isVariadic (Spelling.resultSpells result)
  | .traitObject principal bounds =>
      spells_traitObject principal.spells (SpelledBound.allSpell bounds)

theorem Spelling.allSpell : (types : List Spelling) → AllSpell types
  | [] => nofun
  | type :: types => List.forall_mem_cons.2 ⟨type.spells, Spelling.allSpell types⟩

theorem Spelling.resultSpells : (result : Option Spelling) →
    ∀ r ∈ result, Spells typeEnds r.text r.denotation
  | none => nofun
  | some result => fun _ hr => Option.some.inj hr ▸ result.spells

theorem SpelledPath.spells : (path : SpelledPath) → Spells boundEnds path.text path.denotation
  | ⟨first, further, name, arguments⟩ => spells_path first further name
      fun a ha _ enough => a.readsItem (SpelledArgument.allSpell arguments a ha) enough

theorem SpelledArgument.spells : (a : SpelledArgument) →
    ∀ type, a = .type type → Spells typeEnds type.text type.denotation
  | .lifetime _ => nofun
  | .type inner => fun _ same => SpelledArgument.type.inj same ▸ inner.spells
  | .length _ => nofun

theorem SpelledArgument.allSpell : (arguments : List SpelledArgument) → ∀ a ∈ arguments,
    ∀ type, a = .type type → Spells typeEnds type.text type.denotation
  | [] => nofun
  | a :: arguments => List.forall_mem_cons.2 ⟨a.spells, SpelledArgument.allSpell arguments⟩

theorem SpelledBound.spells : (b : SpelledBound) →
    ∀ path, b = .path path → Spells boundEnds path.text path.denotation
  | .lifetime _ => nofun
  | .path path => fun _ same => SpelledBound.path.inj same ▸ path.spells

theorem SpelledBound.allSpell : (bounds : List SpelledBound) → ∀ b ∈ bounds,
    ∀ path, b = .path path → Spells boundEnds path.text path.denotation
  | [] => nofun
  | b :: bounds => List.forall_mem_cons.2 ⟨b.spells, SpelledBound.allSpell bounds⟩

end

/-- The text of every spelled type is read as what it denotes. -/
theorem parse_spelled (t : Spelling) : parse t.spelled = .ok t.denotation := by
  have back := t.spells.reads (t.text.length + 1) [] (Nat.lt_succ_self _) follows_nil
  rw [List.append_nil] at back
  simp [parse, readAll, Spelling.spelled, back, bind, Except.bind, skipSpaces]

example :
    let word (s : String) (h : IsWord s) : Word := ⟨s, h⟩
    let life := word "a" (by decide)
    let byte := Spelling.primitive (word "u8" (by decide)) (by decide)
    let read : SpelledPath := ⟨word "api" (by decide), [], word "Read" (by decide),
      [.lifetime life, .type (.tuple [byte]), .length 3]⟩
    (Spelling.function ⟨[life], true, some ⟨"C", by decide⟩⟩
        [.reference (some life) true (.array byte 4), .pointer false (.tuple [])] true
        (some (.traitObject read [.lifetime life]))).spelled =
      "for<'a> unsafe extern \"C\" fn(&'a mut [u8; 4], *const (), ...) -> " ++
        "dyn api::Read<'a, (u8,), 3> + 'a" := by
  decide +kernel

end ApiAtlas.Identity
