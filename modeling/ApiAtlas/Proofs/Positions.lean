import ApiAtlas.Proofs.Cursor

/-!
# The positions of a scan

A whole type name is scanned by positions, production by production, and each production follows
the reader's. So the scan of a text ends as the reading does, and no slice and no counter of it
fails. The reading never uses up its allowance and a type takes at least one character of its own,
so the same is known of the scan, and the offset of a fault is a position of it.
-/
namespace ApiAtlas.Identity

open Decimal (isDigit readBelow wordBound)

namespace Scan

/-! ## Segments -/

/-- Text in balanced angle brackets. -/
def qualifiedSegment : Scan String := do
  let rest ← rest
  match closing 0 0 rest with
  | .ok (some index) => do
      advance (index + 1)
      let (text, _) ← slice (index + 1) rest
      return String.ofList text
  | .ok none => fail .unbalanced
  | .error halt => throw halt

/-- A run of characters that do not end a segment. -/
def wordSegment : Scan String := do
  let rest ← rest
  let stop := runBytes (fun c => !segmentEnds.contains c) rest
  if stop = 0 then fail .identifier
  else do
    advance stop
    let (text, _) ← slice stop rest
    return String.ofList text

/-- Move behind an unknown context and its dot, if one is next. -/
def skipContext : Scan Unit := do
  let rest ← rest
  if unknownContext.isPrefixOf rest then do
    let _ ← seek ')'
    expect ['.']
  else return ()

def segment : Scan String := do
  skipContext
  if (← peek) = some '<' then qualifiedSegment else wordSegment

/-- Segments joined by double colons, behind the first of them. -/
def furtherSegments : Nat → Scan (List String)
  | 0 => fail .depth
  | steps + 1 => do
      if ← eat [':', ':'] then do
        let name ← segment
        let names ← furtherSegments steps
        return name :: names
      else return []

/-- A number below `2 ^ 64`. -/
def integer : Scan Parameter := do
  let rest ← rest
  let stop := runBytes isDigit rest
  let (digits, _) ← slice stop rest
  match readBelow wordBound digits with
  | .ok value => do
      advance stop
      return .length (UInt64.ofNat value)
  | .error cause => fail (.integer cause)

/-! ## Types that hold types -/

/-- Move behind three dots, if they are next and allowed. -/
def ellipsis (variadic : Bool) : Scan Bool := if variadic then eat ['.', '.', '.'] else return false

/-- Types between parentheses, behind the opening one; a variadic list may end with three dots. -/
def arguments (type : Scan Identity) (variadic : Bool) : Nat → Scan (List Parameter)
  | 0 => fail .depth
  | steps + 1 => do
      skipSpaces
      if ← eat [')'] then return []
      else if ← ellipsis variadic then do
        skipSpaces
        expect [')']
        return []
      else do
        let identity ← type
        skipSpaces
        if ← eat [','] then do
          let parameters ← arguments type variadic steps
          return .type identity :: parameters
        else do
          expect [')']
          return [.type identity]

/-- One generic argument; a lifetime is none. -/
def generic (type : Scan Identity) : Scan (Option Parameter) := do
  let next ← peek
  if next = some '\'' then do
    skipLifetime
    return none
  else if next.any isDigit then do
    let parameter ← integer
    return some parameter
  else do
    let identity ← type
    return some (.type identity)

/-- Generic arguments, behind the opening bracket. -/
def generics (type : Scan Identity) : Nat → Scan (List Parameter)
  | 0 => fail .depth
  | steps + 1 => do
      skipSpaces
      if ← eat ['>'] then return []
      else do
        let parameter ← generic type
        skipSpaces
        if ← eat [','] then do
          let parameters ← generics type steps
          return parameter.toList ++ parameters
        else do
          expect ['>']
          return parameter.toList

def tuple (type : Scan Identity) : Scan Identity := do
  expect ['(']
  let rest ← rest
  let parameters ← arguments type false (rest.length + 1)
  return coloned rootModule "Tuple" parameters

/-- A function pointer, behind its opening parenthesis. -/
def function (type : Scan Identity) : Scan Identity := do
  let rest ← rest
  let parameters ← arguments type true (rest.length + 1)
  skipSpaces
  if ← eat ['-', '>'] then do
    let result ← type
    return coloned rootModule "Fn" (parameters ++ [.type result])
  else return coloned rootModule "Fn" (parameters ++ [.type (root "Void")])

/-- An array or a slice. -/
def array (type : Scan Identity) : Scan Identity := do
  expect ['[']
  let element ← type
  skipSpaces
  if ← eat [';'] then do
    skipSpaces
    let length ← integer
    skipSpaces
    expect [']']
    return coloned rootModule "Array" [.type element, length]
  else do
    expect [']']
    return coloned rootModule "Slice" [.type element]

/-- Further bounds of a trait object. -/
def bounds (type : Scan Identity) : Nat → Scan Unit
  | 0 => fail .depth
  | steps + 1 => do
      skipSpaces
      if ← eat ['+'] then do
        skipSpaces
        if (← peek) = some '\'' then do
          skipLifetime
          bounds type steps
        else do
          let _ ← type
          bounds type steps
      else return ()

/-- A trait object, behind its keyword. -/
def traitObject (type : Scan Identity) : Scan Identity := do
  let principal ← type
  let rest ← rest
  bounds type (rest.length + 1)
  return principal

/-- Arguments and nested names behind a name. -/
def nested (type : Scan Identity) : Nat → Identity → Scan Identity
  | 0, _ => fail .depth
  | steps + 1, t => do
      if ← eat ['<'] then do
        let rest ← rest
        let parameters ← generics type (rest.length + 1)
        nested type steps { t with parameters }
      else if ← eat ['.'] then do
        let name ← segment
        nested type steps ⟨t.module, some t, name, [], t.style⟩
      else return t

/-- Whether a name of the standard module is reserved, and nothing is nested in it or applied. -/
def isReservedEnd (module name : String) : Scan Bool :=
  if module = standardModule then do
    let next ← peek
    return isReserved name && next ≠ some '.' && next ≠ some '<'
  else return false

/-- A name with its module, arguments and nested names. -/
def path (type : Scan Identity) : Scan Identity := do
  let first ← segment
  let behind ← rest
  let further ← furtherSegments (behind.length + 1)
  let ends := fun (module name : String) (style : PathStyle) => (do
    let rest ← rest
    nested type (rest.length + 1) ⟨module, none, name, [], style⟩ : Scan Identity)
  match further.getLast? with
  | some name => ends ("::".intercalate (first :: further.dropLast)) name .coloned
  | none =>
      if ← eat ['.'] then do
        let name ← segment
        if ← isReservedEnd first name then return root name else ends first name .dotted
      else if isReserved first then return root first
      else ends rootModule first .coloned

/-- A type of an extension, behind its front. -/
def extension (type : Scan Identity) : Scan Identity := do
  let module ← seek ')'
  expect [':']
  let extended ← type
  return { extended with module := String.ofList module }

/-- A type that starts with a word, or a path. -/
def word (type : Scan Identity) : Scan Identity := do
  if ← eat ['f', 'o', 'r', '<'] then do
    let _ ← seek '>'
    type
  else if ← eat ['u', 'n', 's', 'a', 'f', 'e', ' '] then type
  else if ← eat ['e', 'x', 't', 'e', 'r', 'n', ' '] then do
    if ← eat ['"'] then do
      let _ ← seek '"'
      type
    else type
  else if ← eat ['f', 'n', '('] then function type
  else if ← eat ['d', 'y', 'n', ' '] then traitObject type
  else path type

/-- A reference, which leaves no trace. -/
def reference (type : Scan Identity) : Scan Identity := do
  advance 1
  skipLifetime
  let _ ← eat ['m', 'u', 't', ' ']
  type

/-- A raw pointer, which leaves no trace. -/
def pointer (type : Scan Identity) : Scan Identity := do
  if ← eat ['*', 'c', 'o', 'n', 's', 't', ' '] then type
  else if ← eat ['*', 'm', 'u', 't', ' '] then type
  else fail .pointerKind

/-- A type, given how the types inside it are scanned. -/
def typeWith (type : Scan Identity) : Scan Identity := do
  skipSpaces
  if ← eat extensionFront then extension type
  else if ← eat ['(', ')'] then return root "Void"
  else do
    let next ← peek
    if next = some '(' then tuple type
    else if next = some '[' then array type
    else if next = some '&' then reference type
    else if next = some '*' then pointer type
    else word type

/-- A type whose nesting is within an allowance. -/
def type : Nat → Scan Identity
  | 0 => fail .depth
  | depth + 1 => typeWith (type depth)

/-- A whole text as a type name. -/
def whole : Scan Identity := do
  let text ← rest
  let t ← type (text.length + 1)
  skipSpaces
  let rest ← rest
  if rest.isEmpty then return t else fail .trailing

/-! ## Segments follow the reading -/

variable {input : String} {cs : List Char} {read : Read Identity} {type : Scan Identity}

theorem follows_qualifiedSegment (inside : List Char) :
    Follows input qualifiedSegment ('<' :: inside) (readPlainSegment ('<' :: inside)) := by
  have found : closing 0 0 ('<' :: inside) =
      .ok ((splitQualified 1 inside).map fun split => 1 + (utf8Size split.1 - 1)) :=
    closing_eq Nat.one_pos 1 inside
  have opened : splitQualified 0 ('<' :: inside) =
      (splitQualified 1 inside).map fun split => ('<' :: split.1, split.2) := rfl
  unfold readPlainSegment
  refine follows_rest.behind ?_
  rw [found, opened]
  cases split : splitQualified 1 inside with
  | none => exact .fail _
  | some parts =>
      obtain ⟨text, rest⟩ := parts
      obtain ⟨eq, full⟩ := splitQualified_eq split
      have whole : '<' :: inside = ('<' :: text) ++ rest := congrArg ('<' :: ·) eq
      have size : 1 + (utf8Size text - 1) + 1 = utf8Size ('<' :: text) := by
        have positive := utf8Size_pos full
        have mark : '<'.utf8Size = 1 := by decide
        rw [utf8Size_cons, mark]
        omega
      dsimp only [Option.map_some]
      rw [size]
      exact (follows_advance _ whole rfl).behind ((follows_slice whole rest).behind (.pure _))

theorem follows_wordSegment (other : cs.head? ≠ some '<') :
    Follows input wordSegment cs (readPlainSegment cs) := by
  have whole := (List.takeWhile_append_dropWhile
    (p := fun c => !segmentEnds.contains c) (l := cs)).symm
  unfold readPlainSegment
  split
  · exact absurd rfl other
  · refine follows_rest.behind ?_
    dsimp only
    rw [runBytes_eq]
    generalize cs.takeWhile _ = text at whole ⊢
    generalize cs.dropWhile _ = rest at whole
    by_cases empty : text = []
    · subst empty
      exact .fail _
    · rw [if_neg (Nat.ne_of_gt (utf8Size_pos empty)), if_neg (by simpa using empty)]
      have left : cs.drop text.length = rest := by rw [whole, List.drop_left]
      rw [left]
      exact (follows_advance _ whole rfl).behind ((follows_slice whole rest).behind (.pure _))

theorem follows_skipContext (cs : List Char) : Follows input skipContext cs
    (if (eat? unknownContext cs).isSome then
      readUpTo ')' cs >>= fun found => Identity.expect ['.'] found.2
    else .ok ((), cs)) := by
  refine follows_rest.behind ?_
  rw [isPrefixOf_eq]
  split
  · exact (follows_seek ')' cs).bind fun _ rest _ => follows_expect ['.'] rest
  · exact .pure ()

theorem follows_segment (cs : List Char) : Follows input segment cs (readSegment cs) := by
  have plain (cs : List Char) : Follows input
      (peek >>= fun next => if next = some '<' then qualifiedSegment else wordSegment) cs
      (readPlainSegment cs) := by
    refine follows_peek.behind ?_
    split
    · next opened =>
      obtain ⟨inside, rfl⟩ := List.head?_eq_some_iff.mp opened
      exact follows_qualifiedSegment inside
    · next other => exact follows_wordSegment other
  have context : Follows input skipContext cs _ := follows_skipContext cs
  unfold readSegment
  split at context
  · next found =>
    rw [if_pos found]
    have read := context.bind (g := fun found => readPlainSegment found.2)
      fun _ rest _ => plain rest
    rw [bind_assoc] at read
    exact read
  · next missing =>
    rw [if_neg missing]
    exact context.behind (plain cs)

theorem follows_furtherSegments (steps : Nat) (cs : List Char) :
    Follows input (furtherSegments steps) cs (readFurtherSegments steps cs) := by
  induction steps generalizing cs with
  | zero => exact .fail _
  | succ steps ih =>
      unfold readFurtherSegments
      refine .eatThen (fun rest eaten => ?_) fun missing => ?_
      · rw [eaten]
        exact (follows_segment rest).bind fun name rest _ =>
          (ih rest).bind fun names rest _ => .pure _
      · rw [missing]
        exact .pure []

theorem follows_integer (cs : List Char) : Follows input integer cs (readLength cs) := by
  have whole := (List.takeWhile_append_dropWhile (p := isDigit) (l := cs)).symm
  unfold readLength
  refine follows_rest.behind ?_
  dsimp only
  rw [runBytes_eq]
  refine (follows_slice whole cs).behind ?_
  dsimp only
  cases readBelow wordBound (cs.takeWhile isDigit) with
  | ok value => exact (follows_advance _ whole rfl).behind (.pure _)
  | error cause => exact .fail _

theorem Follows.ellipsis {α : Type} {variadic : Bool} {first second : Scan α}
    {taken : List Char → Except (NameFault × List Char) (α × List Char)}
    {left : Except (NameFault × List Char) (α × List Char)}
    (hf : ∀ rest, Follows input first rest (taken rest)) (hs : Follows input second cs left) :
    Follows input (Scan.ellipsis variadic >>= fun found => if found then first else second) cs
      (match if variadic then eat? ['.', '.', '.'] cs else none with
      | some rest => taken rest
      | none => left) := by
  cases variadic with
  | false => exact (Follows.pure false).behind hs
  | true => exact .eat hf hs

/-! ## Types follow the reading -/

section
variable (types : ∀ cs, Follows input type cs (read cs))
include types

theorem follows_arguments (variadic : Bool) (steps : Nat) (cs : List Char) :
    Follows input (arguments type variadic steps) cs (readArguments read variadic steps cs) := by
  induction steps generalizing cs with
  | zero => exact .fail _
  | succ steps ih =>
      unfold readArguments
      refine (follows_skipSpaces cs).behind (.eat (fun rest => .pure []) ?_)
      refine .ellipsis (fun rest => ?_) ?_
      · exact (follows_skipSpaces rest).behind ((follows_expect _ _).bind fun _ rest _ => .pure _)
      · refine (types _).bind fun identity rest _ => ?_
        refine (follows_skipSpaces rest).behind (.eat (fun rest => ?_) ?_)
        · exact (ih rest).bind fun parameters rest _ => .pure _
        · exact (follows_expect _ _).bind fun _ rest _ => .pure _

theorem follows_generic (cs : List Char) :
    Follows input (generic type) cs (readGeneric read cs) := by
  refine follows_peek.behind ?_
  generalize reading : readGeneric read cs = x
  unfold readGeneric at reading
  split at reading
  · subst reading
    exact (follows_skipLifetime _).behind (.pure none)
  · next c rest mark =>
    rw [if_neg (by simpa using mark), List.head?_cons, Option.any_some]
    split at reading
    · next digit =>
      subst reading
      rw [if_pos digit]
      exact (follows_integer _).bind fun parameter rest _ => .pure _
    · next other =>
      subst reading
      rw [if_neg other]
      exact (types _).bind fun identity rest _ => .pure _
  · subst reading
    exact (types []).bind fun identity rest _ => .pure _

theorem follows_generics (steps : Nat) (cs : List Char) :
    Follows input (generics type steps) cs (readGenerics read steps cs) := by
  induction steps generalizing cs with
  | zero => exact .fail _
  | succ steps ih =>
      unfold readGenerics
      refine (follows_skipSpaces cs).behind (.eat (fun rest => .pure []) ?_)
      refine (follows_generic types _).bind fun parameter rest _ => ?_
      refine (follows_skipSpaces rest).behind (.eat (fun rest => ?_) ?_)
      · exact (ih rest).bind fun parameters rest _ => .pure _
      · exact (follows_expect _ _).bind fun _ rest _ => .pure _

theorem follows_tuple (cs : List Char) :
    Follows input (tuple type) ('(' :: cs) (readTuple read cs) := by
  have opened : Follows input (expect ['(']) ('(' :: cs) (.ok ((), cs)) := follows_expect _ _
  refine opened.behind ?_
  exact follows_rest.behind ((follows_arguments types _ _ _).bind fun _ _ _ => .pure _)

theorem follows_function (cs : List Char) :
    Follows input (function type) cs (readFunction read cs) := by
  refine follows_rest.behind ((follows_arguments types _ _ _).bind fun parameters rest _ => ?_)
  refine (follows_skipSpaces rest).behind (.eat (fun rest => ?_) (.pure _))
  exact (types rest).bind fun result rest _ => .pure _

theorem follows_array (cs : List Char) :
    Follows input (array type) ('[' :: cs) (readArray read cs) := by
  have opened : Follows input (expect ['[']) ('[' :: cs) (.ok ((), cs)) := follows_expect _ _
  refine opened.behind ?_
  refine (types cs).bind fun element rest _ => ?_
  refine (follows_skipSpaces rest).behind (.eat (fun rest => ?_) ?_)
  · refine (follows_skipSpaces rest).behind ((follows_integer _).bind fun length rest _ => ?_)
    exact (follows_skipSpaces rest).behind ((follows_expect _ _).bind fun _ _ _ => .pure _)
  · exact (follows_expect _ _).bind fun _ _ _ => .pure _

theorem follows_bounds (steps : Nat) (cs : List Char) :
    Follows input (bounds type steps) cs (skipBounds read steps cs) := by
  induction steps generalizing cs with
  | zero => exact .fail _
  | succ steps ih =>
      unfold skipBounds
      dsimp only
      refine (follows_skipSpaces cs).behind (.eatThen (fun rest eaten => ?_) fun missing => ?_)
      · rw [eaten]
        refine (follows_skipSpaces rest).behind (follows_peek.behind ?_)
        dsimp only
        generalize Identity.skipSpaces rest = cs
        by_cases mark : cs.head? = some '\''
        · obtain ⟨after, rfl⟩ := List.head?_eq_some_iff.mp mark
          exact (follows_skipLifetime _).behind (ih _)
        · rw [if_neg mark]
          split
          · exact absurd rfl mark
          · exact (types _).bind fun _ rest _ => ih rest
      · rw [missing]
        exact .pure ()

theorem follows_traitObject (cs : List Char) :
    Follows input (traitObject type) cs (readTraitObject read cs) :=
  (types cs).bind fun _ rest _ =>
    follows_rest.behind ((follows_bounds types _ rest).bind fun _ _ _ => .pure _)

theorem follows_nested (steps : Nat) (t : Identity) (cs : List Char) :
    Follows input (nested type steps t) cs (readNested read steps t cs) := by
  induction steps generalizing t cs with
  | zero => exact .fail _
  | succ steps ih =>
      unfold readNested
      refine .eat (fun rest => ?_) (.eat (fun rest => ?_) (.pure t))
      · exact follows_rest.behind ((follows_generics types _ rest).bind fun _ rest _ => ih _ rest)
      · exact (follows_segment rest).bind fun _ rest _ => ih _ rest

omit types in
theorem follows_isReservedEnd (first name : String) (cs : List Char) :
    Follows input (isReservedEnd first name) cs
      (.ok (first = standardModule && isReserved name && endsName cs, cs)) := by
  have ends : endsName cs = (decide (cs.head? ≠ some '.') && decide (cs.head? ≠ some '<')) := by
    unfold endsName
    split <;> simp_all [List.head?_eq_some_iff]
  unfold isReservedEnd
  split
  · next same =>
    rw [same, ends, decide_eq_true rfl, Bool.true_and, ← Bool.and_assoc]
    exact follows_peek.behind (.pure _)
  · next other =>
    rw [decide_eq_false other]
    exact .pure false

theorem follows_path (cs : List Char) : Follows input (path type) cs (readPath read cs) := by
  have ends (module name : String) (style : PathStyle) (cs : List Char) : Follows input (do
      let rest ← rest
      nested type (rest.length + 1) ⟨module, none, name, [], style⟩) cs
      (readNested read (cs.length + 1) ⟨module, none, name, [], style⟩ cs) :=
    follows_rest.behind (follows_nested types _ _ cs)
  refine (follows_segment cs).bind fun first rest _ => follows_rest.behind ?_
  refine (follows_furtherSegments _ rest).bind fun further rest _ => ?_
  dsimp only
  cases further.getLast? with
  | some name => exact ends _ name .coloned rest
  | none =>
      refine .eat (fun rest => ?_) ?_
      · refine (follows_segment rest).bind fun name rest _ => ?_
        refine (follows_isReservedEnd first name rest).behind ?_
        dsimp only
        split
        · exact .pure _
        · exact ends first name .dotted rest
      · split
        · exact .pure _
        · exact ends rootModule first .coloned rest

theorem follows_extension (cs : List Char) :
    Follows input (extension type) cs (readExtension read cs) :=
  (follows_seek ')' cs).bind fun _ rest _ => (follows_expect [':'] rest).bind fun _ rest _ =>
    (types rest).bind fun _ _ _ => .pure _

theorem follows_word (cs : List Char) : Follows input (word type) cs (readWord read cs) := by
  unfold readWord
  refine .eat (fun rest => ?_) (.eat types (.eat (fun rest => ?_) (.eat ?_ (.eat ?_ ?_))))
  · exact (follows_seek '>' rest).bind fun _ rest _ => types rest
  · exact .eat (fun rest => (follows_seek '"' rest).bind fun _ rest _ => types rest) (types rest)
  · exact follows_function types
  · exact follows_traitObject types
  · exact follows_path types cs

theorem follows_reference (cs : List Char) : Follows input (reference type) ('&' :: cs)
    (read (eatOptional ['m', 'u', 't', ' '] (Identity.skipLifetime cs))) :=
  (follows_advance ['&'] rfl rfl).behind
    ((follows_skipLifetime cs).behind ((follows_eat _ _).behind (types _)))

theorem follows_pointer (cs : List Char) : Follows input (pointer type) ('*' :: cs)
    (match eat? ['c', 'o', 'n', 's', 't', ' '] cs with
    | some rest => read rest
    | none =>
        match eat? ['m', 'u', 't', ' '] cs with
        | some rest => read rest
        | none => .error (.pointerKind, '*' :: cs)) :=
  .eat types (.eat types (.fail _))

theorem follows_typeWith (cs : List Char) :
    Follows input (typeWith type) cs (readTypeWith read cs) := by
  refine (follows_skipSpaces cs).behind ?_
  generalize reading : readTypeWith read cs = x
  unfold readTypeWith at reading
  dsimp only at reading
  generalize Identity.skipSpaces cs = cs at reading ⊢
  refine .eatThen (fun rest eaten => ?_) fun missing => ?_
  · rw [eaten] at reading
    subst reading
    exact follows_extension types rest
  rw [missing] at reading
  dsimp only at reading
  refine .eatThen (fun rest eaten => ?_) fun missing => follows_peek.behind ?_
  · obtain rfl := eq_of_eat? eaten
    subst reading
    exact .pure _
  split at reading
  · cases missing
  · subst reading
    exact follows_tuple types _
  · subst reading
    exact follows_array types _
  · subst reading
    exact follows_reference types _
  · subst reading
    exact follows_pointer types _
  · next tuples arrays references pointers =>
    have other {c : Char} (h : ∀ rest, cs = c :: rest → False) : cs.head? ≠ some c := by
      intro front
      obtain ⟨rest, same⟩ := List.head?_eq_some_iff.mp front
      exact h rest same
    subst reading
    rw [if_neg (other tuples), if_neg (other arrays), if_neg (other references),
      if_neg (other pointers)]
    exact follows_word types cs

end

theorem follows_type (depth : Nat) (cs : List Char) :
    Follows input (Scan.type depth) cs (readType depth cs) := by
  induction depth generalizing cs with
  | zero => exact .fail _
  | succ depth ih => exact follows_typeWith ih cs

/-- What a scan of a whole text follows. -/
def readWhole (cs : List Char) : Except (NameFault × List Char) (Identity × List Char) := do
  let (t, rest) ← readType (cs.length + 1) cs
  let rest := Identity.skipSpaces rest
  if rest.isEmpty then .ok (t, rest) else .error (.trailing, rest)

theorem follows_whole (cs : List Char) : Follows input whole cs (readWhole cs) := by
  refine follows_rest.behind ((follows_type _ cs).bind fun t rest _ => ?_)
  refine (follows_skipSpaces rest).behind (follows_rest.behind ?_)
  dsimp only
  split
  · exact .pure t
  · exact .fail _

end Scan

theorem readAll_eq (cs : List Char) : readAll cs = Prod.fst <$> Scan.readWhole cs := by
  unfold readAll Scan.readWhole
  cases readType (cs.length + 1) cs with
  | error fault => rfl
  | ok found =>
      simp only [bind, Except.bind]
      split <;> rfl

theorem settles_readWhole (cs : List Char) :
    Settles cs (fun _ _ => True) (Scan.readWhole cs) := by
  refine (readsTypes cs (cs.length + 1) cs ⟨List.suffix_refl _, Nat.lt_succ_self _⟩).bind
    fun t rest _ _ => ?_
  refine Settles.behind ?_ (suffix_skipSpaces rest)
  dsimp only
  split
  · exact ⟨List.suffix_refl _, trivial⟩
  · exact ⟨List.suffix_refl _, nofun⟩

/-! ## Where a scan stands -/

section
variable {input : String} {cs rest : List Char} {c c' : Cursor}

theorem Shorter.utf8Size_lt (h : Shorter rest cs) : utf8Size rest < utf8Size cs := by
  obtain ⟨taken, rfl⟩ := h.suffix
  have full : taken ≠ [] := by
    rintro rfl
    exact absurd h.less (Nat.lt_irrefl _)
  rw [utf8Size_append]
  exact Nat.lt_add_of_pos_left (utf8Size_pos full)

namespace Cursor.At

theorem position_eq (h : c.At input cs) :
    c.position = utf8Size input.toList - utf8Size cs := by
  obtain ⟨front, whole, here⟩ := h.place
  rw [whole, utf8Size_append, Nat.add_sub_cancel, here]

theorem bounded (h : c.At input cs) :
    ∀ p ∈ c.positions, p ≤ input.utf8ByteSize ∧ String.Pos.Raw.IsValid input ⟨p⟩ :=
  fun p member => ⟨(h.boundaries p member).le_rawEndPos, h.boundaries p member⟩

/-- In front of fewer characters a cursor stands further on. -/
theorem position_lt (h : c.At input cs) (h' : c'.At input rest) (shorter : Shorter rest cs) :
    c.position < c'.position := by
  obtain ⟨front, whole, here⟩ := h.place
  have size : utf8Size input.toList = utf8Size front + utf8Size cs := by
    rw [whole, utf8Size_append]
  have less := shorter.utf8Size_lt
  rw [h'.position_eq, h.position_eq]
  omega

/-- A type that is scanned within an allowance takes at least one byte, or it is refused. -/
theorem scanned (h : c.At input cs) {depth : Nat} (enough : cs.length < depth) :
    (∃ t c' rest, (Scan.type depth).run c = .ok t c' ∧ c'.At input rest ∧
      c.position < c'.position) ∨
    ∃ fault c' rest, (Scan.type depth).run c = .error (.fault fault) c' ∧ c'.At input rest ∧
      fault ≠ .depth := by
  obtain ⟨front, whole, -⟩ := h.place
  have landed := Scan.follows_type depth cs c h
  have settled := readsTypes input.toList depth cs ⟨⟨front, whole.symm⟩, enough⟩
  generalize readType depth cs = x at landed settled
  generalize (Scan.type depth).run c = r at landed
  cases landed with
  | found there => exact .inl ⟨_, _, _, rfl, there, h.position_lt there settled.2.2⟩
  | fault there => exact .inr ⟨_, _, _, rfl, there, settled.2⟩

end Cursor.At
end

/-- A whole text is scanned as it is read. Wherever the cursor stands, a character of the text
starts or the text ends, so no slice and no counter fails. A text that names no type is reported as
a whole, with the position where the scan stopped. Wherever a type is scanned within an allowance,
the allowance is not used up, and a type that is found takes at least one byte. -/
theorem parse_scanned (input : String) :
    (∃ c : Cursor, (∀ p ∈ c.positions, p ≤ input.utf8ByteSize ∧ String.Pos.Raw.IsValid input ⟨p⟩) ∧
      match parse input with
      | .ok t => Scan.whole.run { input } = .ok t c
      | .error e => Scan.whole.run { input } = .error (.fault e.fault) c ∧
          e.input = input ∧ e.offset = c.position ∧ e.fault ≠ .depth) ∧
    ∀ depth cs (c : Cursor), c.At input cs → cs.length < depth →
      (∃ t c' rest, (Scan.type depth).run c = .ok t c' ∧ c'.At input rest ∧
        c.position < c'.position) ∨
      ∃ fault c' rest, (Scan.type depth).run c = .error (.fault fault) c' ∧ c'.At input rest ∧
        fault ≠ .depth := by
  refine ⟨?_, fun depth cs c here enough => here.scanned enough⟩
  have landed : Lands input _ (Scan.whole.run _) :=
    Scan.follows_whole input.toList _ (Cursor.at_start input)
  have settled := settles_readWhole input.toList
  unfold parse
  dsimp only
  rw [readAll_eq]
  generalize Scan.whole.run _ = r at landed ⊢
  generalize Scan.readWhole input.toList = x at landed settled ⊢
  cases landed with
  | found there => exact ⟨_, there.bounded, rfl⟩
  | fault there => exact ⟨_, there.bounded, rfl, rfl, there.position_eq.symm, settled.2⟩

/-- From the start of a text of one letter, which takes two bytes, a type is found, and its scan
has moved on. -/
theorem parse_scanned_letter :
    Cursor.At "É" ['É'] { input := "É" } ∧ ['É'].length < 2 ∧
      ∃ t c rest, (Scan.type 2).run { input := "É" } = .ok t c ∧ c.At "É" rest ∧
        0 < c.position := by
  have here : Cursor.At "É" ['É'] { input := "É" } := Cursor.at_start "É"
  have enough : ['É'].length < 2 := by decide
  refine ⟨here, enough, ?_⟩
  obtain found | ⟨fault, c, -, stopped, -⟩ := (parse_scanned "É").2 2 ['É'] _ here enough
  · exact found
  · cases stopped

/-- The letter takes two bytes, so the missing argument is reported behind three. -/
example : parse "É<" = .error ⟨"É<", .identifier, 3⟩ := by rfl

end ApiAtlas.Identity
