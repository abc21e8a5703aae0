import ApiAtlas.Identity
import ApiAtlas.Text.Ranges

/-!
# Reading type names

The reader turns the written name of a type into its identity. References, pointers, binders,
calling conventions and the further bounds of a trait object leave no trace; tuples, arrays,
slices and function pointers become types of the root module; a nested dotted name becomes a
chain of parents. A segment in angle brackets in front of further segments is kept as it stands.

Every production takes the characters that are left and returns those behind it. Productions that
hold types take the reader of types as an argument, so only `readType` is recursive; its depth
allowance is one more than the length of the text, and each nested type starts behind at least
one character of its own.
-/
namespace ApiAtlas.Identity

open Decimal (NumeralError isDigit readBelow wordBound)
open Text (isAlphanumeric)

/-- Why a text is no type name. -/
inductive NameFault where
  | expected (token : List Char)
  | pointerKind
  | identifier
  | unbalanced
  | integer (cause : NumeralError)
  | trailing
  /-- The depth allowance is used up. -/
  | depth
  deriving DecidableEq, Repr

namespace NameFault

def message : NameFault → String
  | expected token => "expected '" ++ String.ofList token ++ "'"
  | pointerKind => "expected a raw pointer"
  | identifier => "expected an identifier"
  | unbalanced => "unbalanced '<' in qualified path segment"
  | integer cause => "invalid integer literal: " ++ cause.message
  | trailing => "unexpected trailing input"
  | depth => "nested too deeply"

end NameFault

/-- What is read at the front of some characters and what is left behind it, or a fault and the
characters from its place on. -/
abbrev Read (α : Type) := List Char → Except (NameFault × List Char) (α × List Char)

def eat? : List Char → List Char → Option (List Char)
  | [], cs => some cs
  | _ :: _, [] => none
  | t :: token, c :: cs => if t = c then eat? token cs else none

/-- Drop a token that may stand in front. -/
def eatOptional (token cs : List Char) : List Char := (eat? token cs).getD cs

/-- Drop a token that has to stand in front. -/
def expect (token : List Char) : Read Unit := fun cs =>
  match eat? token cs with
  | some rest => .ok ((), rest)
  | none => .error (.expected token, cs)

def skipSpaces (cs : List Char) : List Char := cs.dropWhile (· = ' ')

/-- Drop everything up to and including a delimiter, and return what stood in front of it. -/
def readUpTo (delimiter : Char) : Read (List Char) := fun cs =>
  match cs.dropWhile (· ≠ delimiter) with
  | _ :: rest => .ok (cs.takeWhile (· ≠ delimiter), rest)
  | [] => .error (.expected [delimiter], cs)

/-- Drop a lifetime and the spaces behind it. -/
def skipLifetime : List Char → List Char
  | '\'' :: rest => skipSpaces (rest.dropWhile fun c => isAlphanumeric c || c = '_')
  | cs => cs

def segmentEnds : List Char :=
  ['.', '<', '>', ',', ':', ';', '(', ')', '[', ']', ' ', '+', '&']

/-- Split behind the angle bracket that closes the one in front. -/
def splitQualified (level : Nat) : List Char → Option (List Char × List Char)
  | [] => none
  | '<' :: rest => (splitQualified (level + 1) rest).map fun (s, r) => ('<' :: s, r)
  | '>' :: rest =>
      if level = 1 then some (['>'], rest)
      else (splitQualified (level - 1) rest).map fun (s, r) => ('>' :: s, r)
  | c :: rest => (splitQualified level rest).map fun (s, r) => (c :: s, r)

/-- A segment: a run of characters that do not end one, or text in balanced angle brackets. -/
def readPlainSegment : Read String := fun cs =>
  match cs with
  | '<' :: _ =>
      match splitQualified 0 cs with
      | some (text, rest) => .ok (String.ofList text, rest)
      | none => .error (.unbalanced, cs)
  | _ =>
      let text := cs.takeWhile fun c => !segmentEnds.contains c
      if text.isEmpty then .error (.identifier, cs)
      else .ok (String.ofList text, cs.drop text.length)

/-- What an unknown context starts with. -/
def unknownContext : List Char :=
  ['(', 'u', 'n', 'k', 'n', 'o', 'w', 'n', ' ', 'c', 'o', 'n', 't', 'e', 'x', 't']

/-- A segment; an unknown context in front of it is skipped together with its dot. -/
def readSegment : Read String := fun cs =>
  if (eat? unknownContext cs).isSome then do
    let (_, cs) ← readUpTo ')' cs
    let ((), cs) ← expect ['.'] cs
    readPlainSegment cs
  else readPlainSegment cs

/-- Segments joined by double colons, the first of them read already. -/
def readFurtherSegments : Nat → Read (List String)
  | 0, cs => .error (.depth, cs)
  | steps + 1, cs =>
      match eat? [':', ':'] cs with
      | none => .ok ([], cs)
      | some cs => do
          let (segment, cs) ← readSegment cs
          let (segments, cs) ← readFurtherSegments steps cs
          .ok (segment :: segments, cs)

/-- A number below `2 ^ 64` as a generic argument. -/
def readLength : Read Parameter := fun cs =>
  let run := cs.takeWhile isDigit
  match readBelow wordBound run with
  | .ok value => .ok (.length (UInt64.ofNat value), cs.dropWhile isDigit)
  | .error cause => .error (.integer cause, cs)

/-- Types between parentheses, behind the opening one. A trailing comma is allowed; so are three
dots in last place, if the list is variadic. -/
def readArguments (readType : Read Identity) (variadic : Bool) : Nat → Read (List Parameter)
  | 0, cs => .error (.depth, cs)
  | steps + 1, cs =>
      let cs := skipSpaces cs
      match eat? [')'] cs with
      | some rest => .ok ([], rest)
      | none =>
          match if variadic then eat? ['.', '.', '.'] cs else none with
          | some rest => do
              let ((), rest) ← expect [')'] (skipSpaces rest)
              .ok ([], rest)
          | none => do
              let (identity, cs) ← readType cs
              let cs := skipSpaces cs
              match eat? [','] cs with
              | some cs => do
                  let (parameters, cs) ← readArguments readType variadic steps cs
                  .ok (.type identity :: parameters, cs)
              | none => do
                  let ((), cs) ← expect [')'] cs
                  .ok ([.type identity], cs)

/-- One generic argument; a lifetime is none. -/
def readGeneric (readType : Read Identity) : Read (Option Parameter) := fun cs =>
  match cs with
  | '\'' :: _ => .ok (none, skipLifetime cs)
  | c :: _ =>
      if isDigit c then do
        let (parameter, cs) ← readLength cs
        .ok (some parameter, cs)
      else do
        let (identity, cs) ← readType cs
        .ok (some (.type identity), cs)
  | [] => do
      let (identity, cs) ← readType cs
      .ok (some (.type identity), cs)

/-- Generic arguments, behind the opening bracket. A trailing comma is allowed. -/
def readGenerics (readType : Read Identity) : Nat → Read (List Parameter)
  | 0, cs => .error (.depth, cs)
  | steps + 1, cs =>
      let cs := skipSpaces cs
      match eat? ['>'] cs with
      | some rest => .ok ([], rest)
      | none => do
          let (parameter, cs) ← readGeneric readType cs
          let cs := skipSpaces cs
          match eat? [','] cs with
          | some cs => do
              let (parameters, cs) ← readGenerics readType steps cs
              .ok (parameter.toList ++ parameters, cs)
          | none => do
              let ((), cs) ← expect ['>'] cs
              .ok (parameter.toList, cs)

/-- A tuple, behind the opening parenthesis. -/
def readTuple (readType : Read Identity) : Read Identity := fun cs => do
  let (parameters, cs) ← readArguments readType false (cs.length + 1) cs
  .ok (coloned rootModule "Tuple" parameters, cs)

/-- A function pointer, behind the opening parenthesis: its arguments and its result. -/
def readFunction (readType : Read Identity) : Read Identity := fun cs => do
  let (parameters, cs) ← readArguments readType true (cs.length + 1) cs
  let cs := skipSpaces cs
  match eat? ['-', '>'] cs with
  | some cs => do
      let (result, cs) ← readType cs
      .ok (coloned rootModule "Fn" (parameters ++ [.type result]), cs)
  | none => .ok (coloned rootModule "Fn" (parameters ++ [.type (root "Void")]), cs)

/-- An array or a slice, behind the opening bracket. -/
def readArray (readType : Read Identity) : Read Identity := fun cs => do
  let (element, cs) ← readType cs
  let cs := skipSpaces cs
  match eat? [';'] cs with
  | some cs => do
      let (length, cs) ← readLength (skipSpaces cs)
      let ((), cs) ← expect [']'] (skipSpaces cs)
      .ok (coloned rootModule "Array" [.type element, length], cs)
  | none => do
      let ((), cs) ← expect [']'] cs
      .ok (coloned rootModule "Slice" [.type element], cs)

/-- Further bounds of a trait object, each behind a plus sign; they are read and dropped. -/
def skipBounds (readType : Read Identity) : Nat → Read Unit
  | 0, cs => .error (.depth, cs)
  | steps + 1, cs =>
      let cs := skipSpaces cs
      match eat? ['+'] cs with
      | none => .ok ((), cs)
      | some cs =>
          match skipSpaces cs with
          | '\'' :: rest => skipBounds readType steps (skipLifetime ('\'' :: rest))
          | cs => do
              let (_, cs) ← readType cs
              skipBounds readType steps cs

/-- A trait object, behind its keyword: the first bound stands for it. -/
def readTraitObject (readType : Read Identity) : Read Identity := fun cs => do
  let (principal, cs) ← readType cs
  let ((), cs) ← skipBounds readType (cs.length + 1) cs
  .ok (principal, cs)

/-- Arguments and nested names behind a name. Arguments that follow arguments replace them; a
name behind a dot is nested in what was read so far. -/
def readNested (readType : Read Identity) : Nat → Identity → Read Identity
  | 0, _, cs => .error (.depth, cs)
  | steps + 1, t, cs =>
      match eat? ['<'] cs with
      | some cs => do
          let (parameters, cs) ← readGenerics readType (cs.length + 1) cs
          readNested readType steps { t with parameters } cs
      | none =>
          match eat? ['.'] cs with
          | some cs => do
              let (name, cs) ← readSegment cs
              readNested readType steps ⟨t.module, some t, name, [], t.style⟩ cs
          | none => .ok (t, cs)

/-- Names that denote a type of the root module wherever they stand alone. -/
def isReserved (name : String) : Bool := name = "Any" || name = "Void"

/-- The module whose reserved names lose it. -/
def standardModule : String := "Swift"

/-- Whether nothing is nested in a name or applied to it. -/
def endsName : List Char → Bool
  | '.' :: _ => false
  | '<' :: _ => false
  | _ => true

/-- A name with its module, arguments and nested names. -/
def readPath (readType : Read Identity) : Read Identity := fun cs => do
  let (first, cs) ← readSegment cs
  let (further, cs) ← readFurtherSegments (cs.length + 1) cs
  let nested := fun (module name : String) (style : PathStyle) (cs : List Char) =>
    readNested readType (cs.length + 1) ⟨module, none, name, [], style⟩ cs
  match further.getLast? with
  | some name => nested ("::".intercalate (first :: further.dropLast)) name .coloned cs
  | none =>
      match eat? ['.'] cs with
      | some cs => do
          let (name, cs) ← readSegment cs
          if first = standardModule && isReserved name && endsName cs then .ok (root name, cs)
          else nested first name .dotted cs
      | none =>
          if isReserved first then .ok (root first, cs)
          else nested rootModule first .coloned cs

/-- What an extension starts with. -/
def extensionFront : List Char :=
  ['(', 'e', 'x', 't', 'e', 'n', 's', 'i', 'o', 'n', ' ', 'i', 'n', ' ']

/-- A type of an extension, behind its front: the extended type moves to the named module. -/
def readExtension (readType : Read Identity) : Read Identity := fun cs => do
  let (module, cs) ← readUpTo ')' cs
  let ((), cs) ← expect [':'] cs
  let (extended, cs) ← readType cs
  .ok ({ extended with module := String.ofList module }, cs)

/-- A type that starts with a word, or a path. -/
def readWord (readType : Read Identity) : Read Identity := fun cs =>
  match eat? ['f', 'o', 'r', '<'] cs with
  | some rest => do
      let (_, rest) ← readUpTo '>' rest
      readType rest
  | none =>
  match eat? ['u', 'n', 's', 'a', 'f', 'e', ' '] cs with
  | some rest => readType rest
  | none =>
  match eat? ['e', 'x', 't', 'e', 'r', 'n', ' '] cs with
  | some rest =>
      match eat? ['"'] rest with
      | some rest => do
          let (_, rest) ← readUpTo '"' rest
          readType rest
      | none => readType rest
  | none =>
  match eat? ['f', 'n', '('] cs with
  | some rest => readFunction readType rest
  | none =>
  match eat? ['d', 'y', 'n', ' '] cs with
  | some rest => readTraitObject readType rest
  | none => readPath readType cs

/-- A type, given the reader of the types inside it. -/
def readTypeWith (readType : Read Identity) : Read Identity := fun cs =>
  let cs := skipSpaces cs
  match eat? extensionFront cs with
  | some rest => readExtension readType rest
  | none =>
      match cs with
      | '(' :: ')' :: rest => .ok (root "Void", rest)
      | '(' :: rest => readTuple readType rest
      | '[' :: rest => readArray readType rest
      | '&' :: rest => readType (eatOptional ['m', 'u', 't', ' '] (skipLifetime rest))
      | '*' :: rest =>
          match eat? ['c', 'o', 'n', 's', 't', ' '] rest with
          | some rest => readType rest
          | none =>
              match eat? ['m', 'u', 't', ' '] rest with
              | some rest => readType rest
              | none => .error (.pointerKind, cs)
      | cs => readWord readType cs

/-- A type whose nesting is within an allowance. -/
def readType : Nat → Read Identity
  | 0, cs => .error (.depth, cs)
  | depth + 1, cs => readTypeWith (readType depth) cs

/-- A whole text as a type name: nothing but spaces may follow the type. -/
def readAll (cs : List Char) : Except (NameFault × List Char) Identity := do
  let (t, rest) ← readType (cs.length + 1) cs
  let rest := skipSpaces rest
  if rest.isEmpty then .ok t else .error (.trailing, rest)

/-- A text that is no type name, with the fault and the number of bytes in front of it. -/
structure MalformedName where
  input : String
  fault : NameFault
  offset : Nat
  deriving DecidableEq, Repr

def MalformedName.message (e : MalformedName) : String :=
  "Malformed type name '" ++ e.input ++ "': " ++ e.fault.message ++ " at offset " ++
    Decimal.numeral e.offset

def utf8Size (cs : List Char) : Nat := cs.foldr (fun c n => c.utf8Size + n) 0

/-- The identity that a text names. -/
def parse (input : String) : Except MalformedName Identity :=
  let cs := input.toList
  match readAll cs with
  | .ok t => .ok t
  | .error (fault, rest) => .error ⟨input, fault, utf8Size cs - utf8Size rest⟩

/-- The identity that a text names; a text that names none is taken for an opaque root type. -/
def parseLossy (input : String) : Identity :=
  match parse input with
  | .ok t => t
  | .error _ => root input

end ApiAtlas.Identity
