import ApiAtlas.Json.Numeric

/-!
# Reading JSON

A reader over characters. Of two members with one name the later counts, and members come out
ascending by name. The depth of recursion is bounded by the length of the text, since every
nested value stands behind a bracket.
-/
namespace ApiAtlas.Json

open Decimal (isDigit digitValue)

def skipBlanks (cs : List Char) : List Char :=
  cs.dropWhile fun c => c = ' ' || c = '\n' || c = '\t' || c = '\r'

def hexValue? (c : Char) : Option Nat :=
  if isDigit c then some (digitValue c)
  else if 'a' ≤ c ∧ c ≤ 'f' then some (c.toNat - 87)
  else if 'A' ≤ c ∧ c ≤ 'F' then some (c.toNat - 55)
  else none

/-- Four hexadecimal digits. -/
def readUnit? : List Char → Option (Nat × List Char)
  | a :: b :: c :: d :: rest => do
      let a ← hexValue? a
      let b ← hexValue? b
      let c ← hexValue? c
      let d ← hexValue? d
      some (((16 * a + b) * 16 + c) * 16 + d, rest)
  | _ => none

/-- The character of a unit, or of a high unit and the low one that follows. -/
def readEscapedUnit? (cs : List Char) : Option (Char × List Char) := do
  let (unit, rest) ← readUnit? cs
  if 0xd800 ≤ unit ∧ unit < 0xdc00 then
    match rest with
    | '\\' :: 'u' :: rest => do
        let (low, rest) ← readUnit? rest
        if 0xdc00 ≤ low ∧ low < 0xe000 then
          some (Char.ofNat (0x10000 + (unit - 0xd800) * 0x400 + (low - 0xdc00)), rest)
        else none
    | _ => none
  else if 0xdc00 ≤ unit ∧ unit < 0xe000 then none
  else some (Char.ofNat unit, rest)

/-- The characters up to the closing quote, escapes resolved, with the text read so far in
reverse. -/
def readQuoted? : Nat → List Char → List Char → Option (String × List Char)
  | 0, _, _ => none
  | _ + 1, _, [] => none
  | steps + 1, done, c :: rest =>
      if c = '"' then some (String.ofList done.reverse, rest)
      else if c = '\\' then
        match rest with
        | 'n' :: rest => readQuoted? steps ('\n' :: done) rest
        | 't' :: rest => readQuoted? steps ('\t' :: done) rest
        | 'r' :: rest => readQuoted? steps ('\r' :: done) rest
        | 'b' :: rest => readQuoted? steps ('\x08' :: done) rest
        | 'f' :: rest => readQuoted? steps ('\x0c' :: done) rest
        | 'u' :: rest =>
            match readEscapedUnit? rest with
            | some (c, rest) => readQuoted? steps (c :: done) rest
            | none => none
        | c :: rest =>
            if c = '"' || c = '\\' || c = '/' then readQuoted? steps (c :: done) rest else none
        | [] => none
      else readQuoted? steps (c :: done) rest

/-- The text behind an opening quote. -/
def readText? (cs : List Char) : Option (String × List Char) :=
  readQuoted? (cs.length + 1) [] cs

def dropWord? : List Char → List Char → Option (List Char)
  | [], cs => some cs
  | w :: word, c :: cs => if w = c then dropWord? word cs else none
  | _ :: _, [] => none

mutual

def readValue? : Nat → List Char → Option (Json × List Char)
  | 0, _ => none
  | depth + 1, cs =>
      match skipBlanks cs with
      | '\x7b' :: rest =>
          match skipBlanks rest with
          | '\x7d' :: rest => some (object [], rest)
          | rest => readMembers? depth [] rest
      | '[' :: rest =>
          match skipBlanks rest with
          | ']' :: rest => some (array [], rest)
          | rest => readItems? depth [] rest
      | '"' :: rest => (readText? rest).map fun (text, rest) => (string text, rest)
      | 'n' :: rest => (dropWord? ['u', 'l', 'l'] rest).map fun rest => (null, rest)
      | 't' :: rest => (dropWord? ['r', 'u', 'e'] rest).map fun rest => (bool true, rest)
      | 'f' :: rest => (dropWord? ['a', 'l', 's', 'e'] rest).map fun rest => (bool false, rest)
      | cs =>
          match readNumber cs with
          | .ok (value, rest) => some (number value, rest)
          | .error _ => none

/-- Read items up to the closing bracket, with those read so far in reverse. -/
def readItems? : Nat → List Json → List Char → Option (Json × List Char)
  | 0, _, _ => none
  | depth + 1, done, cs =>
      match readValue? depth cs with
      | none => none
      | some (item, rest) =>
          match skipBlanks rest with
          | ',' :: rest => readItems? depth (item :: done) rest
          | ']' :: rest => some (array (item :: done).reverse, rest)
          | _ => none

/-- Read members up to the closing brace. -/
def readMembers? : Nat → List (String × Json) → List Char → Option (Json × List Char)
  | 0, _, _ => none
  | depth + 1, done, cs =>
      match skipBlanks cs with
      | '"' :: rest =>
          match readText? rest with
          | none => none
          | some (name, rest) =>
              match skipBlanks rest with
              | ':' :: rest =>
                  match readValue? depth rest with
                  | none => none
                  | some (value, rest) =>
                      let done := Table.insert done name value
                      match skipBlanks rest with
                      | ',' :: rest => readMembers? depth done rest
                      | '\x7d' :: rest => some (object done, rest)
                      | _ => none
              | _ => none
      | _ => none

end

/-- The value of a text that holds one value and blanks. -/
def read? (text : String) : Option Json :=
  let cs := text.toList
  match readValue? (2 * cs.length + 2) cs with
  | some (value, rest) => if (skipBlanks rest).isEmpty then some value else none
  | none => none

end ApiAtlas.Json
