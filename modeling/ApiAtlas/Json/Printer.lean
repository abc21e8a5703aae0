import ApiAtlas.Json
import ApiAtlas.Decimal.Shortest

/-!
# Written JSON

Two layouts: compact, without any blank, and indented by two spaces a level, where an empty
array or object stays closed. Quotes, backslashes and controls are escaped; every other
character stands for itself.
-/
namespace ApiAtlas.Json

open Decimal (Layout digitChar numeral intNumeral)

/-- A floating number has `.0` or an exponent; the exponent is used from `1e16` up and below
`1e-5`. -/
def numberLayout : Layout := ⟨some (-4), some 16, "e"⟩

def hexDigit (n : Nat) : Char := if n < 10 then digitChar n else Char.ofNat (87 + n)

/-- A character inside quotes. -/
def escapeChar (c : Char) : List Char :=
  if c = '"' then ['\\', '"']
  else if c = '\\' then ['\\', '\\']
  else if c = '\n' then ['\\', 'n']
  else if c = '\r' then ['\\', 'r']
  else if c = '\t' then ['\\', 't']
  else if c = '\x08' then ['\\', 'b']
  else if c = '\x0c' then ['\\', 'f']
  else if c.toNat < 32 then
    ['\\', 'u', '0', '0', hexDigit (c.toNat / 16), hexDigit (c.toNat % 16)]
  else [c]

def quote (text : String) : String :=
  String.ofList ('"' :: (text.toList.flatMap escapeChar ++ ['"']))

def numberText : JsonNumber → String
  | .whole value => intNumeral value
  | .floating value => if value.isFinite then numberLayout.write value else "null"

mutual

/-- A value without blanks. -/
def compact : Json → String
  | null => "null"
  | bool value => if value then "true" else "false"
  | number value => numberText value
  | string value => quote value
  | array items => "[" ++ ",".intercalate (compactItems items) ++ "]"
  | object members => "\x7b" ++ ",".intercalate (compactMembers members) ++ "\x7d"

def compactItems : List Json → List String
  | [] => []
  | item :: rest => compact item :: compactItems rest

def compactMembers : List (String × Json) → List String
  | [] => []
  | (name, value) :: rest => (quote name ++ ":" ++ compact value) :: compactMembers rest

end

/-- The blanks in front of a line at a level. -/
def indentation (level : Nat) : String := String.ofList (List.replicate (2 * level) ' ')

/-- Lines one level deeper between brackets; nothing between them if there are no lines. -/
def bracketed (level : Nat) (opening closing : String) (lines : List String) : String :=
  if lines.isEmpty then opening ++ closing
  else
    let front := "\n" ++ indentation (level + 1)
    opening ++ front ++ ("," ++ front).intercalate lines ++ "\n" ++ indentation level ++ closing

mutual

/-- A value whose members and items stand on lines of their own. -/
def indented (level : Nat) : Json → String
  | null => "null"
  | bool value => if value then "true" else "false"
  | number value => numberText value
  | string value => quote value
  | array items => bracketed level "[" "]" (indentedItems (level + 1) items)
  | object members => bracketed level "\x7b" "\x7d" (indentedMembers (level + 1) members)

def indentedItems (level : Nat) : List Json → List String
  | [] => []
  | item :: rest => indented level item :: indentedItems level rest

def indentedMembers (level : Nat) : List (String × Json) → List String
  | [] => []
  | (name, value) :: rest =>
      (quote name ++ ": " ++ indented level value) :: indentedMembers level rest

end

end ApiAtlas.Json
