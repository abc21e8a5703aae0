import ApiAtlas.Text.Ranges
import ApiAtlas.Decimal.Numeral

/-!
# Quoted text in messages

A text shown in a message stands in double quotes. Quotes and backslashes get a backslash, four
controls have names, and every character without an image of its own is named by its code point
in hexadecimal.
-/
namespace ApiAtlas.Text

open Decimal (digitChar)

/-- The hexadecimal digits of a number, without leading zeros. -/
def hexDigits (n : Nat) : List Char :=
  if n < 16 then [hexChar n] else hexDigits (n / 16) ++ [hexChar (n % 16)]
termination_by n
decreasing_by omega
where
  /-- One lower-case hexadecimal digit. -/
  hexChar (d : Nat) : Char := if d < 10 then digitChar d else Char.ofNat (87 + d)

/-- A character between quotes. -/
def showChar (c : Char) : List Char :=
  if c = '\x00' then ['\\', '0']
  else if c = '\t' then ['\\', 't']
  else if c = '\r' then ['\\', 'r']
  else if c = '\n' then ['\\', 'n']
  else if c = '"' then ['\\', '"']
  else if c = '\\' then ['\\', '\\']
  else if isHidden c then ['\\', 'u', '\x7b'] ++ hexDigits c.toNat ++ ['\x7d']
  else [c]

def quoted (text : String) : String :=
  String.ofList ('"' :: (text.toList.flatMap showChar ++ ['"']))

end ApiAtlas.Text
