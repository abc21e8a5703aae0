import ApiAtlas.Decimal.Numeral
import ApiAtlas.Decimal.Binary64
import ApiAtlas.Json.Printer

/-!
# YAML scalars

A text is written plainly when a reader takes it for that text and no character of it means
anything else where it stands. Otherwise it is put in single quotes; in double quotes, with
escapes, when it holds characters that cannot be shown; and line by line when it has several
lines.
-/
namespace ApiAtlas.Yaml

open Decimal (isDigit valueOf Binary64)

/-- The four ways of writing a text. -/
inductive ScalarStyle where
  | plain
  | singleQuoted
  | doubleQuoted
  | literal
  deriving DecidableEq, Repr

/-- Characters that end a line. -/
def isBreak (c : Char) : Bool :=
  c = '\n' || c = '\r' || c = '\u0085' || c = '\u2028' || c = '\u2029'

/-- Characters that may be shown outside double quotes. -/
def isShown (c : Char) : Bool :=
  let n := c.toNat
  c = '\n' || (0x20 ≤ n && n ≤ 0x7e) || (0xa0 ≤ n && n ≤ 0xfffd && n ≠ 0xfeff)

/-- Blanks, line ends and the null character. -/
def isGap (c : Char) : Bool := c = ' ' || c = '\t' || c = '\x00' || isBreak c

/-- Characters that start something other than a plain text. -/
def indicators : List Char :=
  ['#', ',', '[', ']', '\x7b', '\x7d', '&', '*', '!', '|', '>', '\'', '"', '%', '@', '\x60']

/-- Whether two characters with these properties stand side by side. -/
def adjacent (first second : Char → Bool) (cs : List Char) : Bool :=
  (cs.zip cs.tail).any fun pair => first pair.1 && second pair.2

/-- Whether a character with this property stands last or in front of a gap. -/
def beforeGap (p : Char → Bool) (cs : List Char) : Bool :=
  adjacent p isGap cs || cs.getLast?.any p

/-- Whether the text starts like a marker of a document. -/
def startsDocument : List Char → Bool
  | '-' :: '-' :: '-' :: _ => true
  | '.' :: '.' :: '.' :: _ => true
  | _ => false

/-- Whether some character means something else where it stands. -/
def hasIndicator (cs : List Char) : Bool :=
  startsDocument cs ||
    (match cs with
    | [] => false
    | c :: rest =>
        indicators.contains c ||
          ((c = '?' || c = '-') && (rest.head?.all isGap)) ||
          beforeGap (· = ':') cs ||
          adjacent isGap (· = '#') cs)

/-- A text of several lines. -/
def isMultiline (cs : List Char) : Bool := cs.any isBreak

/-- A text of which no reader could tell blanks from line ends, or with hidden characters. -/
def needsEscapes (cs : List Char) : Bool :=
  cs.any (fun c => !isShown c) || adjacent (· = ' ') isBreak cs

def allowsPlain (cs : List Char) : Bool :=
  !(needsEscapes cs || isMultiline cs || hasIndicator cs || cs.head? = some ' ' ||
    cs.getLast? = some ' ')

def allowsSingle (cs : List Char) : Bool :=
  !(needsEscapes cs || adjacent isBreak (· = ' ') cs)

/-- Whether the text may be written line by line. -/
def allowsLiteral (cs : List Char) : Bool :=
  !(cs.isEmpty || needsEscapes cs || cs.getLast? = some ' ')

/-- The value of a digit up to `f`. -/
def radixValue? (radix : Nat) (c : Char) : Option Nat :=
  let value? :=
    if isDigit c then some (c.toNat - 48)
    else if 'a' ≤ c ∧ c ≤ 'f' then some (c.toNat - 87)
    else if 'A' ≤ c ∧ c ≤ 'F' then some (c.toNat - 55)
    else none
  value?.filter (· < radix)

/-- The value of a nonempty run of digits. -/
def radixNumber? (radix : Nat) (cs : List Char) : Option Nat :=
  if cs.isEmpty then none
  else cs.foldl (fun n c => do some (radix * (← n) + (← radixValue? radix c))) (some 0)

/-- Whether digits follow a leading zero, so that the text is no number. -/
def hasLeadingZero (cs : List Char) : Bool :=
  let body := match cs with
    | '-' :: rest => rest
    | '+' :: rest => rest
    | rest => rest
  match body with
  | '0' :: d :: rest => (d :: rest).all isDigit
  | _ => false

/-- Whether a magnitude is a number of at most `limit`, in one of four radices. -/
def isNumeralUpTo (limit : Nat) (cs : List Char) : Bool :=
  let number? := match cs with
    | '0' :: 'x' :: rest => radixNumber? 16 rest
    | '0' :: 'o' :: rest => radixNumber? 8 rest
    | '0' :: 'b' :: rest => radixNumber? 2 rest
    | cs => if hasLeadingZero cs then none else radixNumber? 10 cs
  number?.any (· ≤ limit)

/-- Whether a text reads as a whole number of 128 bits. -/
def isWhole : List Char → Bool
  | '+' :: rest => isNumeralUpTo (Nat.pow 2 128 - 1) rest
  | '-' :: rest => isNumeralUpTo (Nat.pow 2 127) rest
  | cs => isNumeralUpTo (Nat.pow 2 128 - 1) cs

/-- Whether digits times a power of ten round to a finite number. -/
def staysFinite (mantissa : List Char) (exponent : Int) : Bool :=
  let value := valueOf mantissa
  if value = 0 then true
  else
    let top := ((Decimal.digits value).length : Int) + exponent
    if top < 308 then true
    else if 310 < top then false
    else
      let x := if 0 ≤ exponent then Binary64.ofRatio false (value * Nat.pow 10 exponent.toNat) 1
        else Binary64.ofRatio false value (Nat.pow 10 (-exponent).toNat)
      x.isFinite

/-- The exponent behind its mark; no mark means none. -/
def exponentOf? : List Char → Option Int
  | [] => some 0
  | mark :: rest =>
      if mark ≠ 'e' && mark ≠ 'E' then none
      else
        let (down, run) := match rest with
          | '-' :: run => (true, run)
          | '+' :: run => (false, run)
          | run => (false, run)
        if run.isEmpty || !run.all isDigit then none
        else some (if down then -(valueOf run : Int) else valueOf run)

/-- Whether an unsigned text is a finite number in positional or scientific notation. -/
def isFiniteNumber (cs : List Char) : Bool :=
  let whole := cs.takeWhile isDigit
  let rest := cs.dropWhile isDigit
  let (fraction, rest) := match rest with
    | '.' :: rest => (rest.takeWhile isDigit, rest.dropWhile isDigit)
    | rest => ([], rest)
  if whole.isEmpty && fraction.isEmpty then false
  else
    match exponentOf? rest with
    | none => false
    | some exponent => staysFinite (whole ++ fraction) (exponent - fraction.length)

def isFloating (text : String) : Bool :=
  [".inf", ".Inf", ".INF", "+.inf", "+.Inf", "+.INF", "-.inf", "-.Inf", "-.INF", ".nan", ".NaN",
    ".NAN"].contains text ||
    (!hasLeadingZero text.toList &&
      match text.toList with
      | '+' :: rest => isFiniteNumber rest
      | '-' :: rest => isFiniteNumber rest
      | cs => isFiniteNumber cs)

/-- An ASCII letter in lower case. -/
def lowerAscii (c : Char) : Char :=
  if 'A' ≤ c ∧ c ≤ 'Z' then Char.ofNat (c.toNat + 32) else c

/-- Whether a reader would take the text for something else: null, a truth value in any case, a
number, or a number with leading zeros. -/
def isMistakable (text : String) : Bool :=
  let lower := String.ofList (text.toList.map lowerAscii)
  text.isEmpty || ["null", "~", "true", "false"].contains lower || hasLeadingZero text.toList ||
    isWhole text.toList || isFloating text

/-- The style of a text, in a place where a key stands on one line or anywhere else. -/
def styleOf (text : String) : ScalarStyle :=
  let cs := text.toList
  if cs.contains '\n' then if allowsLiteral cs then .literal else .doubleQuoted
  else if !isMistakable text && allowsPlain cs then .plain
  else if allowsSingle cs then .singleQuoted
  else .doubleQuoted

def blanks (width : Nat) : List Char := List.replicate width ' '

/-- Characters between single quotes: a quote is doubled, and a line that was broken goes on
behind the indentation. -/
def singleBody (indent : Nat) (broken : Bool) : List Char → List Char
  | [] => if broken then blanks indent else []
  | c :: rest =>
      if isBreak c then c :: singleBody indent true rest
      else
        (if broken then blanks indent else []) ++ (if c = '\'' then ['\'', '\''] else [c]) ++
          singleBody indent false rest

/-- Hexadecimal digits of fixed width, in upper case. -/
def hexOfWidth (width n : Nat) : List Char :=
  (List.range width).reverse.map fun place =>
    let d := n / Nat.pow 16 place % 16
    if d < 10 then Decimal.digitChar d else Char.ofNat (55 + d)

/-- A character between double quotes. -/
def doubleChar (c : Char) : List Char :=
  let n := c.toNat
  if isShown c && !isBreak c && c ≠ '"' && c ≠ '\\' then [c]
  else '\\' :: match n with
    | 0x00 => ['0']
    | 0x07 => ['a']
    | 0x08 => ['b']
    | 0x09 => ['t']
    | 0x0a => ['n']
    | 0x0b => ['v']
    | 0x0c => ['f']
    | 0x0d => ['r']
    | 0x1b => ['e']
    | 0x22 => ['"']
    | 0x5c => ['\\']
    | 0x85 => ['N']
    | 0x2028 => ['L']
    | 0x2029 => ['P']
    | _ =>
        if n ≤ 0xff then 'x' :: hexOfWidth 2 n
        else if n ≤ 0xffff then 'u' :: hexOfWidth 4 n
        else 'U' :: hexOfWidth 8 n

/-- How the header of a literal text tells its indentation and its last line ends. -/
def literalHints (cs : List Char) : List Char :=
  let indentation := if cs.head?.any (fun c => c = ' ' || isBreak c) then ['2'] else []
  let chomping := match cs.reverse with
    | [] => ['-']
    | [last] => if isBreak last then ['+'] else ['-']
    | last :: before :: _ =>
        if !isBreak last then ['-'] else if isBreak before then ['+'] else []
  indentation ++ chomping

/-- The lines of a literal text, each behind the indentation unless it is empty. -/
def literalBody (indent : Nat) (broken : Bool) : List Char → List Char
  | [] => []
  | c :: rest =>
      if isBreak c then c :: literalBody indent true rest
      else (if broken then blanks indent else []) ++ c :: literalBody indent false rest

/-- A text as a scalar, with the indentation of its further lines. -/
def scalarChars (indent : Nat) (text : String) : List Char :=
  let cs := text.toList
  match styleOf text with
  | .plain => cs
  | .singleQuoted => '\'' :: (singleBody indent false cs ++ ['\''])
  | .doubleQuoted => '"' :: (cs.flatMap doubleChar ++ ['"'])
  | .literal => '|' :: (literalHints cs ++ '\n' :: literalBody indent true cs)

/-- Whether a text can be a key in front of its value: one line of at most 128 bytes. -/
def isShortKey (text : String) : Bool :=
  !isMultiline text.toList && text.utf8ByteSize ≤ 128

end ApiAtlas.Yaml
