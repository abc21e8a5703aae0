import ApiAtlas.Json
import ApiAtlas.Decimal.Numeral

/-!
# Reading JSON numbers

Numbers that fit a signed or unsigned 64-bit word stay whole; others are floating, built from the
leading digits that fit a word and one correctly rounded product or quotient with a power of ten.
A fault comes with the characters from the offending one on.
-/
namespace ApiAtlas.Json

open Decimal (Binary64 digitValue isDigit wordBound)

/-- Why a text is no number. -/
inductive NumberFault where
  /-- The text ended where a digit was due. -/
  | endOfText
  /-- A digit was due, or a second one after a leading zero was not. -/
  | invalid
  /-- The number is beyond every finite floating number. -/
  | outOfRange
  deriving DecidableEq, Repr

def NumberFault.message : NumberFault → String
  | .endOfText => "EOF while parsing a value"
  | .invalid => "invalid number"
  | .outOfRange => "number out of range"

/-- A number and the characters after it, or a fault and the characters it was noticed at. -/
abbrev NumberResult := Except (NumberFault × List Char) (JsonNumber × List Char)

/-- The power of ten `10 ^ n` as a floating number. -/
def powerOfTen (n : Nat) : Binary64 := Binary64.ofNat (Nat.pow 10 n)

/-- Divide by `10 ^ exponent` in steps of at most `1e308`. Two steps leave nothing of a word, so
the number of steps is bounded. -/
def divideByTen : Nat → Nat → Binary64 → Binary64
  | 0, _, _ => ⟨0⟩
  | steps + 1, exponent, x =>
      if exponent ≤ 308 then x.dividedBy (powerOfTen exponent)
      else if x.isZero then x
      else divideByTen steps (exponent - 308) (x.dividedBy (powerOfTen 308))

/-- Scale a word by a power of ten; nothing is the answer when the product is too great. -/
def scaleByTen (significand : Nat) (exponent : Int) : Option Binary64 :=
  let x := Binary64.ofNat significand
  if exponent < 0 then some (divideByTen 4 (-exponent).toNat x)
  else if x.isZero then some x
  else if 308 < exponent then none
  else
    let product := x.times (powerOfTen exponent.toNat)
    if product.isFinite then some product else none

def signed (negative : Bool) (x : Binary64) : Binary64 := if negative then x.neg else x

def finishFloating (negative : Bool) (significand : Nat) (exponent : Int) (rest : List Char) :
    NumberResult :=
  match scaleByTen significand exponent with
  | some value => .ok (.floating (signed negative value), rest)
  | none => .error (.outOfRange, rest)

/-- The fault of a digit that is due at these characters. -/
def digitDue (cs : List Char) : NumberFault × List Char :=
  if cs.isEmpty then (.endOfText, cs) else (.invalid, cs)

/-- Add up the digits of an exponent; it stops, with no value, behind the digit that takes it
past 31 bits. -/
def readPower : Nat → List Char → Option Nat × List Char
  | power, [] => (some power, [])
  | power, c :: rest =>
      if !isDigit c then (some power, c :: rest)
      else
        let next := 10 * power + digitValue c
        if Nat.pow 2 31 ≤ next then (none, rest) else readPower next rest

def readExponent (negative : Bool) (significand : Nat) (start : Int) (cs : List Char) :
    NumberResult :=
  let (down, cs) := match cs with
    | '+' :: rest => (false, rest)
    | '-' :: rest => (true, rest)
    | rest => (false, rest)
  if !cs.head?.any isDigit then .error (digitDue cs)
  else
    match readPower 0 cs with
    | (some power, rest) =>
        finishFloating negative significand (if down then start - power else start + power) rest
    | (none, rest) =>
        if significand ≠ 0 && !down then .error (.outOfRange, rest)
        else .ok (.floating (signed negative ⟨0⟩), rest.dropWhile isDigit)

def readOptionalExponent (negative : Bool) (significand : Nat) (exponent : Int) (cs : List Char) :
    NumberResult :=
  match cs with
  | 'e' :: rest => readExponent negative significand exponent rest
  | 'E' :: rest => readExponent negative significand exponent rest
  | rest => finishFloating negative significand exponent rest

/-- Add digits to a significand while it fits a word: the significand, the number of digits
taken and what follows them. -/
def takeSignificand : Nat → Nat → List Char → Nat × Nat × List Char
  | significand, taken, [] => (significand, taken, [])
  | significand, taken, c :: rest =>
      if isDigit c && decide (10 * significand + digitValue c < wordBound)
      then takeSignificand (10 * significand + digitValue c) (taken + 1) rest
      else (significand, taken, c :: rest)

def readFraction (negative : Bool) (significand : Nat) (exponent : Int) (cs : List Char) :
    NumberResult :=
  let (significand, taken, rest) := takeSignificand significand 0 cs
  if rest.head?.any isDigit then
    readOptionalExponent negative significand (exponent - taken) (rest.dropWhile isDigit)
  else if taken = 0 then .error (digitDue rest)
  else readOptionalExponent negative significand (exponent - taken) rest

def readAfterWhole (negative : Bool) (significand : Nat) (cs : List Char) : NumberResult :=
  match cs with
  | '.' :: rest => readFraction negative significand 0 rest
  | 'e' :: rest => readExponent negative significand 0 rest
  | 'E' :: rest => readExponent negative significand 0 rest
  | rest =>
      if !negative then .ok (.whole significand, rest)
      else if significand = 0 || decide (Nat.pow 2 63 < significand) then
        .ok (.floating (Binary64.neg (Binary64.ofNat significand)), rest)
      else .ok (.whole (-(significand : Int)), rest)

/-- Read the rest of a whole part that does not fit a word: each digit counts as a power. -/
def readLongWhole (negative : Bool) (significand : Nat) (cs : List Char) : NumberResult :=
  let skipped : Int := (cs.takeWhile isDigit).length
  match cs.dropWhile isDigit with
  | '.' :: rest => readFraction negative significand skipped rest
  | rest => readOptionalExponent negative significand skipped rest

def readNumber (cs : List Char) : NumberResult :=
  let (negative, cs) := match cs with
    | '-' :: rest => (true, rest)
    | rest => (false, rest)
  match cs with
  | [] => .error (.endOfText, [])
  | '0' :: rest =>
      if rest.head?.any isDigit then .error (.invalid, rest) else readAfterWhole negative 0 rest
  | c :: rest =>
      if !isDigit c then .error (.invalid, c :: rest)
      else
        let (significand, _, tail) := takeSignificand (digitValue c) 0 rest
        if tail.head?.any isDigit then readLongWhole negative significand tail
        else readAfterWhole negative significand tail

end ApiAtlas.Json
