/-!
# Binary floating point numbers of 64 bits

A number is kept as its bits, so equality is decidable and nothing hangs on machine arithmetic.
A finite number is a whole mantissa times a power of two. Rounding takes an exact ratio to the
nearest number, of two equally near ones to the one with the even mantissa.
-/
namespace ApiAtlas.Decimal

/-- A 64-bit floating point number as its bits: sign, eleven bits of exponent, 52 of fraction. -/
structure Binary64 where
  bits : UInt64
  deriving DecidableEq, Repr

namespace Binary64

def isNegative (x : Binary64) : Bool := Nat.pow 2 63 ≤ x.bits.toNat

def exponentBits (x : Binary64) : Nat := x.bits.toNat / Nat.pow 2 52 % Nat.pow 2 11

def fractionBits (x : Binary64) : Nat := x.bits.toNat % Nat.pow 2 52

/-- Whether the number is neither infinite nor a failure of arithmetic. -/
def isFinite (x : Binary64) : Bool := x.exponentBits != 2047

def mantissa (x : Binary64) : Nat :=
  if x.exponentBits = 0 then x.fractionBits else x.fractionBits + Nat.pow 2 52

def exponent (x : Binary64) : Int :=
  if x.exponentBits = 0 then -1074 else (x.exponentBits : Int) - 1075

/-- Zero has two spellings, which differ in sign. -/
def isZero (x : Binary64) : Bool := x.mantissa = 0

def ofFields (negative : Bool) (exponentBits fractionBits : Nat) : Binary64 :=
  ⟨UInt64.ofNat
    ((if negative then Nat.pow 2 63 else 0) + exponentBits * Nat.pow 2 52 + fractionBits)⟩

def neg (x : Binary64) : Binary64 :=
  ofFields (!x.isNegative) x.exponentBits x.fractionBits

/-- Whether two numbers compare equal: the same bits, or two zeros. -/
def same (x y : Binary64) : Bool := x = y || x.isZero && y.isZero

/-- The whole number nearest to a ratio; a half goes to the even neighbour. -/
def roundHalfEven (num den : Nat) : Nat :=
  let q := num / den
  let r := num % den
  if 2 * r < den then q
  else if den < 2 * r then q + 1
  else if q % 2 = 0 then q else q + 1

/-- The exponent `e` with `2 ^ e ≤ num / den < 2 ^ (e + 1)`. -/
def binaryMagnitude (num den : Nat) : Int :=
  let e : Int := (Nat.log2 num : Int) - Nat.log2 den
  let reached := if 0 ≤ e then den * Nat.pow 2 e.toNat ≤ num else den ≤ num * Nat.pow 2 (-e).toNat
  if reached then e else e - 1

/-- The floating point number nearest to a ratio of naturals. -/
def ofRatio (negative : Bool) (num den : Nat) : Binary64 :=
  if num = 0 then ofFields negative 0 0
  else
    let q := max (binaryMagnitude num den - 52) (-1074)
    let m := if 0 ≤ q then roundHalfEven num (den * Nat.pow 2 q.toNat)
      else roundHalfEven (num * Nat.pow 2 (-q).toNat) den
    let (m, q) := if m = Nat.pow 2 53 then (Nat.pow 2 52, q + 1) else (m, q)
    if m < Nat.pow 2 52 then ofFields negative 0 m
    else if 971 < q then ofFields negative 2047 0
    else ofFields negative (q + 1075).toNat (m - Nat.pow 2 52)

def ofNat (n : Nat) : Binary64 := ofRatio false n 1

/-- The magnitude of a finite number as a ratio. -/
def ratio (x : Binary64) : Nat × Nat :=
  if 0 ≤ x.exponent then (x.mantissa * Nat.pow 2 x.exponent.toNat, 1)
  else (x.mantissa, Nat.pow 2 (-x.exponent).toNat)

/-- Rounded product of finite magnitudes. -/
def times (x y : Binary64) : Binary64 :=
  ofRatio false (x.ratio.1 * y.ratio.1) (x.ratio.2 * y.ratio.2)

/-- Rounded quotient of finite magnitudes; the divisor is not zero. -/
def dividedBy (x y : Binary64) : Binary64 :=
  ofRatio false (x.ratio.1 * y.ratio.2) (x.ratio.2 * y.ratio.1)

end Binary64
end ApiAtlas.Decimal
