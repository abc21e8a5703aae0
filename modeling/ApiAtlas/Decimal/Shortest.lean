import ApiAtlas.Decimal.Numeral
import ApiAtlas.Decimal.Binary64

/-!
# The fewest digits that read back

A finite floating point number stands for every real that rounds to it. Its shortest decimal is
the first grid of one, two, … seventeen digits on which one of the number's two neighbours lies
in that interval; of two neighbours the nearer is taken, and an exact tie goes to the even one.
How the digits are laid out is the business of a `Layout`.
-/
namespace ApiAtlas.Decimal

/-- A decimal: digits without trailing zeros, times a power of ten. -/
structure Scaled where
  coefficient : Nat
  exponent : Int
  deriving DecidableEq, Repr

namespace Scaled

/-- Move trailing zeros into the exponent; the number of steps is bounded by the digits. -/
def trim (s : Scaled) : Scaled :=
  go (digits s.coefficient).length s
where
  go : Nat → Scaled → Scaled
    | 0, s => s
    | steps + 1, s =>
        if s.coefficient ≠ 0 && s.coefficient % 10 = 0
        then go steps ⟨s.coefficient / 10, s.exponent + 1⟩ else s

end Scaled

namespace Binary64

/-- The reals that round to a number, as numerators over one denominator, and whether the ends
belong to them. -/
structure Interval where
  low : Nat
  value : Nat
  high : Nat
  denominator : Nat
  closed : Bool

/-- Half the distance to either neighbour; below a power of two the lower distance is halved. -/
def interval (x : Binary64) : Interval :=
  let m := x.mantissa
  let q := x.exponent - 2
  let (scale, denominator) := if 0 ≤ q then (Nat.pow 2 q.toNat, 1) else (1, Nat.pow 2 (-q).toNat)
  let below := if m = Nat.pow 2 52 && decide (-1074 < x.exponent) then 1 else 2
  { low := (4 * m - below) * scale
    value := 4 * m * scale
    high := (4 * m + 2) * scale
    denominator
    closed := m % 2 = 0 }

/-- Whether `coefficient * 10 ^ exponent` rounds to the number. -/
def Interval.holds (i : Interval) (coefficient : Nat) (exponent : Int) : Bool :=
  let (num, den) := if 0 ≤ exponent then (coefficient * Nat.pow 10 exponent.toNat, 1)
    else (coefficient, Nat.pow 10 (-exponent).toNat)
  if i.closed then decide (i.low * den ≤ num * i.denominator) && decide (num * i.denominator ≤ i.high * den)
  else decide (i.low * den < num * i.denominator) && decide (num * i.denominator < i.high * den)

/-- The number of digits in front of the decimal point, less one: `10 ^ k ≤ value < 10 ^ (k+1)`. -/
def Interval.decimalMagnitude (i : Interval) : Int :=
  if i.denominator ≤ i.value then ((digits (i.value / i.denominator)).length : Int) - 1
  else
    let k := (digits (i.denominator / i.value)).length
    if i.denominator ≤ i.value * Nat.pow 10 (k - 1) then 1 - (k : Int) else -(k : Int)

/-- The neighbour on the grid `10 ^ exponent` that reads back, if one does. -/
def Interval.onGrid? (i : Interval) (exponent : Int) : Option Scaled :=
  let (num, den) := if 0 ≤ exponent then (i.value, i.denominator * Nat.pow 10 exponent.toNat)
    else (i.value * Nat.pow 10 (-exponent).toNat, i.denominator)
  let floor := num / den
  let rest := num % den
  let upper := if 2 * rest < den then false
    else if den < 2 * rest then true
    else floor % 2 = 1
  match i.holds floor exponent, i.holds (floor + 1) exponent with
  | true, true => some ⟨if upper then floor + 1 else floor, exponent⟩
  | true, false => some ⟨floor, exponent⟩
  | false, true => some ⟨floor + 1, exponent⟩
  | false, false => none

/-- The shortest decimal of the magnitude of a finite number. -/
def shortest (x : Binary64) : Scaled :=
  if x.isZero then ⟨0, 0⟩
  else
    let i := x.interval
    let top := i.decimalMagnitude
    let grids := (List.range 17).map fun (n : Nat) => top - (n : Int)
    ((grids.findSome? i.onGrid?).getD ⟨x.mantissa, 0⟩).trim

end Binary64

/-- How the digits of a finite number are laid out. Positional notation is used while the decimal
point stands at `lowest` to `highest` places after the first digit's front; beyond, the first
digit is followed by the others after a point and by the exponent after a mark. -/
structure Layout where
  lowest : Option Int
  highest : Option Int
  mark : String

namespace Layout

def zeros (n : Nat) : String := String.ofList (List.replicate n '0')

/-- The digits around a point; a whole number keeps `.0`. -/
def positional (digits : String) (exponent : Int) : String :=
  let point : Int := digits.length + exponent
  if 0 ≤ exponent then digits ++ zeros exponent.toNat ++ ".0"
  else if 0 < point then
    String.ofList (digits.toList.take point.toNat) ++ "." ++ String.ofList (digits.toList.drop point.toNat)
  else "0." ++ zeros (-point).toNat ++ digits

/-- One digit in front of the point and an exponent. -/
def scientific (layout : Layout) (digits : String) (exponent : Int) : String :=
  let power := intNumeral (digits.length + exponent - 1)
  match digits.toList with
  | [] => ""
  | [d] => String.ofList [d] ++ layout.mark ++ power
  | d :: rest => String.ofList (d :: '.' :: rest) ++ layout.mark ++ power

def write (layout : Layout) (x : Binary64) : String :=
  let sign := if x.isNegative then "-" else ""
  if x.isZero then sign ++ "0.0"
  else
    let s := x.shortest
    let text := numeral s.coefficient
    let point : Int := text.length + s.exponent
    let tooLow := layout.lowest.any (point < ·)
    let tooHigh := layout.highest.any (· < point)
    sign ++ (if tooLow || tooHigh then layout.scientific text s.exponent
      else positional text s.exponent)

end Layout

/-- Every place is written out, however far the point is from the digits. -/
def plainLayout : Layout := ⟨none, none, "e"⟩

end ApiAtlas.Decimal
