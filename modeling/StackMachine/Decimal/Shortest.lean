import StackMachine.Binary64
import StackMachine.Decimal.Numeral

/-!
Shortest decimal digits. The reals that round to a double form an interval around it; the
shortest digits are those of a decimal number in that interval on the coarsest possible grid of
powers of ten. Of two such numbers the nearer one is taken, and the upper one of two equally near.
-/
namespace StackMachine.Decimal

/-- The double `center * unit` and the bounds of the interval that rounds to it, all three in
quarters of its last bit. -/
structure Rounding where
  below : Nat
  center : Nat
  above : Nat
  /-- The bounds themselves round to the double. -/
  closed : Bool
  unit : Fraction

namespace Rounding

/-- Half a last bit on each side, but a quarter below a power of two, where the numbers below
lie twice as close. A bound lies halfway between two doubles and belongs to the even one. -/
def ofBinary64 (significand : Nat) (exponent : Int) : Rounding where
  below :=
    if significand = Binary64.hiddenBit ∧ exponent ≠ Binary64.leastExponent then
      4 * significand - 1
    else 4 * significand - 2
  center := 4 * significand
  above := 4 * significand + 2
  closed := significand % 2 = 0
  unit := Binary64.magnitude 1 (exponent - 2)

/-- Some `n` with `n * 10 ^ power` in the interval, if one of the two neighbours of the double
on that grid lies there. -/
def onGrid (r : Rounding) (power : Int) : Option Nat :=
  let scaled := r.unit.shift (-power)
  let value := r.center * scaled.numerator
  let lower := value / scaled.denominator
  let inside (bound point : Nat) := bound < point || (r.closed && bound == point)
  let lowerIn := inside (r.below * scaled.numerator) (lower * scaled.denominator)
  let upperIn := inside ((lower + 1) * scaled.denominator) (r.above * scaled.numerator)
  let upperNearer := decide (scaled.denominator ≤ 2 * (value % scaled.denominator))
  if lowerIn && !(upperIn && upperNearer) then some lower
  else if upperIn then some (lower + 1)
  else none

/-- The first hit on ever finer grids, starting from the one of the leading digit, with the
power of ten of its grid. Seventeen digits always suffice for a double. -/
def firstHit (r : Rounding) (leading : Int) : Option (Nat × Int) :=
  (List.range 17).findSome? fun k =>
    let power := leading - Int.ofNat k
    (r.onGrid power).map fun n => (n, power)

end Rounding

/-- The number `n * 10 ^ power` without final zeros in `n`. -/
def dropZeros (n : Nat) (power : Int) : Nat × Int :=
  if n = 0 then (0, 0)
  else if n % 10 = 0 then dropZeros (n / 10) (power + 1)
  else (n, power)
termination_by n

/-- Digits `n` and a power of ten such that `n * 10 ^ power` reads back as the positive double
`significand * 2 ^ exponent` and no number with fewer digits does. -/
def shortest (significand : Nat) (exponent : Int) : Nat × Int :=
  let leading := (Binary64.magnitude significand exponent).exponent
  match (Rounding.ofBinary64 significand exponent).firstHit leading with
  | some (n, power) => dropZeros n power
  | none => (0, 0)

/-- A way to write a number so that it reads back as the same double. -/
structure ExactNotation where
  /-- The least exponent written in plain notation. -/
  lowest : Int
  /-- The least exponent above it written in scientific notation again. -/
  highest : Int

/-- Plain notation always has a digit after the point; scientific notation writes the exponent
as it is and drops an empty fraction. -/
def ExactNotation.text (style : ExactNotation) (digits : Nat) (power : Int) : String :=
  let after := log10 digits
  let exponent := power + Int.ofNat after
  if exponent < style.lowest || style.highest ≤ exponent then
    (Numeral.mk digits after).text ++ "e" ++ toString exponent
  else
    match power with
    | .ofNat k => toString (digits * Nat.pow 10 k) ++ ".0"
    | .negSucc k => (Numeral.mk digits (k + 1)).text

end StackMachine.Decimal
