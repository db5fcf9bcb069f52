/-!
Exact nonnegative fractions and their rounding to whole numbers and to decimal digits.
`Fraction.round` goes to the nearest whole number and sends a half to the even neighbour.
-/
namespace StackMachine.Decimal

/-- The number `numerator / denominator`, not necessarily in lowest terms. -/
structure Fraction where
  numerator : Nat
  denominator : Nat

/-- One less than the number of decimal digits of `n`. -/
def log10 (n : Nat) : Nat :=
  if n < 10 then 0 else log10 (n / 10) + 1
termination_by n

namespace Fraction

def shift (x : Fraction) : Int → Fraction
  | .ofNat k => ⟨x.numerator * Nat.pow 10 k, x.denominator⟩
  | .negSucc k => ⟨x.numerator, x.denominator * Nat.pow 10 (k + 1)⟩

/-- The greatest `e` with `10 ^ e` at most a positive `x`; zero for zero.
Below one, `e` is the negative of the least power that lifts `x` to at least one. -/
def exponent (x : Fraction) : Int :=
  if x.numerator = 0 then 0
  else if x.denominator ≤ x.numerator then
    Int.ofNat (log10 (x.numerator / x.denominator))
  else
    Int.negSucc (log10 ((x.denominator - 1) / x.numerator))

/-- The nearest whole number, the even one of two equally near. -/
def round (x : Fraction) : Nat :=
  let whole := x.numerator / x.denominator
  let rest := x.numerator % x.denominator
  if 2 * rest < x.denominator then whole
  else if x.denominator < 2 * rest then whole + 1
  else whole + whole % 2

end Fraction

/-- The number `digits * 10 ^ (exponent - places)`, one digit standing before the point. -/
structure Scientific where
  digits : Nat
  exponent : Int

/-- `x` rounded to one digit before the point and `places` after it. A carry out of the
leading digit raises the exponent. -/
def Fraction.scientific (x : Fraction) (places : Nat) : Scientific :=
  let exponent := x.exponent
  let digits := (x.shift (Int.ofNat places - exponent)).round
  if digits = Nat.pow 10 (places + 1) then ⟨Nat.pow 10 places, exponent + 1⟩
  else ⟨digits, exponent⟩

end StackMachine.Decimal
