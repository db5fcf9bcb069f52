import StackMachine.Text
import StackMachine.Decimal.Fraction

/-!
Decimal numerals in plain notation, and the general notation that chooses between plain and
scientific by the size of the number after rounding.
-/
namespace StackMachine.Decimal

/-- The decimal number `coefficient / 10 ^ places`. -/
structure Numeral where
  coefficient : Nat
  places : Nat

namespace Numeral

def text (d : Numeral) : String :=
  let unit := Nat.pow 10 d.places
  if d.places = 0 then toString d.coefficient
  else toString (d.coefficient / unit) ++ "." ++ Text.zeroPadded d.places (d.coefficient % unit)

/-- The shortest numeral of the same number: no final zero after the point. -/
def trimmed (coefficient : Nat) : Nat → Numeral
  | 0 => ⟨coefficient, 0⟩
  | places + 1 =>
    if coefficient % 10 = 0 then trimmed (coefficient / 10) places
    else ⟨coefficient, places + 1⟩

end Numeral

/-- `x` rounded to `places` digits after the point, in plain notation without final zeros. -/
def Fraction.plainText (x : Fraction) (places : Nat) : String :=
  (Numeral.trimmed (x.shift (Int.ofNat places)).round places).text

/-- A way to write numbers of any size in a few significant digits. -/
structure GeneralNotation where
  /-- Digits after the leading one. -/
  places : Nat
  /-- The least exponent written in plain notation. -/
  lowest : Int
  /-- Digits that an exponent has at least. -/
  exponentDigits : Nat

namespace GeneralNotation

def exponentText (style : GeneralNotation) (exponent : Int) : String :=
  (if exponent < 0 then "e-" else "e+") ++
    Text.zeroPadded style.exponentDigits exponent.natAbs

def text (style : GeneralNotation) (x : Fraction) : String :=
  let rounded := x.scientific style.places
  if rounded.exponent < style.lowest || Int.ofNat style.places < rounded.exponent then
    (Numeral.trimmed rounded.digits style.places).text ++ style.exponentText rounded.exponent
  else
    x.plainText (Int.ofNat style.places - rounded.exponent).toNat

end GeneralNotation

end StackMachine.Decimal
