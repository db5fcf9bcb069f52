import StackMachine.Proofs.Doubles
import StackMachine.Proofs.Numerals
import StackMachine.Value

/-! What the short text of a number shows. The text denotes the number rounded to six significant
digits, without anything superfluous. The notation is chosen by the exponent after rounding, and
plain notation, which rounds once more, keeps the digits by which it was chosen. -/
namespace StackMachine

open Decimal
open Float.Model (UnpackedFloat)

namespace Decimal

/-- An exponent of at most `places` leaves so many places after the point. -/
theorem Scientific.value_eq_div {s : Scientific} {places : Nat} (h : s.exponent ≤ places) :
    s.value places = s.digits / 10 ^ (places - s.exponent).toNat := by
  have hPlaces : s.exponent - places = -((places - s.exponent).toNat : ℤ) := by omega
  rw [value, hPlaces, zpow_neg, zpow_natCast, div_eq_mul_inv]

/-- Scientific notation of `value`, with `exponent` as its power of ten: one digit other than zero
before the point, and after the sign of the exponent at least `width` digits. -/
def Exponential (width : Nat) (text : String) (value : ℚ) (exponent : ℤ) : Prop :=
  ∃ (mantissa magnitude : String) (digit : Char) (fraction : List Char),
    text = mantissa ++ (if exponent < 0 then "e-" else "e+") ++ magnitude ∧
      digit ≠ '0' ∧ Plain mantissa [digit] fraction (value / 10 ^ exponent) ∧
      Digits magnitude.toList width exponent.natAbs

/-- Of the digits of the mantissa the first one stands before the point. -/
theorem exponential_of_leading {s : Scientific} {places : Nat}
    (hLeading : Leading (s.value places) s.exponent) {style : GeneralNotation}
    (hWidth : 0 < style.exponentDigits) :
    Exponential style.exponentDigits
      ((Numeral.trimmed s.digits places).text ++ style.exponentText s.exponent)
      (s.value places) s.exponent := by
  have hValue : (Numeral.trimmed s.digits places).value = s.value places / 10 ^ s.exponent := by
    rw [Numeral.value_trimmed, Scientific.value, mul_div_assoc, ← zpow_sub₀ (by norm_num),
      sub_sub_cancel_left, zpow_neg, zpow_natCast, div_eq_mul_inv]
  have hMantissa : Leading (Numeral.trimmed s.digits places).value 0 := by
    have hShifted := hLeading.mul_zpow (-s.exponent)
    rwa [add_neg_cancel, zpow_neg, ← div_eq_mul_inv, ← hValue] at hShifted
  obtain ⟨digit, fraction, hDigit, hPlain⟩ :=
    Numeral.plain_text_of_leading (Numeral.trimmed_trimmed s.digits places) hMantissa
  rw [hValue] at hPlain
  refine ⟨_, _, digit, fraction, ?_, hDigit, hPlain, digits_zeroPadded hWidth s.exponent.natAbs⟩
  rw [GeneralNotation.exponentText, String.append_assoc]

namespace GeneralNotation

variable (style : GeneralNotation) {x : Fraction}

/-- In either notation the text denotes the rounded number, though the plain one rounds anew. -/
theorem text_denotes (hWidth : 0 < style.exponentDigits) (hNum : 0 < x.numerator)
    (hDen : 0 < x.denominator) :
    let rounded := x.scientific style.places
    if rounded.exponent < style.lowest ∨ style.places < rounded.exponent then
      Exponential style.exponentDigits (style.text x) (rounded.value style.places) rounded.exponent
    else
      ∃ whole fraction, Plain (style.text x) whole fraction (rounded.value style.places) := by
  intro rounded
  unfold text
  dsimp only
  split
  · rename_i hOutside
    rw [if_pos (by simpa using hOutside)]
    exact exponential_of_leading (Fraction.leading_scientific hNum hDen style.places) hWidth
  · rename_i hInside
    rw [if_neg (by simpa using hInside)]
    have hPlaces : Int.ofNat (style.places - rounded.exponent).toNat =
        style.places - rounded.exponent := Int.toNat_of_nonneg (by omega)
    change ∃ whole fraction, Plain (x.plainText (style.places - rounded.exponent).toNat) whole
      fraction (rounded.value style.places)
    rw [Fraction.plainText, hPlaces, Fraction.round_again hNum hDen,
      Scientific.value_eq_div (by omega), ← Numeral.value_trimmed]
    obtain ⟨fraction, hPlain⟩ := Numeral.plain_text (Numeral.trimmed_trimmed rounded.digits _)
    exact ⟨_, fraction, hPlain⟩

/-- On both sides of plain notation the carry decides. -/
example : Value.shortNotation.text ⟨9999997, 10⟩ = "1e+06" := by decide +kernel

example : Value.shortNotation.text ⟨99999999, 1000000000000⟩ = "0.0001" := by decide +kernel

/-- Zero needs one digit. -/
theorem text_of_zero (hLowest : style.lowest ≤ 0) (hNum : x.numerator = 0)
    (hDen : 0 < x.denominator) : style.text x = "0" := by
  have hRounded : x.scientific style.places = ⟨0, 0⟩ := by
    have hExponent : x.exponent = 0 := if_pos hNum
    have hNoCarry : 0 ≠ Nat.pow 10 (style.places + 1) := (Nat.pow_pos (by decide)).ne
    unfold Fraction.scientific
    dsimp only
    rw [hExponent, Fraction.round_shift_of_zero hNum hDen, if_neg hNoCarry]
  unfold text
  dsimp only
  rw [hRounded, if_neg (by simpa using hLowest), Fraction.plainText,
    Fraction.round_shift_of_zero hNum hDen, Numeral.trimmed_zero]
  rfl

end GeneralNotation

end Decimal

namespace Value

/-- The text of every double. A negative one has a minus in front. A finite number other than zero
is rounded to six significant digits, and `exponent` is the power of ten of its leading digit after
that, so after any carry. The text denotes the rounded number. In plain notation the number is
rounded once more, to the places that the exponent leaves, and this gives the digits of the
rounding that the exponent comes from. -/
theorem display_rounds_to_six_digits (x : Float) :
    match x.toModel.unpack with
    | .notANumber => (number x).display = "nan"
    | .infinity sign => (number x).display = (if sign == .negative then "-" else "") ++ "inf"
    | .zero sign => (number x).display = (if sign == .negative then "-" else "") ++ "0"
    | .finite sign significand binaryExponent _ =>
      ∃ (rounded : ℚ) (exponent : ℤ) (text : String),
        (∀ r, Significant 6 (significand * 2 ^ binaryExponent) r ↔ r = rounded) ∧
        Leading rounded exponent ∧
        (number x).display = (if sign == .negative then "-" else "") ++ text ∧
        if exponent < -4 ∨ 6 ≤ exponent then
          Exponential 2 text rounded exponent
        else
          (∃ whole fraction, Plain text whole fraction rounded) ∧
            (Binary64.magnitude significand binaryExponent).scientific 5 =
              ⟨((Binary64.magnitude significand binaryExponent).shift (5 - exponent)).round,
                exponent⟩ := by
  have hDisplay : (number x).display = shortNumber x := rfl
  rw [hDisplay, shortNumber, Binary64.ofBits_toBits]
  cases x.toModel.unpack with
  | notANumber => rfl
  | infinity sign => rfl
  | zero sign =>
      change (if sign == .negative then "-" else "") ++ shortNotation.text _ = _
      rw [shortNotation.text_of_zero (by decide) rfl (Binary64.denominator_magnitude_pos _ _)]
  | finite sign significand binaryExponent hPos =>
      have hNum := Binary64.numerator_magnitude_pos hPos binaryExponent
      have hDen := Binary64.denominator_magnitude_pos significand binaryExponent
      have hSignificant := Fraction.significant_scientific hNum hDen 5
      have hDenotes := shortNotation.text_denotes (by decide) hNum hDen
      have hAgain : ((Binary64.magnitude significand binaryExponent).shift
          (5 - ((Binary64.magnitude significand binaryExponent).scientific 5).exponent)).round =
            ((Binary64.magnitude significand binaryExponent).scientific 5).digits :=
        Fraction.round_again hNum hDen 5
      rw [Binary64.value_magnitude] at hSignificant
      refine ⟨_, _, _, fun r => ⟨fun h => h.unique hSignificant, ?_⟩,
        Fraction.leading_scientific hNum hDen 5, rfl, ?_⟩
      · rintro rfl
        exact hSignificant
      · split
        · rename_i hOutside
          exact (if_pos hOutside).mp hDenotes
        · rename_i hInside
          exact ⟨(if_neg hInside).mp hDenotes, by rw [hAgain]⟩

end Value

end StackMachine
