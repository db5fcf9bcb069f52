import StackMachine.Decimal.Numeral
import StackMachine.Proofs.Rounding

/-! Decimal numerals read back. A text is taken apart into the digits before and after its point,
and these denote the number. A numeral with nothing superfluous has no zero in front of other
digits, no zero at the end of its fraction, and a point only before a fraction. -/
namespace StackMachine.Decimal

/-- Decimal digits of `n`, with zeros in front only to fill up `width`. -/
structure Digits (text : List Char) (width n : Nat) : Prop where
  decimal : ∀ c ∈ text, c.isDigit
  denotes : Nat.ofDigitChars 10 text 0 = n
  width_le : width ≤ text.length
  leading : width < text.length → text.head? ≠ some '0'

/-- Plain notation of `value` with nothing superfluous. -/
structure Plain (text : String) (whole fraction : List Char) (value : ℚ) : Prop where
  spelled : text.toList = whole ++ if fraction = [] then [] else '.' :: fraction
  wholeDigits : Digits whole 1 (Nat.ofDigitChars 10 whole 0)
  fractionDigits : ∀ c ∈ fraction, c.isDigit
  final : fraction.getLast? ≠ some '0'
  denotes : value = Nat.ofDigitChars 10 whole 0 +
    Nat.ofDigitChars 10 fraction 0 / 10 ^ fraction.length

/-- The first digit of a number is zero for zero alone. -/
theorem head?_toDigits {n : Nat} (h : 0 < n) : (Nat.toDigits 10 n).head? ≠ some '0' := by
  induction n using Nat.strong_induction_on with
  | _ n ih =>
    rw [Nat.toDigits_eq_if (by decide)]
    split
    · simp [h.ne']
    · rw [List.head?_append_of_ne_nil _ Nat.toDigits_ne_nil]
      exact ih (n / 10) (by omega) (by omega)

theorem getLast?_toDigits (n : Nat) :
    (Nat.toDigits 10 n).getLast? = some (Nat.digitChar (n % 10)) := by
  rw [Nat.toDigits_eq_if (by decide)]
  split
  · rename_i hSmall
    simp [Nat.mod_eq_of_lt hSmall]
  · simp

/-- The digits that are printed write the number. -/
theorem digits_toDigits (n : Nat) : Digits (Nat.toDigits 10 n) 1 n where
  decimal := fun _ hMem => Nat.isDigit_of_mem_toDigits (by decide) (by decide) hMem
  denotes := Nat.ofDigitChars_ten_toDigits
  width_le := Nat.length_toDigits_pos
  leading := by
    intro hLong
    have hLarge : ¬ n < 10 ^ 1 := fun hSmall =>
      absurd ((Nat.length_toDigits_le_iff (by decide) (by decide)).mpr hSmall) (by omega)
    exact head?_toDigits (by omega)

theorem toList_zeroPadded (width n : Nat) :
    (Text.zeroPadded width n).toList =
      List.replicate (width - (Nat.toDigits 10 n).length) '0' ++ Nat.toDigits 10 n := by
  simp [Text.zeroPadded, List.leftpad]

/-- A column holds what is put into it, and zeros stand only where there is room left. -/
theorem digits_zeroPadded {width : Nat} (hWidth : 0 < width) (n : Nat) :
    Digits (Text.zeroPadded width n).toList width n := by
  have hDigits := digits_toDigits n
  rw [toList_zeroPadded]
  constructor
  · intro c hMem
    rcases List.mem_append.mp hMem with hZero | hDigit
    · rw [(List.mem_replicate.mp hZero).2]
      decide
    · exact hDigits.decimal c hDigit
  · rw [Nat.ofDigitChars_append, Nat.ofDigitChars_replicate_zero, Nat.mul_zero, hDigits.denotes]
  · rw [List.length_append, List.length_replicate]
    omega
  · intro hLong
    rw [List.length_append, List.length_replicate] at hLong
    have hFull : width - (Nat.toDigits 10 n).length = 0 := by omega
    rw [hFull, List.replicate_zero, List.nil_append]
    exact hDigits.leading (by omega)

theorem length_zeroPadded {width n : Nat} (hWidth : 0 < width) (h : n < 10 ^ width) :
    (Text.zeroPadded width n).toList.length = width := by
  have hLength := (Nat.length_toDigits_le_iff (by decide) hWidth).mpr h
  rw [toList_zeroPadded, List.length_append, List.length_replicate]
  omega

namespace Numeral

def value (d : Numeral) : ℚ := d.coefficient / 10 ^ d.places

/-- Nothing more can be trimmed. -/
def Trimmed (d : Numeral) : Prop := d.places = 0 ∨ d.coefficient % 10 ≠ 0

theorem trimmed_trimmed (coefficient places : Nat) : (trimmed coefficient places).Trimmed := by
  induction places generalizing coefficient with
  | zero => exact .inl rfl
  | succ places ih =>
    rw [trimmed]
    split
    · exact ih (coefficient / 10)
    · rename_i hFinal
      exact .inr hFinal

theorem value_trimmed (coefficient places : Nat) :
    (trimmed coefficient places).value = coefficient / 10 ^ places := by
  induction places generalizing coefficient with
  | zero => rfl
  | succ places ih =>
    rw [trimmed]
    split
    · rename_i hZero
      obtain ⟨rest, rfl⟩ := Nat.dvd_of_mod_eq_zero hZero
      rw [ih, Nat.mul_div_cancel_left rest (by decide), pow_succ]
      push_cast
      field_simp
    · rfl

theorem trimmed_zero (places : Nat) : trimmed 0 places = ⟨0, 0⟩ := by
  induction places with
  | zero => rfl
  | succ places ih => rwa [trimmed, if_pos (Nat.zero_mod 10)]

/-- Without places after the point the numeral is a whole number. With some, the last digit of
the fraction is the last one of the coefficient. -/
theorem plain_text {d : Numeral} (hTrimmed : d.Trimmed) :
    ∃ fraction, Plain d.text (Nat.toDigits 10 (d.coefficient / 10 ^ d.places)) fraction d.value := by
  obtain ⟨coefficient, places⟩ := d
  have hRead : Nat.ofDigitChars 10 (Nat.toDigits 10 (coefficient / 10 ^ places)) 0 =
      coefficient / 10 ^ places := Nat.ofDigitChars_ten_toDigits
  have hWhole : Digits (Nat.toDigits 10 (coefficient / 10 ^ places)) 1
      (Nat.ofDigitChars 10 (Nat.toDigits 10 (coefficient / 10 ^ places)) 0) := by
    rw [hRead]
    exact digits_toDigits _
  rcases Nat.eq_zero_or_pos places with rfl | hPlaces
  · refine ⟨[], ?_, hWhole, fun _ hMem => absurd hMem List.not_mem_nil, by simp, ?_⟩
    · simp [text]
    · rw [hRead]
      simp [value]
  · have hFraction := digits_zeroPadded hPlaces (coefficient % 10 ^ places)
    have hLength : (Text.zeroPadded places (coefficient % 10 ^ places)).toList.length = places :=
      length_zeroPadded hPlaces (Nat.mod_lt _ (Nat.pow_pos (by decide)))
    refine ⟨(Text.zeroPadded places (coefficient % 10 ^ places)).toList, ?_, hWhole,
      hFraction.decimal, ?_, ?_⟩
    · have hNe : (Text.zeroPadded places (coefficient % 10 ^ places)).toList ≠ [] := by
        rw [← List.length_pos_iff, hLength]
        exact hPlaces
      rw [if_neg hNe, text]
      simp [hPlaces.ne']
    · have hLast : coefficient % 10 ^ places % 10 = coefficient % 10 :=
        Nat.mod_mod_of_dvd _ (dvd_pow_self 10 hPlaces.ne')
      rw [toList_zeroPadded, List.getLast?_append, getLast?_toDigits, hLast]
      simpa using hTrimmed.resolve_left hPlaces.ne'
    · rw [hRead, hFraction.denotes, hLength]
      change (coefficient : ℚ) / 10 ^ places = _
      exact_mod_cast cast_div_eq coefficient (Nat.pow_pos (n := places) (by decide : 0 < 10))

/-- From one to just below ten there is one digit in front of the point. -/
theorem plain_text_of_leading {d : Numeral} (hTrimmed : d.Trimmed) (hLeading : Leading d.value 0) :
    ∃ digit fraction, digit ≠ '0' ∧ Plain d.text [digit] fraction d.value := by
  obtain ⟨fraction, hPlain⟩ := plain_text hTrimmed
  have hUnit : 0 < 10 ^ d.places := Nat.pow_pos (by decide)
  have hUnit' : (0 : ℚ) < 10 ^ d.places := by positivity
  have hLower := hLeading.le
  have hUpper := hLeading.lt
  rw [value, zpow_zero, one_le_div hUnit'] at hLower
  rw [value, zero_add, zpow_one, div_lt_iff₀ hUnit'] at hUpper
  have hPositive : 0 < d.coefficient / 10 ^ d.places :=
    Nat.div_pos (by exact_mod_cast hLower) hUnit
  have hSingle : d.coefficient / 10 ^ d.places < 10 :=
    (Nat.div_lt_iff_lt_mul hUnit).mpr (by exact_mod_cast hUpper)
  rw [Nat.toDigits_of_lt_base hSingle] at hPlain
  refine ⟨_, fraction, ?_, hPlain⟩
  rw [Ne, Nat.digitChar_eq_zero]
  exact hPositive.ne'

end Numeral

end StackMachine.Decimal
