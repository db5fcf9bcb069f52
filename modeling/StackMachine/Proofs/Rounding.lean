import Mathlib.Algebra.Order.Field.Power
import Mathlib.Algebra.Order.Field.Rat
import Mathlib.Data.Nat.Log
import Mathlib.Tactic.FieldSimp
import Mathlib.Tactic.Linarith
import Mathlib.Tactic.NormNum
import Mathlib.Tactic.Positivity
import Mathlib.Tactic.Ring
import StackMachine.Decimal.Fraction

/-! Rounding to significant digits, against exact rational numbers. The grid on which a number is
rounded is the one of its leading digit. Where rounding carries into a new leading digit, the grid
of the rounded number is ten times as coarse, and rounding on that grid gives the same number. -/
namespace StackMachine.Decimal

/-- `n` is the whole number nearest to `v`, the even one of two equally near. -/
structure Nearest (v : ℚ) (n : Nat) : Prop where
  near : |v - n| ≤ 1 / 2
  even : |v - n| = 1 / 2 → Even n

/-- `e` is the power of ten of the leading digit of `v`. -/
structure Leading (v : ℚ) (e : ℤ) : Prop where
  le : 10 ^ e ≤ v
  lt : v < 10 ^ (e + 1)

/-- `r` is `v` rounded to so many significant digits, ties going to the even last digit. -/
def Significant (digits : Nat) (v r : ℚ) : Prop :=
  ∃ (e : ℤ) (n : Nat), Leading v e ∧ Nearest (v / 10 ^ (e + 1 - digits)) n ∧
    r = n * 10 ^ (e + 1 - digits)

/-- Strictly within half there is no tie to break. -/
theorem Nearest.of_lt {v : ℚ} {n : Nat} (h : |v - n| < 1 / 2) : Nearest v n :=
  ⟨h.le, fun hTie => absurd hTie h.ne⟩

/-- Two whole numbers at most half away from the same number are neighbours, with that number
exactly between them. They are not both even. -/
theorem Nearest.unique {v : ℚ} {n k : Nat} (hn : Nearest v n) (hk : Nearest v k) : n = k := by
  by_contra hNe
  have hApart : (1 : ℚ) ≤ |(n : ℚ) - k| := by
    have hInt : (1 : ℤ) ≤ |(n : ℤ) - k| := Int.one_le_abs (by omega)
    exact_mod_cast hInt
  have hTriangle := abs_sub_le (n : ℚ) v k
  rw [abs_sub_comm (n : ℚ) v] at hTriangle
  have hFirst := hn.near
  have hSecond := hk.near
  have hOne : |(n : ℤ) - k| = 1 := by
    have hRat : |(n : ℚ) - k| = 1 := by linarith
    exact_mod_cast hRat
  obtain ⟨a, rfl⟩ := hn.even (by linarith)
  obtain ⟨b, rfl⟩ := hk.even (by linarith)
  rcases (abs_eq (by decide)).mp hOne with h | h <;> omega

/-- Rounding passes no whole number. -/
theorem Nearest.le_of_le {v : ℚ} {n k : Nat} (h : Nearest v n) (hBound : k ≤ v) : k ≤ n := by
  have hNear := (abs_le.mp h.near).2
  have hHalf : (k : ℚ) < (n + 1 : Nat) := by
    push_cast
    linarith
  exact Nat.lt_succ_iff.mp (by exact_mod_cast hHalf)

theorem Nearest.ge_of_ge {v : ℚ} {n k : Nat} (h : Nearest v n) (hBound : v ≤ k) : n ≤ k := by
  have hNear := (abs_le.mp h.near).1
  have hHalf : (n : ℚ) < (k + 1 : Nat) := by
    push_cast
    linarith
  exact Nat.lt_succ_iff.mp (by exact_mod_cast hHalf)

/-- A positive value has one leading power of ten. -/
theorem Leading.unique {v : ℚ} {d e : ℤ} (hd : Leading v d) (he : Leading v e) : d = e := by
  have hFirst := (zpow_lt_zpow_iff_right₀ (by norm_num)).mp (lt_of_le_of_lt hd.le he.lt)
  have hSecond := (zpow_lt_zpow_iff_right₀ (by norm_num)).mp (lt_of_le_of_lt he.le hd.lt)
  omega

theorem Leading.mul_zpow {v : ℚ} {e : ℤ} (h : Leading v e) (k : ℤ) :
    Leading (v * 10 ^ k) (e + k) := by
  have hPos : (0 : ℚ) < 10 ^ k := by positivity
  constructor
  · rw [zpow_add₀ (by norm_num)]
    exact mul_le_mul_of_nonneg_right h.le hPos.le
  · rw [add_right_comm, zpow_add₀ (by norm_num)]
    exact mul_lt_mul_of_pos_right h.lt hPos

/-- There is one number that a number is rounded to. -/
theorem Significant.unique {digits : Nat} {v r s : ℚ} (hr : Significant digits v r)
    (hs : Significant digits v s) : r = s := by
  obtain ⟨e, n, hLeading, hNearest, rfl⟩ := hr
  obtain ⟨d, k, hLeading', hNearest', rfl⟩ := hs
  obtain rfl := hLeading.unique hLeading'
  rw [hNearest.unique hNearest']

/-- One less than the number of digits is the logarithm. -/
theorem log10_eq (n : Nat) : log10 n = Nat.log 10 n := by
  fun_induction log10 n with
  | case1 n hSmall => rw [Nat.log_of_lt hSmall]
  | case2 n hLarge ih =>
    rw [ih, Nat.log_div_base, Nat.sub_add_cancel (Nat.log_pos (by omega) (by omega))]

/-- The digits of a number bound it on both sides. -/
theorem log10_bounds {n : Nat} (h : 0 < n) : 10 ^ log10 n ≤ n ∧ n < 10 ^ (log10 n + 1) := by
  rw [log10_eq]
  exact ⟨Nat.pow_log_le_self 10 h.ne', Nat.lt_pow_succ_log_self (by decide) n⟩

/-- Division with remainder, as a whole number and a proper fraction. -/
theorem cast_div_eq (a : Nat) {b : Nat} (hPos : 0 < b) :
    (a : ℚ) / b = (a / b : Nat) + (a % b : Nat) / b := by
  have hDivision : (b : ℚ) * (a / b : Nat) + (a % b : Nat) = a := by
    exact_mod_cast Nat.div_add_mod a b
  field_simp
  linarith

def Scientific.value (s : Scientific) (places : Nat) : ℚ := s.digits * 10 ^ (s.exponent - places)

/-- One of the digits stands before the point. -/
theorem Scientific.leading_value {s : Scientific} {places : Nat} (hLower : 10 ^ places ≤ s.digits)
    (hUpper : s.digits < 10 ^ (places + 1)) : Leading (s.value places) s.exponent := by
  have hDigits : Leading s.digits places :=
    ⟨by exact_mod_cast hLower, by exact_mod_cast hUpper⟩
  simpa [value] using hDigits.mul_zpow (s.exponent - places)

namespace Fraction

def value (x : Fraction) : ℚ := x.numerator / x.denominator

theorem value_shift (x : Fraction) (k : ℤ) : (x.shift k).value = x.value * 10 ^ k := by
  cases k with
  | ofNat k =>
      simp only [shift, value, Nat.pow_eq, Nat.cast_mul, Nat.cast_pow, Nat.cast_ofNat,
        Int.ofNat_eq_natCast, zpow_natCast]
      ring
  | negSucc k =>
      simp only [shift, value, Nat.pow_eq, Nat.cast_mul, Nat.cast_pow, Nat.cast_ofNat,
        zpow_negSucc]
      rw [div_mul_eq_div_div, div_eq_mul_inv]

theorem denominator_shift_pos {x : Fraction} (hDen : 0 < x.denominator) (k : ℤ) :
    0 < (x.shift k).denominator := by
  cases k with
  | ofNat k => exact hDen
  | negSucc k => exact Nat.mul_pos hDen (Nat.pow_pos (by decide))

/-- The remainder of the division says on which side of the middle the fraction lies. -/
theorem nearest_round {x : Fraction} (hDen : 0 < x.denominator) : Nearest x.value x.round := by
  obtain ⟨a, b⟩ := x
  have hPos : (0 : ℚ) < b := by exact_mod_cast hDen
  have hRest : (a % b : Nat) / (b : ℚ) < 1 := by
    rw [div_lt_one hPos]
    exact_mod_cast Nat.mod_lt a hDen
  have hNonneg : 0 ≤ (a % b : Nat) / (b : ℚ) := by positivity
  unfold round value
  dsimp only
  rw [cast_div_eq a hDen]
  split
  · rename_i hBelow
    have hLess : (a % b : Nat) / (b : ℚ) < 1 / 2 := by
      rw [div_lt_div_iff₀ hPos (by norm_num)]
      exact_mod_cast (by omega : a % b * 2 < 1 * b)
    apply Nearest.of_lt
    rw [abs_lt]
    constructor <;> linarith
  split
  · rename_i hAbove
    have hMore : 1 / 2 < (a % b : Nat) / (b : ℚ) := by
      rw [div_lt_div_iff₀ (by norm_num) hPos]
      exact_mod_cast (by omega : 1 * b < a % b * 2)
    apply Nearest.of_lt
    rw [abs_lt, Nat.cast_add, Nat.cast_one]
    constructor <;> linarith
  · have hMiddle : (a % b : Nat) / (b : ℚ) = 1 / 2 := by
      rw [div_eq_div_iff hPos.ne' (by norm_num)]
      exact_mod_cast (by omega : a % b * 2 = 1 * b)
    rw [hMiddle]
    constructor
    · rcases Nat.mod_two_eq_zero_or_one (a / b) with hParity | hParity <;>
        rw [hParity, Nat.cast_add, add_sub_add_left_eq_sub] <;> norm_num
    · intro _
      rw [Nat.even_iff]
      omega

theorem nearest_shift {x : Fraction} (hDen : 0 < x.denominator) (k : ℤ) :
    Nearest (x.value * 10 ^ k) (x.shift k).round := by
  rw [← value_shift]
  exact nearest_round (denominator_shift_pos hDen k)

theorem round_shift_of_zero {x : Fraction} (hNum : x.numerator = 0) (hDen : 0 < x.denominator)
    (k : ℤ) : (x.shift k).round = 0 := by
  have hZero : x.value * 10 ^ k = 0 := by simp [value, hNum]
  have hNearest := nearest_shift hDen k
  rw [hZero] at hNearest
  exact hNearest.unique (Nearest.of_lt (by norm_num))

section Positive

variable {x : Fraction} (hNum : 0 < x.numerator) (hDen : 0 < x.denominator)

include hNum hDen

/-- The exponent is the one of the leading digit. Below one this is seen from the reciprocal. -/
theorem leading_exponent : Leading x.value x.exponent := by
  obtain ⟨a, b⟩ := x
  dsimp only at hNum hDen
  have hPos : (0 : ℚ) < b := by exact_mod_cast hDen
  unfold exponent value
  dsimp only
  rw [if_neg hNum.ne']
  split
  · rename_i hLarge
    obtain ⟨hLower, hUpper⟩ := log10_bounds (Nat.div_pos hLarge hDen)
    rw [Nat.le_div_iff_mul_le hDen] at hLower
    rw [Nat.div_lt_iff_lt_mul hDen] at hUpper
    constructor
    · rw [le_div_iff₀ hPos, Int.ofNat_eq_natCast, zpow_natCast]
      exact_mod_cast hLower
    · rw [div_lt_iff₀ hPos, Int.ofNat_eq_natCast, ← Nat.cast_succ, zpow_natCast]
      exact_mod_cast hUpper
  · rename_i hSmall
    have hReciprocal : a ≤ b - 1 := by omega
    obtain ⟨hLower, hUpper⟩ := log10_bounds (Nat.div_pos hReciprocal hNum)
    rw [Nat.le_div_iff_mul_le hNum] at hLower
    rw [Nat.div_lt_iff_lt_mul hNum] at hUpper
    constructor
    · rw [le_div_iff₀ hPos, zpow_negSucc, inv_mul_le_iff₀ (by positivity)]
      exact_mod_cast (by omega : b ≤ 10 ^ (log10 ((b - 1) / a) + 1) * a)
    · rw [div_lt_iff₀ hPos, Int.negSucc_eq, neg_add, neg_add_cancel_right, zpow_neg,
        zpow_natCast, lt_inv_mul_iff₀ (by positivity)]
      exact_mod_cast (by omega : 10 ^ log10 ((b - 1) / a) * a < b)

/-- On the grid for `places` digits after the leading one. -/
theorem leading_shift (places : Nat) :
    Leading (x.value * 10 ^ (places - x.exponent : ℤ)) places := by
  simpa using (leading_exponent hNum hDen).mul_zpow (places - x.exponent)

/-- A carry makes the digits a power of ten, and they cannot become more than that. -/
theorem scientific_cases (places : Nat) :
    let digits := (x.shift (places - x.exponent)).round
    10 ^ places ≤ digits ∧
      ((digits < 10 ^ (places + 1) ∧ x.scientific places = ⟨digits, x.exponent⟩) ∨
        (digits = 10 ^ (places + 1) ∧
          x.scientific places = ⟨10 ^ places, x.exponent + 1⟩)) := by
  intro digits
  have hLeading := leading_shift hNum hDen places
  have hNearest : Nearest (x.value * 10 ^ (places - x.exponent : ℤ)) digits :=
    nearest_shift hDen _
  have hLower : 10 ^ places ≤ digits := hNearest.le_of_le (by exact_mod_cast hLeading.le)
  have hUpper : digits ≤ 10 ^ (places + 1) := hNearest.ge_of_ge (by exact_mod_cast hLeading.lt.le)
  refine ⟨hLower, ?_⟩
  rcases Nat.lt_or_eq_of_le hUpper with hLess | hCarry
  · exact .inl ⟨hLess, if_neg hLess.ne⟩
  · exact .inr ⟨hCarry, if_pos hCarry⟩

/-- The digits stand for the fraction rounded to one digit before the point and `places` after. -/
theorem significant_scientific (places : Nat) :
    Significant (places + 1) x.value ((x.scientific places).value places) := by
  obtain ⟨-, hCases⟩ := scientific_cases hNum hDen places
  refine ⟨x.exponent, (x.shift (places - x.exponent)).round, leading_exponent hNum hDen, ?_, ?_⟩
  · have hGrid : x.exponent + 1 - ((places + 1 : Nat) : ℤ) = -(places - x.exponent) := by
      push_cast
      ring
    rw [hGrid, zpow_neg, div_inv_eq_mul]
    exact nearest_shift hDen _
  · have hGrid : x.exponent + 1 - ((places + 1 : Nat) : ℤ) = x.exponent - places := by
      push_cast
      ring
    rw [hGrid]
    rcases hCases with ⟨-, hSame⟩ | ⟨hCarry, hSame⟩
    · rw [hSame]
      rfl
    · rw [hSame, hCarry, Scientific.value]
      push_cast
      rw [pow_succ, mul_assoc, ← zpow_one_add₀ (by norm_num), add_comm (1 : ℤ),
        sub_add_eq_add_sub]

/-- The exponent in scientific form is the leading power of what is written. -/
theorem leading_scientific (places : Nat) :
    Leading ((x.scientific places).value places) (x.scientific places).exponent := by
  obtain ⟨hLower, ⟨hUpper, hSame⟩ | ⟨-, hSame⟩⟩ := scientific_cases hNum hDen places <;>
    rw [hSame]
  · exact Scientific.leading_value hLower hUpper
  · exact Scientific.leading_value (le_refl _) (Nat.pow_lt_pow_succ (by decide))

/-- Rounding once more, on the grid of the leading digit after rounding, gives the same digits.
After a carry that grid is coarser, but what was within half of a power of ten on the finer grid
is within a twentieth of the next lower one on the coarser. -/
theorem round_again (places : Nat) :
    (x.shift (places - (x.scientific places).exponent)).round = (x.scientific places).digits := by
  obtain ⟨-, ⟨-, hSame⟩ | ⟨hCarry, hSame⟩⟩ := scientific_cases hNum hDen places
  · rw [hSame]
  · rw [hSame]
    have hFine := nearest_shift hDen (places - x.exponent)
    rw [hCarry] at hFine
    have hBelow : x.value * 10 ^ (places - x.exponent : ℤ) < 10 ^ (places + 1) := by
      exact_mod_cast (leading_shift hNum hDen places).lt
    have hCoarser : x.value * 10 ^ (places - (x.exponent + 1) : ℤ)
        = x.value * 10 ^ (places - x.exponent : ℤ) / 10 := by
      rw [← sub_sub, zpow_sub_one₀ (by norm_num), ← mul_assoc, div_eq_mul_inv]
    have hNear := (abs_le.mp hFine.near).1
    have hCoarse : Nearest (x.value * 10 ^ (places - (x.exponent + 1) : ℤ)) (10 ^ places) := by
      apply Nearest.of_lt
      rw [hCoarser, abs_lt]
      push_cast at hNear ⊢
      rw [pow_succ] at hNear hBelow
      constructor <;> linarith
    exact (nearest_shift hDen _).unique hCoarse

end Positive

end Fraction

end StackMachine.Decimal
