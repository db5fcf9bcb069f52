import StackMachine.Binary64
import StackMachine.Proofs.Rounding

/-! Doubles as exact numbers. The bits of a double are read in two ways, as three whole numbers and
field by field as the arithmetic of doubles unpacks them, and both give the same number. -/
namespace StackMachine

open Decimal (Fraction)
open Float.Model (Format UnpackedFloat)
open Float.Model.UnpackedFloat (Sign unpackMantissa unpackExponent unpackSign)

namespace Binary64

theorem value_magnitude (significand : Nat) (exponent : ℤ) :
    (magnitude significand exponent).value = significand * 2 ^ exponent := by
  cases exponent with
  | ofNat k => simp [magnitude, Fraction.value]
  | negSucc k => simp [magnitude, Fraction.value, zpow_negSucc, div_eq_mul_inv]

theorem denominator_magnitude_pos (significand : Nat) (exponent : ℤ) :
    0 < (magnitude significand exponent).denominator := by
  cases exponent with
  | ofNat k => exact Nat.one_pos
  | negSucc k => exact Nat.pow_pos (by decide)

theorem numerator_magnitude_pos {significand : Nat} (h : 0 < significand) (exponent : ℤ) :
    0 < (magnitude significand exponent).numerator := by
  cases exponent with
  | ofNat k => exact Nat.mul_pos h (Nat.pow_pos (by decide))
  | negSucc k => exact h

/-- An unpacked double, the zeros among the finite numbers. -/
def ofUnpacked : UnpackedFloat → Binary64
  | .notANumber => .nan
  | .infinity sign => .infinite (sign == .negative)
  | .zero sign => .finite (sign == .negative) 0 leastExponent
  | .finite sign mantissa exponent _ => .finite (sign == .negative) mantissa exponent

section

variable (bits : UInt64)

/-- The mantissa is what the bits below the hidden one count. -/
theorem toNat_unpackMantissa :
    (@unpackMantissa Format.binary64 bits.toBitVec).toNat = bits.toNat % hiddenBit := by
  simp [unpackMantissa, hiddenBit, BitVec.extractLsb]

/-- The biased exponent stands above the mantissa. -/
theorem toNat_unpackExponent :
    (@unpackExponent Format.binary64 bits.toBitVec).toNat = bits.toNat / hiddenBit % 2048 := by
  simp [unpackExponent, hiddenBit, BitVec.extractLsb, Nat.shiftRight_eq_div_pow]

theorem isNegative_unpackSign :
    (Sign.ofBitVec (@unpackSign Format.binary64 bits.toBitVec) == .negative) =
      decide (9223372036854775808 ≤ bits.toNat) := by
  have hWord := bits.toNat_lt
  have hSign : (@unpackSign Format.binary64 bits.toBitVec).toNat =
      bits.toNat / 9223372036854775808 % 2 := by
    change (bits.toBitVec.extractLsb 63 63).toNat = _
    simp [BitVec.extractLsb, Nat.shiftRight_eq_div_pow]
  unfold Sign.ofBitVec
  split
  · rename_i hZero
    rw [hZero] at hSign
    have hBelow : ¬ 9223372036854775808 ≤ bits.toNat := by
      change 0 = _ at hSign
      omega
    rw [decide_eq_false hBelow]
    rfl
  · rename_i hNonzero
    have hAbove : 9223372036854775808 ≤ bits.toNat := by
      by_contra hBelow
      apply hNonzero
      apply BitVec.eq_of_toNat_eq
      rw [hSign]
      change _ = 0
      omega
    rw [decide_eq_true hAbove]
    rfl

end

/-- The hidden bit in front of the stored ones. -/
theorem toNat_one_append (stored : BitVec 52) :
    (1#1 ++ stored).toNat = hiddenBit + stored.toNat := by
  change 2 ^ 52 ||| stored.toNat = _
  rw [Nat.or_comm, Nat.or_two_pow_eq_add_of_lt stored.isLt, Nat.add_comm]
  rfl

/-- The bits of a double, read as three numbers and unpacked field by field. -/
theorem ofBits_toBits (x : Float) : ofBits x.toBits = ofUnpacked x.toModel.unpack := by
  change ofBits x.toModel.toBits =
    ofUnpacked (UnpackedFloat.unpack Format.binary64 x.toModel.toBits.toBitVec)
  generalize x.toModel.toBits = bits
  have hMantissa := toNat_unpackMantissa bits
  have hExponent := toNat_unpackExponent bits
  have hSign := isNegative_unpackSign bits
  unfold UnpackedFloat.unpack ofBits
  dsimp only
  rw [← hMantissa, ← hExponent, ← hSign]
  have hInfinite : @unpackExponent Format.binary64 bits.toBitVec = -1#11 ↔
      (@unpackExponent Format.binary64 bits.toBitVec).toNat = 2047 := BitVec.toNat_inj.symm
  have hLeast : @unpackExponent Format.binary64 bits.toBitVec = 0#11 ↔
      (@unpackExponent Format.binary64 bits.toBitVec).toNat = 0 := BitVec.toNat_inj.symm
  have hZero : @unpackMantissa Format.binary64 bits.toBitVec = 0#52 ↔
      (@unpackMantissa Format.binary64 bits.toBitVec).toNat = 0 := BitVec.toNat_inj.symm
  by_cases hTop : (@unpackExponent Format.binary64 bits.toBitVec).toNat = 2047
  · rw [if_pos hTop, if_pos (hInfinite.mpr hTop)]
    by_cases hNone : (@unpackMantissa Format.binary64 bits.toBitVec).toNat = 0
    · rw [if_pos hNone, if_pos (hZero.mpr hNone)]
      rfl
    · rw [if_neg hNone, if_neg (mt hZero.mp hNone)]
      rfl
  · rw [if_neg hTop, if_neg (mt hInfinite.mp hTop)]
    by_cases hBottom : (@unpackExponent Format.binary64 bits.toBitVec).toNat = 0
    · rw [if_pos hBottom, if_pos (hLeast.mpr hBottom)]
      by_cases hNone : @unpackMantissa Format.binary64 bits.toBitVec = 0#52
      · rw [dif_pos hNone, hZero.mp hNone]
        rfl
      · rw [dif_neg hNone, hBottom]
        rfl
    · rw [if_neg hBottom, if_neg (mt hLeast.mp hBottom), ← toNat_one_append]
      have hBias : leastExponent + Int.ofNat (@unpackExponent Format.binary64 bits.toBitVec).toNat
          - 1 = (@unpackExponent Format.binary64 bits.toBitVec).toNat -
            (Format.binary64.exponentBias + 52 : ℤ) := by
        rw [Int.ofNat_eq_natCast]
        change -1074 + _ - 1 = _ - (1023 + 52 : ℤ)
        ring
      rw [hBias]
      rfl

end Binary64
end StackMachine
