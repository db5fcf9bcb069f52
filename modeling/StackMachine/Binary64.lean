import StackMachine.Decimal.Fraction

/-!
The binary64 format of floating-point numbers: what a 64-bit pattern denotes, as exact whole
numbers and powers of two.
-/
namespace StackMachine

open Decimal (Fraction)

inductive Binary64 where
  | nan
  | infinite (negative : Bool)
  | finite (negative : Bool) (significand : Nat) (exponent : Int)

namespace Binary64

/-- The significand of the least normal number, one bit above the 52 stored ones. -/
def hiddenBit : Nat := 4503599627370496

/-- The exponent of the subnormal numbers and of the least normal ones. -/
def leastExponent : Int := -1074

/-- Sign, eleven bits of exponent, 52 bits of significand, from the top. -/
def ofBits (bits : UInt64) : Binary64 :=
  let negative := decide (9223372036854775808 ≤ bits.toNat)
  let biased := bits.toNat / hiddenBit % 2048
  let stored := bits.toNat % hiddenBit
  if biased = 2047 then
    if stored = 0 then .infinite negative else .nan
  else if biased = 0 then .finite negative stored leastExponent
  else .finite negative (hiddenBit + stored) (leastExponent + Int.ofNat biased - 1)

def magnitude (significand : Nat) : Int → Fraction
  | .ofNat k => ⟨significand * Nat.pow 2 k, 1⟩
  | .negSucc k => ⟨significand, Nat.pow 2 (k + 1)⟩

end Binary64

end StackMachine
