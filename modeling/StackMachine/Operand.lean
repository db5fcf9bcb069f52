/-!
Operands: numbers written after an opcode with the least significant byte first.
-/
namespace StackMachine.Operand

/-- The number that `bytes` stand for, in 32 bits. A byte beyond the fourth is shifted out. -/
def read (bytes : List UInt8) : UInt32 :=
  bytes.foldr (fun byte high => (high <<< 8) ||| byte.toUInt32) 0

/-- The lowest `width` bytes of a number. -/
def write : Nat → UInt32 → List UInt8
  | 0, _ => []
  | width + 1, n => n.toUInt8 :: write width (n >>> 8)

/-- The `width` bytes of the code from `start` on, if the code has that many. -/
def window? (code : Array UInt8) (start width : Nat) : Option (List UInt8) :=
  if start + width ≤ code.size then some (code.extract start (start + width)).toList
  else none

@[simp] theorem length_write (width : Nat) (n : UInt32) : (write width n).length = width := by
  induction width generalizing n with
  | zero => rfl
  | succ width ih => simp [write, ih]

/-- A window that is there lies in the code up to its last byte. -/
theorem end_le_of_window? {code : Array UInt8} {start width : Nat} {bytes : List UInt8}
    (h : window? code start width = some bytes) : start + width ≤ code.size := by
  unfold window? at h
  split at h
  · assumption
  · cases h

end StackMachine.Operand
