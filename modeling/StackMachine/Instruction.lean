import StackMachine.Opcode
import StackMachine.Operand

/-!
Instructions: an opcode with the operand that follows it. `decode` reads one instruction from
any bytes and says what is wrong with bytes that hold none; `encode` writes one.
-/
namespace StackMachine

structure Instruction where
  opcode : Opcode
  operand : Option UInt32
  deriving DecidableEq

inductive DecodeError where
  /-- The byte is no opcode. -/
  | unknown (byte : UInt8)
  /-- The code ends inside the operand. -/
  | truncated (opcode : Opcode)
  /-- The offset is at or past the end of the code. -/
  | endOfCode
  deriving DecidableEq

namespace Instruction

def width (i : Instruction) : Nat :=
  1 + i.opcode.operandWidth

def encode (i : Instruction) : List UInt8 :=
  i.opcode.byte :: Operand.write i.opcode.operandWidth (i.operand.getD 0)

/-- The highest index that the short form of a load can name. -/
def shortLimit : Nat := 255

/-- The load of a constant by its index, in the short form if one byte can name it. -/
def load (index : Nat) : Instruction :=
  if index ≤ shortLimit then ⟨.constant, some (UInt32.ofNat index)⟩
  else ⟨.constantLong, some (UInt32.ofNat index)⟩

/-- The instruction whose opcode stands at `offset`. -/
def decode (code : Array UInt8) (offset : Nat) : Except DecodeError Instruction :=
  match code[offset]? with
  | none => .error .endOfCode
  | some byte =>
    match Opcode.ofByte? byte with
    | none => .error (.unknown byte)
    | some opcode =>
      if opcode.operandWidth = 0 then .ok ⟨opcode, none⟩
      else
        match Operand.window? code (offset + 1) opcode.operandWidth with
        | none => .error (.truncated opcode)
        | some bytes => .ok ⟨opcode, some (Operand.read bytes)⟩

@[simp] theorem length_encode (i : Instruction) : i.encode.length = i.width := by
  simp [encode, width, Nat.add_comm]

/-- Only an offset behind the code decodes to its end. -/
theorem lt_size_of_decode_ne_endOfCode {code : Array UInt8} {offset : Nat}
    (h : decode code offset ≠ .error .endOfCode) : offset < code.size := by
  refine Nat.lt_of_not_le fun past => h ?_
  simp [decode, past]

/-- What decodes lies in the code with all of its operand. -/
theorem end_le_of_decode {code : Array UInt8} {offset : Nat} {i : Instruction}
    (h : decode code offset = .ok i) : offset + i.width ≤ code.size := by
  have inside : offset < code.size := by
    apply lt_size_of_decode_ne_endOfCode
    simp [h]
  unfold decode at h
  repeat' split at h
  all_goals cases h
  · simp only [width]
    omega
  · rename_i found
    have := Operand.end_le_of_window? found
    simp only [width]
    omega

end Instruction

end StackMachine
