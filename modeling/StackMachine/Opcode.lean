/-!
The instruction set: eight opcodes with their byte, mnemonic, operand width and declared effect
on the operand stack.
-/
namespace StackMachine

inductive Opcode where
  /-- Load a constant named by one byte. -/
  | constant
  /-- End the program. -/
  | ret
  /-- Load a constant named by three bytes. -/
  | constantLong
  | negate
  | add
  | subtract
  | multiply
  | divide
  deriving DecidableEq

/-- How many values an instruction takes from the stack and how many it leaves instead. -/
structure StackEffect where
  pops : Nat
  pushes : Nat
  deriving DecidableEq

namespace Opcode

def byte : Opcode → UInt8
  | .constant => 0
  | .ret => 1
  | .constantLong => 2
  | .negate => 3
  | .add => 4
  | .subtract => 5
  | .multiply => 6
  | .divide => 7

def ofByte? (b : UInt8) : Option Opcode :=
  if b = 0 then some .constant
  else if b = 1 then some .ret
  else if b = 2 then some .constantLong
  else if b = 3 then some .negate
  else if b = 4 then some .add
  else if b = 5 then some .subtract
  else if b = 6 then some .multiply
  else if b = 7 then some .divide
  else none

def operandWidth : Opcode → Nat
  | .constant => 1
  | .constantLong => 3
  | _ => 0

def stackEffect : Opcode → StackEffect
  | .constant => ⟨0, 1⟩
  | .constantLong => ⟨0, 1⟩
  | .ret => ⟨0, 0⟩
  | .negate => ⟨1, 1⟩
  | .add => ⟨2, 1⟩
  | .subtract => ⟨2, 1⟩
  | .multiply => ⟨2, 1⟩
  | .divide => ⟨2, 1⟩

def mnemonic : Opcode → String
  | .constant => "OP_CONSTANT"
  | .ret => "OP_RETURN"
  | .constantLong => "OP_CONSTANT_LONG"
  | .negate => "OP_NEGATE"
  | .add => "OP_ADD"
  | .subtract => "OP_SUBTRACT"
  | .multiply => "OP_MULTIPLY"
  | .divide => "OP_DIVIDE"

/-- Every opcode is read back from its own byte. -/
@[simp] theorem ofByte?_byte (op : Opcode) : ofByte? op.byte = some op := by
  cases op <;> rfl

/-- No second byte is read as the same opcode. -/
theorem byte_of_ofByte? {b : UInt8} {op : Opcode} (h : ofByte? b = some op) : op.byte = b := by
  unfold ofByte? at h
  repeat' split at h
  all_goals simp_all [byte]
  all_goals (subst h; rfl)

end Opcode

end StackMachine
