import StackMachine.Listing.Row
import StackMachine.Stack

/-!
The machine and its single step. A step fetches the opcode and the operand at the instruction
pointer, moving the pointer past what it has read, and then executes the opcode. The machine that
a failing step leaves behind keeps what the step did before it failed.
-/
namespace StackMachine

structure Config where
  /-- How many values the stack may hold. -/
  stackLimit : Nat := 256
  /-- Log every instruction before it is executed. -/
  traced : Bool := false

structure Machine where
  stack : Stack
  traced : Bool
  /-- The offset of the next instruction. -/
  ip : Nat
  halted : Bool

namespace Machine

def new (config : Config) (heap : Allocator := .standard) : Machine where
  stack := .empty config.stackLimit heap
  traced := config.traced
  ip := 0
  halted := false

instance : Inhabited Machine := ⟨new {}⟩

def config (m : Machine) : Config where
  stackLimit := m.stack.limit
  traced := m.traced

abbrev Action (α : Type) := EStateM FaultKind Machine α

@[inline] def onStack {α : Type} (act : EStateM FaultKind Stack α) : Action α :=
  fun ⟨stack, traced, ip, halted⟩ =>
    match act stack with
    | .ok a stack => .ok a ⟨stack, traced, ip, halted⟩
    | .error e stack => .error e ⟨stack, traced, ip, halted⟩

/-- Read the opcode at the instruction pointer and move past it. A byte that is no opcode is
passed too. -/
def fetchOpcode (code : Array UInt8) : Action Opcode := fun m =>
  match code[m.ip]? with
  | none => .error .unexpectedEndOfCode m
  | some byte =>
    match Opcode.ofByte? byte with
    | none => .error (.invalidOpcode byte) { m with ip := m.ip + 1 }
    | some opcode => .ok opcode { m with ip := m.ip + 1 }

/-- Read the operand of an opcode and move past it; zero for an opcode without operand. -/
def fetchOperand (code : Array UInt8) (opcode : Opcode) : Action UInt32 := fun m =>
  match Operand.window? code m.ip opcode.operandWidth with
  | none => .error .truncatedInstruction m
  | some bytes => .ok (Operand.read bytes) { m with ip := m.ip + opcode.operandWidth }

def load (constants : ConstantPool) (index : Nat) : Action Unit := fun m =>
  match constants.get? index with
  | none => .error (.invalidConstant index) m
  | some value => onStack (Stack.push value) m

def halt : Action Unit := fun m =>
  .ok () { m with halted := true }

def unary (op : Float → Float) : Action Unit := do
  let value ← onStack Stack.pop
  onStack (Stack.push (.number (op value.toFloat)))

/-- Replace the two numbers on top; the upper one is the right operand. -/
def binary (op : Float → Float → Float) : Action Unit := do
  let right ← onStack Stack.pop
  let left ← onStack Stack.pop
  onStack (Stack.push (.number (op left.toFloat right.toFloat)))

def dispatch (constants : ConstantPool) (opcode : Opcode) (operand : UInt32) : Action Unit :=
  match opcode with
  | .constant => load constants operand.toNat
  | .constantLong => load constants operand.toNat
  | .ret => halt
  | .negate => unary fun x => -x
  | .add => binary fun x y => x + y
  | .subtract => binary fun x y => x - y
  | .multiply => binary fun x y => x * y
  | .divide => binary fun x y => x / y

def step (chunk : Chunk) : Action Unit := do
  let opcode ← fetchOpcode chunk.code.toArray
  let operand ← fetchOperand chunk.code.toArray opcode
  dispatch chunk.constants opcode operand

end Machine

end StackMachine
