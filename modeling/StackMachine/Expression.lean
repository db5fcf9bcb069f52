import StackMachine.Chunk

/-!
Arithmetic expressions, their value, and the code that computes it: the operands from left to
right, then the operator.
-/
namespace StackMachine

inductive Operator where
  | add
  | subtract
  | multiply
  | divide
  deriving DecidableEq

namespace Operator

def apply : Operator → Float → Float → Float
  | .add, x, y => x + y
  | .subtract, x, y => x - y
  | .multiply, x, y => x * y
  | .divide, x, y => x / y

def opcode : Operator → Opcode
  | .add => .add
  | .subtract => .subtract
  | .multiply => .multiply
  | .divide => .divide

end Operator

/-- An expression whose every node comes from a source line. -/
inductive Expression where
  | literal (x : Float) (line : Nat)
  | negate (operand : Expression) (line : Nat)
  | binary (operator : Operator) (left right : Expression) (line : Nat)

namespace Expression

def eval : Expression → Float
  | .literal x _ => x
  | .negate operand _ => -operand.eval
  | .binary operator left right _ => operator.apply left.eval right.eval

def emit (heap : Allocator) : Expression → Build Chunk Unit
  | .literal x line => do
    let _ ← Chunk.writeConstant heap (.number x) line
  | .negate operand line => do
    operand.emit heap
    Chunk.writeOpcode heap .negate line
  | .binary operator left right line => do
    left.emit heap
    right.emit heap
    Chunk.writeOpcode heap operator.opcode line

def emitProgram (heap : Allocator) (e : Expression) (line : Nat) : Build Chunk Unit := do
  e.emit heap
  Chunk.writeOpcode heap .ret line

end Expression

end StackMachine
