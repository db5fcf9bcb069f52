import StackMachine.Buffer
import StackMachine.Instruction
import StackMachine.Value

/-!
Chunks of code: instruction bytes, the source line of every byte, and the pool of constants that
the instructions name by index. Every building step reserves all the room that it needs before
it writes anything, so a step that fails writes nothing.
-/
namespace StackMachine

abbrev ConstantPool := Buffer Value

structure Chunk where
  code : Buffer UInt8
  lines : Buffer Nat
  constants : ConstantPool

namespace Chunk

def empty : Chunk := ⟨.empty, .empty, .empty⟩

instance : Inhabited Chunk := ⟨empty⟩

/-- Equal chunks agree in all three buffers, capacities included. -/
instance : BEq Chunk where
  beq a b := a.code == b.code && a.lines == b.lines && a.constants == b.constants

def size (chunk : Chunk) : Nat := chunk.code.size

def isEmpty (chunk : Chunk) : Bool := chunk.code.isEmpty

def lineAt? (chunk : Chunk) (offset : Nat) : Option Nat := chunk.lines.get? offset

def constant? (chunk : Chunk) (index : Nat) : Option Value := chunk.constants.get? index

@[inline] def onCode {α : Type} (act : Build (Buffer UInt8) α) : Build Chunk α :=
  fun ⟨code, lines, constants⟩ =>
    match act code with
    | .ok a code => .ok a ⟨code, lines, constants⟩
    | .error e code => .error e ⟨code, lines, constants⟩

@[inline] def onLines {α : Type} (act : Build (Buffer Nat) α) : Build Chunk α :=
  fun ⟨code, lines, constants⟩ =>
    match act lines with
    | .ok a lines => .ok a ⟨code, lines, constants⟩
    | .error e lines => .error e ⟨code, lines, constants⟩

@[inline] def onConstants {α : Type} (act : Build ConstantPool α) : Build Chunk α :=
  fun ⟨code, lines, constants⟩ =>
    match act constants with
    | .ok a constants => .ok a ⟨code, lines, constants⟩
    | .error e constants => .error e ⟨code, lines, constants⟩

/-- Append a byte that is already paid for, with its line. -/
def append (heap : Allocator) (line : Nat) (byte : UInt8) : Build Chunk Unit := do
  let _ ← onCode (Buffer.append heap byte)
  let _ ← onLines (Buffer.append heap line)

def write (heap : Allocator) (byte : UInt8) (line : Nat) : Build Chunk Unit := do
  onCode (Buffer.reserveOne heap)
  onLines (Buffer.reserveOne heap)
  append heap line byte

def writeOpcode (heap : Allocator) (opcode : Opcode) (line : Nat) : Build Chunk Unit :=
  write heap opcode.byte line

/-- Add a value to the pool, returning its index. -/
def addConstant (heap : Allocator) (value : Value) : Build Chunk Nat :=
  onConstants (Buffer.append heap value)

/-- How many constants an instruction can tell apart. -/
def constantLimit : Nat := 16777216

/-- Add a constant and write the instruction that loads it, returning its index. -/
def writeConstant (heap : Allocator) (value : Value) (line : Nat) : Build Chunk Nat := do
  let index := (← get).constants.size
  if constantLimit ≤ index then
    throw (.tooManyConstants constantLimit)
  else
    let bytes := (Instruction.load index).encode
    onConstants (Buffer.reserveOne heap)
    onCode (Buffer.reserve heap bytes.length)
    onLines (Buffer.reserve heap bytes.length)
    let _ ← addConstant heap value
    bytes.forM (append heap line)
    return index

def release : Build Chunk Unit := do
  onCode Buffer.release
  onLines Buffer.release
  onConstants Buffer.release

end Chunk

end StackMachine
