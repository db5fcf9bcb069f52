import StackMachine.Chunk

/-!
One row of a listing: what stands at an offset of a chunk, whatever its bytes are, and the text
of the row.
-/
namespace StackMachine

inductive LineMark where
  | line (number : Nat)
  /-- The line of the row above. -/
  | continued
  /-- No line is recorded. -/
  | unknown
  deriving DecidableEq

inductive RowContent where
  /-- An instruction without operand. -/
  | simple (opcode : Opcode)
  /-- An instruction that names a constant, with the value if the pool has it. -/
  | constant (opcode : Opcode) (index : Nat) (value : Option Value)
  /-- An opcode whose operand is cut off by the end of the code. -/
  | truncated (opcode : Opcode)
  /-- A byte that is no opcode. -/
  | unknown (byte : UInt8)

structure Row where
  offset : Nat
  line : LineMark
  content : RowContent
  /-- The offset at which the next row starts. -/
  next : Nat

def LineMark.text : LineMark → String
  | .line number => Text.alignRight 4 ' ' (toString number) ++ " "
  | .continued => "   | "
  | .unknown => "   ? "

/-- A constant in quotes, as a user sees it. -/
def RowContent.valueText : Option Value → String
  | some value => "'" ++ value.display ++ "'"
  | none => "<out of range>"

def RowContent.text : RowContent → String
  | .simple opcode => opcode.mnemonic
  | .constant opcode index value =>
    Text.alignLeft 16 ' ' opcode.mnemonic ++ " " ++
      Text.alignRight 4 ' ' (toString index) ++ " " ++ valueText value
  | .truncated opcode => opcode.mnemonic ++ " <truncated>"
  | .unknown byte => "Unknown opcode 0x" ++ Text.hexByte byte

namespace Row

/-- The offset in at least four digits, the line, and the content. -/
def text (row : Row) : String :=
  Text.zeroPadded 4 row.offset ++ " " ++ row.line.text ++ row.content.text

def lineMark (chunk : Chunk) (offset : Nat) : LineMark :=
  match chunk.lineAt? offset with
  | some number => .line number
  | none => .unknown

/-- The content of an instruction, its operand read as the index of a constant. -/
def contentOf (chunk : Chunk) (i : Instruction) : RowContent :=
  match i.operand with
  | some operand => .constant i.opcode operand.toNat (chunk.constant? operand.toNat)
  | none => .simple i.opcode

/-- What stands at an offset, without regard to the row above; nothing past the end of the
code. A byte that is no opcode makes a row of its own, and a truncated instruction takes the
rest of the code. -/
def at? (chunk : Chunk) (offset : Nat) : Option Row :=
  match Instruction.decode chunk.code.toArray offset with
  | .ok i =>
    some ⟨offset, lineMark chunk offset, contentOf chunk i, offset + i.width⟩
  | .error (.unknown byte) =>
    some ⟨offset, lineMark chunk offset, .unknown byte, offset + 1⟩
  | .error (.truncated opcode) =>
    some ⟨offset, lineMark chunk offset, .truncated opcode, chunk.size⟩
  | .error .endOfCode => none

/-- A row starts at a byte of the code. -/
theorem lt_size_of_at? {chunk : Chunk} {offset : Nat} {row : Row}
    (h : at? chunk offset = some row) : offset < chunk.size := by
  have found : Instruction.decode chunk.code.toArray offset ≠ .error .endOfCode := by
    intro atEnd
    simp [at?, atEnd] at h
  exact Instruction.lt_size_of_decode_ne_endOfCode found

/-- Rows advance and stay inside the code. -/
theorem offset_lt_next_of_at? {chunk : Chunk} {offset : Nat} {row : Row}
    (h : at? chunk offset = some row) : offset < row.next ∧ row.next ≤ chunk.size := by
  have inside := lt_size_of_at? h
  unfold at? at h
  split at h
  · rename_i i decoded
    have := Instruction.end_le_of_decode decoded
    cases h
    simp only [Instruction.width] at this ⊢
    exact ⟨by omega, this⟩
  · cases h
    exact ⟨Nat.lt_succ_self _, inside⟩
  · cases h
    exact ⟨inside, Nat.le_refl _⟩
  · cases h

end Row

end StackMachine
