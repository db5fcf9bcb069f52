import StackMachine.Proofs.Emission
import StackMachine.Proofs.Tiling

/-! Programs that are written instruction by instruction are listed instruction by instruction.
The bytes of an operand may be those of opcodes, but nothing is ever decoded there. -/
namespace StackMachine

namespace Chunk

/-- Steps that append bytes one after the other append all of them. -/
theorem Builds.forM {α : Type} {act : α → Build Chunk Unit} {bytesOf : α → List UInt8}
    (hAct : ∀ item chunk,
      Builds (act item chunk) (fun _ next => chunk.Extends next (bytesOf item) [])
        (fun _ => True)) (items : List α) (chunk : Chunk) :
    Builds (items.forM act chunk)
      (fun _ next => chunk.Extends next (items.flatMap bytesOf) []) (fun _ => True) := by
  induction items generalizing chunk with
  | nil => exact .inl ⟨(), chunk, rfl, (List.append_nil _).symm, (List.append_nil _).symm⟩
  | cons item rest ih =>
      apply (hAct item chunk).bind
      intro _ middle hMiddle
      refine (ih middle).imp ?_ (fun _ => id)
      intro _ next hNext
      exact hMiddle.trans hNext

def writeAt (heap : Allocator) (lineOf : Nat → Nat) (byte : UInt8) : Build Chunk Unit := do
  write heap byte (lineOf (← get).size)

/-- Write an opcode, and then the low bytes of its operand, the lowest one first. -/
def writeInstruction (heap : Allocator) (lineOf : Nat → Nat) (i : Instruction) :
    Build Chunk Unit := do
  writeOpcode heap i.opcode (lineOf (← get).size)
  (Operand.write i.opcode.operandWidth (i.operand.getD 0)).forM (writeAt heap lineOf)

def writeProgram (heap : Allocator) (lineOf : Nat → Nat) (program : List Instruction) :
    Build Chunk Unit :=
  program.forM (writeInstruction heap lineOf)

theorem writeInstruction_builds (heap : Allocator) (lineOf : Nat → Nat) (i : Instruction)
    (chunk : Chunk) :
    Builds (writeInstruction heap lineOf i chunk)
      (fun _ next => chunk.Extends next i.encode []) (fun _ => True) := by
  have hWriteAt (byte : UInt8) (chunk : Chunk) :
      Builds (writeAt heap lineOf byte chunk)
        (fun _ next => chunk.Extends next [byte] []) (fun _ => True) :=
    write_builds heap byte (lineOf chunk.size) chunk
  change Builds ((writeOpcode heap i.opcode (lineOf chunk.size) >>= fun _ =>
    (Operand.write i.opcode.operandWidth (i.operand.getD 0)).forM (writeAt heap lineOf)) chunk) _ _
  apply (writeOpcode_builds heap i.opcode (lineOf chunk.size) chunk).bind
  intro _ middle hMiddle
  refine (Builds.forM hWriteAt _ middle).imp ?_ (fun _ => id)
  intro _ next hNext
  have hBoth := hMiddle.trans hNext
  rw [List.flatMap_singleton'] at hBoth
  exact hBoth

/-- A program is written as the bytes of its instructions, or memory runs out. -/
theorem writeProgram_builds (heap : Allocator) (lineOf : Nat → Nat)
    (program : List Instruction) (chunk : Chunk) :
    Builds (writeProgram heap lineOf program chunk)
      (fun _ next => chunk.Extends next (Instruction.encodeAll program) []) (fun _ => True) :=
  Builds.forM (writeInstruction_builds heap lineOf) program chunk

end Chunk

/-- What the row of an instruction shows: where it stands, its opcode, and its operand as the index
of a constant. Decoding at the offset of the row gives the instruction back. -/
structure Row.Shows (chunk : Chunk) (row : Row) (offset : Nat) (i : Instruction) : Prop where
  offset : row.offset = offset
  content : row.content =
    match i.operand with
    | none => .simple i.opcode
    | some operand => .constant i.opcode operand.toNat chunk.constants.items[operand.toNat]?
  decode : Instruction.decode chunk.code.toArray row.offset = .ok i

/-- A row that shows an instruction has the content the chunk gives it. -/
theorem Row.Shows.contentOf_eq {chunk : Chunk} {row : Row} {offset : Nat} {i : Instruction}
    (h : row.Shows chunk offset i) : row.content = Row.contentOf chunk i := by
  obtain ⟨-, hContent, -⟩ := h
  obtain ⟨opcode, _ | operand⟩ := i
  · exact hContent
  · exact hContent

namespace Listing

/-- Where the code continues with an instruction, the listing continues with its row. -/
theorem rowsBelow_of_carries {chunk : Chunk} {offset : Nat} {i : Instruction}
    (hForm : i.WellFormed) (hCarries : Carries chunk.code.toArray offset i.encode)
    (previous : Option Nat) :
    ∃ row : Row, row.Shows chunk offset i ∧ rowsBelow chunk previous offset =
      row :: rowsBelow chunk (chunk.lineAt? offset) (offset + i.width) := by
  have hDecode := Instruction.decode_of_carries hForm hCarries
  obtain ⟨mark, hBelow⟩ :=
    rowBelow?_of_at? (Row.at?_eq_some_iff.mpr (.inl ⟨i, hDecode, rfl⟩)) previous
  refine ⟨_, ⟨rfl, ?_, hDecode⟩, rowsBelow_of_some hBelow⟩
  obtain ⟨opcode, _ | operand⟩ := i
  · rfl
  · rfl

/-- The rest of the code is a program, so the rest of the listing has one row for each of its
instructions. An instruction stands behind those before it, because the row of the first one ends
where the other instructions begin. -/
theorem rowsBelow_of_program {chunk : Chunk} {program : List Instruction} {offset : Nat}
    (hForm : ∀ i ∈ program, i.WellFormed)
    (hCarries : Carries chunk.code.toArray offset (Instruction.encodeAll program))
    (hEnd : offset + (Instruction.encodeAll program).length = chunk.size)
    (previous : Option Nat) :
    (rowsBelow chunk previous offset).length = program.length ∧
      ∀ k i, program[k]? = some i → ∃ row : Row,
        (rowsBelow chunk previous offset)[k]? = some row ∧
        row.Shows chunk (offset + ((program.take k).map Instruction.width).sum) i := by
  induction program generalizing offset previous with
  | nil =>
      have hRows : rowsBelow chunk previous offset = [] :=
        (tiles_rowsBelow (Nat.le_of_eq hEnd) previous).eq_nil_of_le (Nat.le_of_eq hEnd.symm)
      rw [hRows]
      exact ⟨rfl, nofun⟩
  | cons first rest ih =>
      rw [List.forall_mem_cons] at hForm
      obtain ⟨hFirst, hRest⟩ := carries_append_iff.mp hCarries
      obtain ⟨row, hShows, hRows⟩ := rowsBelow_of_carries hForm.1 hFirst previous
      rw [Instruction.encodeAll_cons, List.length_append, ← Nat.add_assoc,
        Instruction.length_encode] at hEnd
      rw [Instruction.length_encode] at hRest
      obtain ⟨hLength, hLater⟩ := ih hForm.2 hRest hEnd (chunk.lineAt? offset)
      rw [hRows]
      refine ⟨congrArg Nat.succ hLength, fun k i hAt => ?_⟩
      cases k with
      | zero =>
          cases hAt
          exact ⟨row, rfl, hShows⟩
      | succ k =>
          obtain ⟨later, hFound, hLaterShows⟩ := hLater k i hAt
          rw [List.take_succ_cons, List.map_cons, List.sum_cons, ← Nat.add_assoc]
          exact ⟨later, hFound, hLaterShows⟩

/-- Decoding undoes encoding for whole programs. If memory suffices to write well-formed
instructions into an empty chunk, its listing has exactly one row for each of them, and an
instruction is decoded at the sum of the widths of those before it. Different programs have
different bytes. -/
theorem rows_of_written_program {program : List Instruction}
    (hForm : ∀ i ∈ program, i.WellFormed) :
    (∀ (heap : Allocator) (lineOf : Nat → Nat),
      Chunk.Builds (Chunk.writeProgram heap lineOf program .empty)
        (fun _ chunk =>
          chunk.code.toList = Instruction.encodeAll program ∧
          (rows chunk).size = program.length ∧
          ∀ k i, program[k]? = some i → ∃ row : Row, (rows chunk)[k]? = some row ∧
            row.Shows chunk ((program.take k).map Instruction.width).sum i)
        (fun _ => True)) ∧
    ∀ other : List Instruction, (∀ i ∈ other, i.WellFormed) → other ≠ program →
      Instruction.encodeAll other ≠ Instruction.encodeAll program := by
  constructor
  · intro heap lineOf
    refine (Chunk.writeProgram_builds heap lineOf program .empty).imp ?_ (fun _ => id)
    intro _ chunk hWritten
    have hCode : chunk.code.toList = Instruction.encodeAll program := hWritten.code
    have hEnd : 0 + (Instruction.encodeAll program).length = chunk.size := by
      rw [Nat.zero_add, ← hCode]
      rfl
    obtain ⟨hLength, hRows⟩ :=
      rowsBelow_of_program hForm (carries_of_toList_eq hCode) hEnd none
    refine ⟨hCode, hLength, fun k i hAt => ?_⟩
    obtain ⟨row, hFound, hShows⟩ := hRows k i hAt
    rw [Nat.zero_add] at hShows
    rw [← Array.getElem?_toList]
    exact ⟨row, hFound, hShows⟩
  · intro other hOther hDifferent hSame
    exact hDifferent (Instruction.eq_of_encodeAll_eq hOther hForm hSame)

/-- Load by an index whose bytes are those of a division, a return and a load, then load by a
short index and return. -/
def disguised : List Instruction :=
  [⟨.constantLong, some 0x000107⟩, ⟨.constant, some 1⟩, ⟨.ret, none⟩]

/-- The rows of the disguised program show its three instructions and none of their operands. -/
theorem rows_of_disguised :
    ∃ chunk, Chunk.writeProgram .standard (· / 3) disguised .empty = .ok () chunk ∧
      chunk.code.toList = [2, 7, 1, 0, 0, 1, 1] ∧ (rows chunk).size = 3 ∧
      (∃ row : Row, (rows chunk)[2]? = some row ∧ row.Shows chunk 6 ⟨.ret, none⟩) ∧
      Instruction.encodeAll [⟨.constantLong, some 0x000107⟩] ≠
        Instruction.encodeAll disguised := by
  have hForm : ∀ i ∈ disguised, i.WellFormed := by decide
  obtain ⟨hWritten, hOnly⟩ := rows_of_written_program hForm
  have hOther := hOnly [⟨.constantLong, some 0x000107⟩] (by decide) (by decide)
  have hMemory : ¬Chunk.RanOutOfMemory
      (Chunk.writeProgram .standard (· / 3) disguised .empty) := by
    decide +kernel
  obtain ⟨_, chunk, hOk, hCode, hSize, hRows⟩ :=
    (hWritten .standard (· / 3)).of_memory hMemory
  exact ⟨chunk, hOk, hCode, hSize, hRows 2 _ rfl, hOther⟩

end Listing

end StackMachine
