import StackMachine.Proofs.Construction
import StackMachine.Proofs.Programs

/-! Chunks that are written call by call, each call writing a whole instruction or none. A draft
keeps a record of the calls, and the listing of its chunk is that record read back from bytes. -/
namespace StackMachine

/-- What can be executed if there are operands and room for the result: an operation, or the load
of a constant that is there. -/
def RowContent.Executable : RowContent → Prop
  | .simple opcode => opcode.operandWidth = 0
  | .constant _ _ (some _) => True
  | .constant _ _ none | .truncated _ | .unknown _ => False

/-- A row that can be executed faults only for want of values or of room. -/
theorem RowContent.kind_of_executable {content : RowContent} {limit : Nat} {values : List Value}
    {kind : FaultKind} (h : content.Executable)
    (hFaults : content.effect limit values = .faults kind) :
    kind = .stackUnderflow ∨ kind = .stackOverflow := by
  cases content with
  | simple opcode => exact (opcode_effect_eq_faults h hFaults).imp id And.left
  | constant opcode index value =>
      cases value with
      | none => exact absurd h id
      | some value => exact .inr (Effect.push_eq_faults_iff.mp hFaults).2
  | truncated opcode => exact absurd h id
  | unknown byte => exact absurd h id

/-- A program of such rows lacks operands, room or a return, but nothing else. -/
theorem kind_of_executable {rows : List Row} (h : ∀ row ∈ rows, row.content.Executable)
    {limit size offset : Nat} {values : List Value} {kind : FaultKind}
    (hFault : (interpret limit size rows values).fault = some (offset, kind)) :
    kind = .stackUnderflow ∨ kind = .stackOverflow ∨ kind = .unexpectedEndOfCode := by
  induction rows generalizing values with
  | nil =>
      cases hFault
      exact .inr (.inr rfl)
  | cons row rest ih =>
      rw [List.forall_mem_cons] at h
      rw [interpret] at hFault
      cases hEffect : row.content.effect limit values with
      | continues after =>
          rw [hEffect] at hFault
          exact ih h.2 hFault
      | returns =>
          rw [hEffect] at hFault
          cases hFault
      | faults cause =>
          rw [hEffect] at hFault
          cases hFault
          exact (RowContent.kind_of_executable h.1 hEffect).imp id .inl

/-- The row of an instruction ends where the instruction ends. -/
theorem Row.Shows.next_eq {chunk : Chunk} {row : Row} {offset : Nat} {i : Instruction}
    (h : row.Shows chunk offset i) {mark : LineMark}
    (hPlain : Row.at? chunk row.offset = some { row with line := mark }) :
    row.next = row.offset + i.width := by
  have hRow := Row.at?_eq_some_iff.mpr (.inl ⟨i, h.decode, rfl⟩)
  exact congrArg Row.next (Option.some.inj (hPlain.symm.trans hRow))

/-- What a producer of code asks of a chunk. Bytes are never written on their own: an opcode is
written only if it has no operand, and a load only together with its constant. -/
inductive Call where
  | writeOpcode (opcode : Opcode) (hPlain : opcode.operandWidth = 0) (line : Nat)
  | writeConstant (value : Value) (line : Nat)
  | addConstant (value : Value)
  | release
  /-- Go on with a copy. It has the contents and the capacities of the chunk. -/
  | copy

/-- What a call has written: an operation, or the load of the constant that was passed, under the
index that was returned. -/
inductive Written where
  | operation (opcode : Opcode)
  | load (index : Nat) (value : Value)

namespace Written

def instruction : Written → Instruction
  | .operation opcode => ⟨opcode, none⟩
  | .load index _ => Instruction.load index

def content : Written → RowContent
  | .operation opcode => .simple opcode
  | .load index value => .constant (Instruction.load index).opcode index (some value)

/-- An operation has no operand, and a load finds its constant in the pool. -/
def Sound (constants : List Value) : Written → Prop
  | .operation opcode => opcode.operandWidth = 0
  | .load index value => index < Chunk.constantLimit ∧ constants[index]? = some value

/-- What was written soundly stays so while the pool grows. -/
theorem Sound.mono {before after : List Value} {written : Written} (h : written.Sound before)
    (hPrefix : before <+: after) : written.Sound after := by
  cases written with
  | operation opcode => exact h
  | load index value =>
      obtain ⟨more, rfl⟩ := hPrefix
      have hInside : index < before.length := (List.getElem?_eq_some_iff.mp h.2).1
      exact ⟨h.1, (List.getElem?_append_left hInside).trans h.2⟩

theorem Sound.wellFormed {constants : List Value} {written : Written}
    (h : written.Sound constants) : written.instruction.WellFormed := by
  cases written with
  | operation opcode => exact h
  | load index value =>
      rw [instruction, ← Load.instruction_ofIndex h.1]
      exact (Load.ofIndex index).wellFormed_instruction

/-- A sound record is shown by a row that can be executed. -/
theorem Sound.executable {constants : List Value} {written : Written}
    (h : written.Sound constants) : written.content.Executable := by
  cases written with
  | operation opcode => exact h
  | load index value => trivial

/-- The chunk shows a sound record with the content that was written. -/
theorem Sound.contentOf {chunk : Chunk} {written : Written}
    (h : written.Sound chunk.constants.toList) :
    Row.contentOf chunk written.instruction = written.content := by
  cases written with
  | operation opcode => rfl
  | load index value =>
      obtain ⟨operand, hOperand, hIndex⟩ := (Load.ofIndex index).operand_instruction
      rw [Load.instruction_ofIndex h.1] at hOperand
      rw [Load.index_ofIndex h.1] at hIndex
      have hValue : chunk.constant? index = some value :=
        Array.getElem?_toList.symm.trans h.2
      simp only [instruction, Row.contentOf, hOperand, hIndex, hValue, content]

end Written

/-- The record of a call that has written an instruction: the size of the code when it was made,
its source line, and what was written. -/
structure Entry where
  offset : Nat
  line : Nat
  written : Written

namespace Entry

def instruction (entry : Entry) : Instruction := entry.written.instruction

def lines (entry : Entry) : List Nat := List.replicate entry.instruction.width entry.line

end Entry

/-- A chunk, with a record of the calls that have written an instruction since it was last
released. -/
structure Draft where
  chunk : Chunk
  entries : List Entry

namespace Draft

def blank : Draft := ⟨.empty, []⟩

/-- The draft after a call. A call that fails leaves no record. -/
def after (draft : Draft) (heap : Allocator) : Call → Draft
  | .writeOpcode opcode _ line =>
    match Chunk.writeOpcode heap opcode line draft.chunk with
    | .ok _ next => ⟨next, draft.entries ++ [⟨draft.chunk.size, line, .operation opcode⟩]⟩
    | .error _ left => ⟨left, draft.entries⟩
  | .writeConstant value line =>
    match Chunk.writeConstant heap value line draft.chunk with
    | .ok index next => ⟨next, draft.entries ++ [⟨draft.chunk.size, line, .load index value⟩]⟩
    | .error _ left => ⟨left, draft.entries⟩
  | .addConstant value =>
    match Chunk.addConstant heap value draft.chunk with
    | .ok _ next => ⟨next, draft.entries⟩
    | .error _ left => ⟨left, draft.entries⟩
  | .release =>
    match Chunk.release draft.chunk with
    | .ok _ next => ⟨next, []⟩
    | .error _ left => ⟨left, draft.entries⟩
  | .copy => draft

/-- The draft after several calls. Each of them may meet another allocator. -/
def afterAll (draft : Draft) (calls : List (Allocator × Call)) : Draft :=
  calls.foldl (fun draft call => draft.after call.1 call.2) draft

def program (draft : Draft) : List Instruction := draft.entries.map Entry.instruction

/-- The chunk holds what is recorded, and nothing else but constants. -/
structure Inscribed (draft : Draft) : Prop where
  code : draft.chunk.code.toList = Instruction.encodeAll draft.program
  lines : draft.chunk.lines.toList = draft.entries.flatMap Entry.lines
  offset : ∀ k entry, draft.entries[k]? = some entry →
    entry.offset = ((draft.program.take k).map Instruction.width).sum
  sound : ∀ entry ∈ draft.entries, entry.written.Sound draft.chunk.constants.toList

theorem inscribed_blank : blank.Inscribed :=
  ⟨rfl, rfl, nofun, nofun⟩

namespace Inscribed

variable {draft : Draft}

theorem size_eq (h : draft.Inscribed) :
    draft.chunk.size = (draft.program.map Instruction.width).sum := by
  rw [← Instruction.length_encodeAll, ← h.code]
  rfl

/-- What is recorded does not depend on capacities, and more constants do no harm. -/
theorem of_contents (h : draft.Inscribed) {next : Chunk}
    (hCode : next.contents.code = draft.chunk.contents.code)
    (hLines : next.contents.lines = draft.chunk.contents.lines)
    (hConstants : draft.chunk.contents.constants <+: next.contents.constants) :
    Inscribed ⟨next, draft.entries⟩ where
  code := hCode.trans h.code
  lines := hLines.trans h.lines
  offset := h.offset
  sound := fun entry hEntry => (h.sound entry hEntry).mono hConstants

/-- A call that failed leaves the draft as the records describe it. -/
theorem of_same_contents (h : draft.Inscribed) {next : Chunk}
    (hSame : next.contents = draft.chunk.contents) : Inscribed ⟨next, draft.entries⟩ := by
  have hConstants := congrArg Chunk.Contents.constants hSame
  exact h.of_contents (congrArg Chunk.Contents.code hSame)
    (congrArg Chunk.Contents.lines hSame) (hConstants ▸ List.prefix_rfl)

/-- One instruction more, at the end of the code. -/
theorem snoc (h : draft.Inscribed) {next : Chunk} {written : Written} {line : Nat}
    {known : List Value} (hKnown : draft.chunk.contents.constants <+: known)
    (hSound : written.Sound known)
    (hNext : next.contents =
      { draft.chunk.contents with constants := known }.emit line written.instruction.encode) :
    Inscribed ⟨next, draft.entries ++ [⟨draft.chunk.size, line, written⟩]⟩ where
  code := by
    have hCode : next.code.toList = draft.chunk.code.toList ++ written.instruction.encode :=
      congrArg Chunk.Contents.code hNext
    rw [hCode, h.code, program, program, List.map_append, Instruction.encodeAll_append]
    exact congrArg _ (List.append_nil _).symm
  lines := by
    have hLines : next.lines.toList = draft.chunk.lines.toList ++
        List.replicate written.instruction.encode.length line :=
      congrArg Chunk.Contents.lines hNext
    rw [hLines, h.lines, Instruction.length_encode, List.flatMap_append]
    exact congrArg _ (List.append_nil _).symm
  offset := by
    intro k entry hEntry
    have hLength : draft.program.length = draft.entries.length := List.length_map _
    rw [program, List.map_append]
    rcases Nat.lt_or_ge k draft.entries.length with hOld | hNew
    · rw [List.getElem?_append_left hOld] at hEntry
      rw [List.take_append_of_le_length (hLength ▸ Nat.le_of_lt hOld)]
      exact h.offset k entry hEntry
    · rw [List.getElem?_append_right hNew] at hEntry
      cases hBeyond : k - draft.entries.length with
      | zero =>
          rw [hBeyond] at hEntry
          cases hEntry
          have hLast : draft.program.length = k := by omega
          rw [← program, List.take_left' hLast]
          exact h.size_eq
      | succ beyond =>
          rw [hBeyond] at hEntry
          cases hEntry
  sound := by
    have hConstants : next.constants.toList = known := congrArg Chunk.Contents.constants hNext
    rw [hConstants]
    intro entry hEntry
    rcases List.mem_append.mp hEntry with hOld | hNew
    · exact (h.sound entry hOld).mono hKnown
    · cases List.mem_singleton.mp hNew
      exact hSound

/-- Every call keeps the chunk and its record in agreement, whether it succeeds or fails. -/
theorem after (h : draft.Inscribed) (heap : Allocator) (call : Call) :
    (draft.after heap call).Inscribed := by
  cases call with
  | writeOpcode opcode hPlain line =>
      unfold Draft.after
      rcases Chunk.write_allOrNothing heap opcode.byte line draft.chunk with
        ⟨_, next, hOk, hNext⟩ | ⟨requested, left, hError, hLeft⟩
      · simp only [Chunk.writeOpcode, hOk]
        have hEncode : (Written.operation opcode).instruction.encode = [opcode.byte] := by
          simp only [Written.instruction, Instruction.encode, hPlain, Operand.write]
        rw [← hEncode] at hNext
        exact h.snoc List.prefix_rfl hPlain hNext
      · simp only [Chunk.writeOpcode, hError]
        exact h.of_same_contents hLeft
  | writeConstant value line =>
      unfold Draft.after
      rcases Nat.lt_or_ge draft.chunk.constants.size Chunk.constantLimit with hRoom | hFull
      · rcases Chunk.writeConstant_allOrNothing hRoom heap value line with
          ⟨index, next, hOk, rfl, hNext⟩ | ⟨requested, left, hError, hLeft⟩
        · simp only [hOk]
          refine h.snoc (List.prefix_append _ _) ⟨hRoom, ?_⟩ hNext
          exact List.getElem?_concat_length
        · simp only [hError]
          exact h.of_same_contents hLeft
      · simp only [Chunk.writeConstant_of_full hFull]
        exact h
  | addConstant value =>
      unfold Draft.after
      rcases Chunk.addConstant_allOrNothing heap value draft.chunk with
        ⟨index, next, hOk, -, hNext⟩ | ⟨requested, left, hError, hLeft⟩
      · simp only [hOk]
        refine h.of_contents ?_ ?_ ?_
        · rw [hNext]
          rfl
        · rw [hNext]
          rfl
        · rw [hNext]
          exact List.prefix_append _ _
      · simp only [hError]
        exact h.of_same_contents hLeft
  | release => exact inscribed_blank
  | copy => exact h

/-- After any calls, under whatever allocators, the records still describe the draft. -/
theorem afterAll (h : draft.Inscribed) (calls : List (Allocator × Call)) :
    (draft.afterAll calls).Inscribed := by
  induction calls generalizing draft with
  | nil => exact h
  | cons first rest ih => exact ih (h.after first.1 first.2)

theorem wellFormed_of_mem_program (h : draft.Inscribed) {i : Instruction}
    (hMember : i ∈ draft.program) : i.WellFormed := by
  obtain ⟨entry, hEntry, rfl⟩ := List.mem_map.mp hMember
  exact (h.sound entry hEntry).wellFormed

/-- The bytes of an instruction come from the line of its call. -/
theorem lineAt?_eq (h : draft.Inscribed) {k : Nat} {entry : Entry}
    (hEntry : draft.entries[k]? = some entry) {byte : Nat}
    (hInside : byte < entry.instruction.width) :
    draft.chunk.lineAt? (entry.offset + byte) = some entry.line := by
  obtain ⟨hBound, rfl⟩ := List.getElem?_eq_some_iff.mp hEntry
  have hLines := h.lines
  rw [← List.take_append_drop k draft.entries, List.drop_eq_getElem_cons hBound,
    List.flatMap_append, List.flatMap_cons] at hLines
  have hBefore : ((draft.entries.take k).flatMap Entry.lines).length =
      draft.entries[k].offset := by
    rw [h.offset k _ hEntry, program, ← List.map_take, List.map_map]
    simp only [List.length_flatMap, Entry.lines, List.length_replicate]
    rfl
  have hCarries := (carries_append_iff.mp (carries_of_toList_eq hLines)).2
  rw [Nat.zero_add, hBefore] at hCarries
  have hHere := (carries_append_iff.mp hCarries).1
  have hWidth : byte < draft.entries[k].lines.length := by
    rw [Entry.lines, List.length_replicate]
    exact hInside
  exact (hHere.getElem?_add hWidth).trans (List.getElem?_replicate_of_lt hInside)

/-- The listing reads the record back: one row for each entry, in the same order. -/
theorem exists_row (h : draft.Inscribed) :
    (Listing.rows draft.chunk).size = draft.entries.length ∧
      ∀ (k : Nat) (entry : Entry), draft.entries[k]? = some entry → ∃ row : Row,
        (Listing.rows draft.chunk)[k]? = some row ∧ row.offset = entry.offset ∧
          row.next = entry.offset + entry.instruction.width ∧
          row.content = entry.written.content := by
  have hEnd : 0 + (Instruction.encodeAll draft.program).length = draft.chunk.size := by
    rw [Nat.zero_add, ← h.code]
    rfl
  obtain ⟨hLength, hRows⟩ := Listing.rowsBelow_of_program
    (fun i hMember => h.wellFormed_of_mem_program hMember) (carries_of_toList_eq h.code) hEnd none
  refine ⟨hLength.trans (List.length_map _), fun k entry hEntry => ?_⟩
  have hInstruction : draft.program[k]? = some entry.instruction := by
    rw [program, List.getElem?_map, hEntry, Option.map_some]
  obtain ⟨row, hFound, hShows⟩ := hRows k entry.instruction hInstruction
  rw [Nat.zero_add, ← h.offset k entry hEntry] at hShows
  obtain ⟨mark, hPlain⟩ := Listing.at?_of_mem_rowsBelow (List.mem_of_getElem? hFound)
  rw [← Array.getElem?_toList]
  refine ⟨row, hFound, hShows.offset, ?_, ?_⟩
  · rw [← hShows.offset]
    exact hShows.next_eq hPlain
  · rw [hShows.contentOf_eq]
    exact (h.sound entry (List.mem_of_getElem? hEntry)).contentOf

/-- No byte of the chunk is outside an instruction, and no load is outside the pool. -/
theorem executable_of_mem_rows (h : draft.Inscribed) {row : Row}
    (hRow : row ∈ (Listing.rows draft.chunk).toList) : row.content.Executable := by
  obtain ⟨hLength, hRows⟩ := h.exists_row
  obtain ⟨k, hInside, hAt⟩ := List.mem_iff_getElem.mp hRow
  have hBound : k < draft.entries.length := hLength ▸ hInside
  obtain ⟨other, hOther, -, -, hContent⟩ :=
    hRows k draft.entries[k] (List.getElem?_eq_getElem hBound)
  rw [← Array.getElem?_toList, List.getElem?_eq_getElem hInside, hAt] at hOther
  cases hOther
  rw [hContent]
  exact (h.sound _ (List.getElem_mem hBound)).executable

end Inscribed
end Draft

/-- Chunks that are written call by call are well-formed. Whatever calls have been made of a new
chunk, and whichever of them have failed, its listing has exactly one row for each call since the
last release that has written an instruction. The rows come in the order of the calls. Each stands
where the code ended at its call, and all its bytes have the line of the call. The row of a load
shows the constant that was passed under the index that was returned. There are no other rows, so
no run can meet a byte that is no opcode, a cut-off operand, or a constant that is missing. -/
theorem drafts_are_well_formed (calls : List (Allocator × Call)) :
    let draft := Draft.blank.afterAll calls
    (Listing.rows draft.chunk).size = draft.entries.length ∧
    (∀ (k : Nat) (entry : Entry), draft.entries[k]? = some entry → ∃ row : Row,
      (Listing.rows draft.chunk)[k]? = some row ∧ row.offset = entry.offset ∧
        row.content = entry.written.content ∧
        ∀ offset, row.offset ≤ offset → offset < row.next →
          draft.chunk.lineAt? offset = some entry.line) ∧
    (∀ row ∈ (Listing.rows draft.chunk).toList, row.content.Executable) ∧
    ∀ (m : Machine) (fault : Fault), (m.run draft.chunk).fault = some fault →
      fault.kind = .stackUnderflow ∨ fault.kind = .stackOverflow ∨
        fault.kind = .unexpectedEndOfCode := by
  intro draft
  have hInscribed : draft.Inscribed := Draft.inscribed_blank.afterAll calls
  obtain ⟨hSize, hRows⟩ := hInscribed.exists_row
  refine ⟨hSize, fun k entry hEntry => ?_, fun row => hInscribed.executable_of_mem_rows,
    fun m fault hFault => ?_⟩
  · obtain ⟨row, hFound, hOffset, hNext, hContent⟩ := hRows k entry hEntry
    refine ⟨row, hFound, hOffset, hContent, fun offset hStart hEnd => ?_⟩
    rw [hOffset] at hStart
    obtain ⟨byte, rfl⟩ := Nat.exists_eq_add_of_le hStart
    exact hInscribed.lineAt?_eq hEntry (by omega)
  · rw [Machine.run_fault, Ending.report] at hFault
    obtain ⟨⟨offset, kind⟩, hEnding, rfl⟩ := Option.map_eq_some_iff.mp hFault
    exact kind_of_executable (fun row => hInscribed.executable_of_mem_rows) hEnding

/-- A constant without a load, a load that first finds no storage for its constant, and a
negation. -/
def retried : List (Allocator × Call) :=
  [(.standard, .addConstant (.number 5)), (Chunk.scarce, .writeConstant (.number 1) 6),
    (.standard, .writeConstant (.number 1) 7), (.standard, .writeOpcode .negate rfl 8)]

/-- The refused call leaves no row, and the repeated one loads the constant that it has added.
The program lacks a return, which is the only fault of it. -/
theorem rows_of_retried :
    let draft := Draft.blank.afterAll retried
    draft.entries = [⟨0, 7, .load 1 (.number 1)⟩, ⟨2, 8, .operation .negate⟩] ∧
      (Listing.rows draft.chunk).size = 2 ∧
      (∃ row : Row, (Listing.rows draft.chunk)[0]? = some row ∧ row.offset = 0 ∧
        row.content = .constant .constant 1 (some (.number 1)) ∧
        ∀ offset, row.offset ≤ offset → offset < row.next →
          draft.chunk.lineAt? offset = some 7) ∧
      ∃ fault, ((Machine.new {}).run draft.chunk).fault = some fault ∧
        (fault.kind = .stackUnderflow ∨ fault.kind = .stackOverflow ∨
          fault.kind = .unexpectedEndOfCode) := by
  intro draft
  have hEntries : (Draft.blank.afterAll retried).entries =
      [⟨0, 7, .load 1 (.number 1)⟩, ⟨2, 8, .operation .negate⟩] := by with_unfolding_all rfl
  obtain ⟨hSize, hRows, -, hFaults⟩ := drafts_are_well_formed retried
  have hFault : ((Machine.new {}).run (Draft.blank.afterAll retried).chunk).fault =
      some ⟨3, some 8, .unexpectedEndOfCode⟩ := by decide +kernel
  refine ⟨hEntries, hSize.trans (congrArg List.length hEntries), ?_, _, hFault,
    hFaults _ _ hFault⟩
  exact hRows 0 ⟨0, 7, .load 1 (.number 1)⟩ (congrArg (fun entries => entries[0]?) hEntries)

end StackMachine
