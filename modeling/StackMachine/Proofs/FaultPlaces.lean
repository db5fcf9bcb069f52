import StackMachine.Proofs.Drafts
import StackMachine.Proofs.Growth

/-! The places of faults. A run stops at the start of a row or at the end of the code, the line that
it reports was written with the byte that is there, and the pointer is left behind what was read. -/
namespace StackMachine

/-- The record of the bytes written so far, each with its line, after a step that has succeeded.
The number of constants decides about the load of the next one. -/
def BuildStep.note (constants : Nat) : BuildStep → List (UInt8 × Nat) → List (UInt8 × Nat)
  | .write byte line, record => record ++ [(byte, line)]
  | .writeOpcode opcode line, record => record ++ [(opcode.byte, line)]
  | .addConstant _, record => record
  | .writeConstant _ line, record =>
    record ++ (Instruction.load constants).encode.map fun byte => (byte, line)
  | .release, _ => []
  | .copy, record => record

namespace Chunk

/-- A chunk that has been built, with the record of what was written. A step that has failed has
written nothing. -/
inductive Records : Chunk → List (UInt8 × Nat) → Prop where
  | empty : Records empty []
  | success {chunk next : Chunk} {record : List (UInt8 × Nat)} (prior : Records chunk record)
      (heap : Allocator) (step : BuildStep) (hOk : step.perform heap chunk = .ok () next) :
      Records next (step.note chunk.constants.size record)
  | failure {chunk next : Chunk} {record : List (UInt8 × Nat)} {error : BuildError}
      (prior : Records chunk record) (heap : Allocator) (step : BuildStep)
      (hError : step.perform heap chunk = .error error next) : Records next record

/-- Every chunk that the builder reaches has a record of its bytes. -/
theorem Reachable.exists_record {chunk : Chunk} (h : chunk.Reachable) :
    ∃ record, chunk.Records record := by
  induction h with
  | start => exact ⟨[], .empty⟩
  | @step chunk prior heap step hAllowed ih =>
      obtain ⟨record, hRecord⟩ := ih
      unfold BuildStep.leave
      cases hPerform : step.perform heap chunk with
      | ok _ next => exact ⟨_, .success hRecord heap step hPerform⟩
      | error error next => exact ⟨_, .failure hRecord heap step hPerform⟩

theorem Records.reachable {chunk : Chunk} {record : List (UInt8 × Nat)}
    (h : chunk.Records record) : chunk.Reachable := by
  induction h with
  | empty => exact .start
  | success prior heap step hOk ih =>
      have hNext : (step.leave heap _).Reachable := .step ih heap trivial
      rwa [BuildStep.leave, hOk] at hNext
  | failure prior heap step hError ih =>
      have hNext : (step.leave heap _).Reachable := .step ih heap trivial
      rwa [BuildStep.leave, hError] at hNext

/-- The record lists the bytes of the chunk and its lines. -/
theorem Records.contents {chunk : Chunk} {record : List (UInt8 × Nat)}
    (h : chunk.Records record) :
    chunk.contents.code = record.map Prod.fst ∧ chunk.contents.lines = record.map Prod.snd := by
  induction h with
  | empty => exact ⟨rfl, rfl⟩
  | @success chunk next record prior heap step hOk ih =>
      have hNext : next.contents = step.effect chunk.contents := by
        rcases step.perform_cases heap chunk with ⟨_, hDone, hEffect⟩ | ⟨_, _, hError, -⟩
        · cases hOk.symm.trans hDone
          exact hEffect
        · cases hOk.symm.trans hError
      have hConstants : chunk.contents.constants.length = chunk.constants.size := rfl
      cases step <;>
        simp [hNext, BuildStep.effect, BuildStep.note, Contents.emit, Contents.learn, ih,
          hConstants, Function.comp_def]
  | @failure chunk next record error prior heap step hError ih =>
      rcases step.perform_cases heap chunk with ⟨_, hDone, -⟩ | ⟨_, _, hFailed, hSame⟩
      · cases hError.symm.trans hDone
      · cases hError.symm.trans hFailed
        rw [hSame]
        exact ih

/-- The line of a fault was written with the byte at its offset, or else with the last byte. -/
theorem Records.faultLine?_eq {chunk : Chunk} {record : List (UInt8 × Nat)}
    (h : chunk.Records record) (offset : Nat) :
    Machine.faultLine? chunk offset = (record[offset]?.or record.getLast?).map Prod.snd := by
  have hLines : chunk.lines.items.toList = record.map Prod.snd := h.contents.2
  rw [Machine.faultLine?, lineAt?, Buffer.get?, Buffer.toArray, ← Array.getElem?_toList,
    ← Array.getLast?_toList, hLines, List.getElem?_map, List.getLast?_map]
  cases record[offset]? <;> rfl

/-- The record holds one entry for each byte of the code. -/
theorem Records.length_eq {chunk : Chunk} {record : List (UInt8 × Nat)}
    (h : chunk.Records record) : record.length = chunk.size := by
  rw [← List.length_map Prod.fst, ← h.contents.1]
  rfl

end Chunk

/-- A fold over rows ends in one of three ways. The rows before the one that ends it can be
executed, and none of them is a return. -/
inductive EndsWithin (limit size : Nat) (rows : List Row) : Ending → Prop where
  | outOfRows : EndsWithin limit size rows ⟨some (size, .unexpectedEndOfCode), size, []⟩
  | returned {front rest : List Row} {row : Row} {values : List Value}
      (hRows : rows = front ++ row :: rest)
      (hFront : ∀ earlier ∈ front, earlier.content.Executable ∧ earlier.content ≠ .simple .ret)
      (hEffect : row.content.effect limit values = .returns) :
      EndsWithin limit size rows ⟨none, row.next, values⟩
  | faulted {front rest : List Row} {row : Row} {values : List Value} {kind : FaultKind}
      (hRows : rows = front ++ row :: rest)
      (hEffect : row.content.effect limit values = .faults kind) :
      EndsWithin limit size rows ⟨some (row.offset, kind), row.pointerAt kind, []⟩

/-- A program that goes on has executed something other than a return. -/
theorem RowContent.executable_of_continues {content : RowContent} {limit : Nat}
    {values after : List Value} (h : content.effect limit values = .continues after) :
    content.Executable ∧ content ≠ .simple .ret := by
  cases content with
  | simple opcode =>
      cases opcode with
      | constant => cases h
      | constantLong => cases h
      | ret => cases h
      | _ => exact ⟨rfl, nofun⟩
  | constant opcode index value =>
      cases value with
      | none => cases h
      | some value => exact ⟨trivial, nofun⟩
  | truncated opcode => cases h
  | unknown byte => cases h

/-- A fold over rows ends at one of them, or behind the last. -/
theorem endsWithin_interpret (limit size : Nat) (rows : List Row) (values : List Value) :
    EndsWithin limit size rows (interpret limit size rows values) := by
  induction rows generalizing values with
  | nil => exact .outOfRows
  | cons row rest ih =>
      rw [interpret]
      cases hEffect : row.content.effect limit values with
      | continues after =>
          have hRow := RowContent.executable_of_continues hEffect
          have hRest := ih after
          dsimp only
          generalize interpret limit size rest after = ending at hRest ⊢
          cases hRest with
          | outOfRows => exact .outOfRows
          | @returned front behind last left hRows hFront hReturns =>
              have hWhole : row :: rest = (row :: front) ++ last :: behind := by
                rw [hRows, List.cons_append]
              exact .returned hWhole (List.forall_mem_cons.mpr ⟨hRow, hFront⟩) hReturns
          | @faulted front behind last left kind hRows hFaults =>
              have hWhole : row :: rest = (row :: front) ++ last :: behind := by
                rw [hRows, List.cons_append]
              exact .faulted hWhole hFaults
      | returns =>
          have hWhole : row :: rest = [] ++ row :: rest := rfl
          exact .returned hWhole (List.forall_mem_nil _) hEffect
      | faults kind =>
          have hWhole : row :: rest = [] ++ row :: rest := rfl
          exact .faulted hWhole hEffect

/-- A run ends at a listed row or behind the code. -/
theorem endsWithin_ending (chunk : Chunk) (limit : Nat) :
    EndsWithin limit chunk.size (Listing.rows chunk).toList (chunk.ending limit) :=
  endsWithin_interpret limit chunk.size (Listing.rows chunk).toList []

/-- Only a return ends the program without a fault. -/
theorem RowContent.eq_ret_of_returns {content : RowContent} {limit : Nat} {values : List Value}
    (h : content.effect limit values = .returns) : content = .simple .ret := by
  cases content with
  | simple opcode => rw [opcode_effect_eq_returns_iff.mp h]
  | constant opcode index value => exact absurd h (constant_effect_ne_returns _ _ _ _ _)
  | truncated opcode => cases h
  | unknown byte => cases h

/-- Where the pointer is left by a fault: nothing is read at the end of the code, of an instruction
that is not executed or lacks operands only the opcode is passed, and a load without a constant or
without room is passed as a whole. -/
def FaultKind.PointerAt (chunk : Chunk) (offset ip : Nat) : FaultKind → Prop
  | .unexpectedEndOfCode => ip = offset
  | .invalidOpcode _ | .truncatedInstruction | .stackUnderflow => ip = offset + 1
  | .invalidConstant _ | .stackOverflow =>
    ∃ i, Instruction.decode chunk.code.toArray offset = .ok i ∧ ip = offset + i.width

/-- Behind the whole of an instruction, the pointer has passed what is decoded there. -/
theorem exists_decode_of_faults {chunk : Chunk} {offset limit : Nat} {row : Row}
    {values : List Value} {kind : FaultKind} (hRow : Row.at? chunk offset = some row)
    (hEffect : row.content.effect limit values = .faults kind)
    (hExecuted : kind ≠ .truncatedInstruction ∧ ∀ byte, kind ≠ .invalidOpcode byte) :
    ∃ i, Instruction.decode chunk.code.toArray offset = .ok i ∧ row.next = offset + i.width := by
  rcases Row.at?_eq_some_iff.mp hRow with ⟨i, hDecode, rfl⟩ | ⟨byte, -, rfl⟩ | ⟨opcode, -, rfl⟩
  · exact ⟨i, hDecode, rfl⟩
  · cases hEffect
    exact absurd rfl (hExecuted.2 byte)
  · cases hEffect
    exact absurd rfl hExecuted.1

/-- The kind of the fault and its row decide how far the pointer has moved. -/
theorem pointerAt_of_faults {chunk : Chunk} {offset limit : Nat} {row : Row}
    {values : List Value} {kind : FaultKind} (hRow : Row.at? chunk offset = some row)
    (hEffect : row.content.effect limit values = .faults kind) :
    kind.PointerAt chunk offset (row.pointerAt kind) := by
  have hOffset := Row.offset_of_at? hRow
  cases kind with
  | unexpectedEndOfCode => exact absurd hEffect (RowContent.effect_ne_endOfCode _ _ _)
  | invalidOpcode byte => exact congrArg Nat.succ hOffset
  | truncatedInstruction => exact congrArg Nat.succ hOffset
  | stackUnderflow => exact congrArg Nat.succ hOffset
  | invalidConstant index => exact exists_decode_of_faults hRow hEffect ⟨nofun, nofun⟩
  | stackOverflow => exact exists_decode_of_faults hRow hEffect ⟨nofun, nofun⟩

/-- The place of a fault in a chunk with a record of what was written. The run has left the pointer
at `ip`. -/
structure Fault.LocatedIn (fault : Fault) (chunk : Chunk) (record : List (UInt8 × Nat)) (ip : Nat) :
    Prop where
  /-- The offset is that of a row or the end of the code. -/
  start : fault.offset = chunk.size ∨ ∃ row ∈ (Listing.rows chunk).toList, row.offset = fault.offset
  atEnd : fault.kind = .unexpectedEndOfCode ↔ fault.offset = chunk.size
  /-- The line was written with the byte at the offset. -/
  line : ∀ byte line, record[fault.offset]? = some (byte, line) → fault.line = some line
  lastLine : fault.kind = .unexpectedEndOfCode → fault.line = record.getLast?.map Prod.snd
  noLine : fault.line = none ↔ chunk.size = 0
  pointer : fault.kind.PointerAt chunk fault.offset ip

section Located

variable {chunk : Chunk} {record : List (UInt8 × Nat)} (hRecord : chunk.Records record)

include hRecord

/-- Offset, kind and pointer together place a fault in the record. -/
theorem locatedIn_of_place {offset ip : Nat} {kind : FaultKind}
    (hStart : offset = chunk.size ∨ ∃ row ∈ (Listing.rows chunk).toList, row.offset = offset)
    (hEnd : kind = .unexpectedEndOfCode ↔ offset = chunk.size)
    (hPointer : kind.PointerAt chunk offset ip) :
    Fault.LocatedIn ⟨offset, Machine.faultLine? chunk offset, kind⟩ chunk record ip where
  start := hStart
  atEnd := hEnd
  line := by
    intro byte line hEntry
    simp [hRecord.faultLine?_eq, hEntry]
  lastLine := by
    intro hKind
    have hPast : record[offset]? = none := by
      rw [List.getElem?_eq_none_iff, hRecord.length_eq]
      exact Nat.le_of_eq (hEnd.mp hKind).symm
    simp [hRecord.faultLine?_eq, hPast]
  noLine := by
    rw [hRecord.faultLine?_eq, ← hRecord.length_eq, List.length_eq_zero_iff]
    constructor
    · intro hNone
      simp only [Option.map_eq_none_iff, Option.or_eq_none_iff, List.getLast?_eq_none_iff] at hNone
      exact hNone.2
    · rintro rfl
      rfl
  pointer := hPointer

theorem run_fault_located (m : Machine) {fault : Fault} (h : (m.run chunk).fault = some fault) :
    fault.LocatedIn chunk record (m.run chunk).machine.ip := by
  rw [Machine.run_fault, Ending.report] at h
  obtain ⟨⟨offset, kind⟩, hEnding, rfl⟩ := Option.map_eq_some_iff.mp h
  rw [m.ip_run]
  have hEnds := endsWithin_ending chunk m.stack.room
  generalize chunk.ending m.stack.room = ending at hEnding hEnds
  cases hEnds with
  | outOfRows =>
      cases hEnding
      exact locatedIn_of_place hRecord (.inl rfl) ⟨fun _ => rfl, fun _ => rfl⟩ rfl
  | returned => cases hEnding
  | @faulted front rest row values _ hRows hEffect =>
      cases hEnding
      have hRow : row ∈ (Listing.rows chunk).toList := by simp [hRows]
      obtain ⟨mark, hPlain⟩ := Listing.at?_of_mem_rowsBelow hRow
      have hInside := Row.lt_size_of_at? hPlain
      refine locatedIn_of_place hRecord (.inr ⟨row, hRow, rfl⟩) ⟨?_, ?_⟩ ?_
      · rintro rfl
        exact absurd hEffect (RowContent.effect_ne_endOfCode _ _ _)
      · intro hEnd
        exact absurd hEnd (Nat.ne_of_lt hInside)
      · have hPointer := pointerAt_of_faults hPlain hEffect
        rw [Row.pointerAt_of_line] at hPointer
        exact hPointer

end Located

theorem decode_of_ret {chunk : Chunk} {offset : Nat} {row : Row}
    (hRow : Row.at? chunk offset = some row) (hContent : row.content = .simple .ret) :
    Instruction.decode chunk.code.toArray offset = .ok ⟨.ret, none⟩ ∧ row.next = offset + 1 := by
  rcases Row.at?_eq_some_iff.mp hRow with ⟨i, hDecode, rfl⟩ | ⟨byte, -, rfl⟩ | ⟨opcode, -, rfl⟩
  · obtain ⟨opcode, operand⟩ := i
    cases operand <;> cases hContent
    exact ⟨hDecode, rfl⟩
  · cases hContent
  · cases hContent

/-- A run without a fault has come to the first return of the listing. -/
theorem run_returned {chunk : Chunk} (m : Machine) (h : (m.run chunk).fault = none) :
    ∃ front row rest, (Listing.rows chunk).toList = front ++ row :: rest ∧
      row.content = .simple .ret ∧ (m.run chunk).machine.ip = row.offset + 1 ∧
      chunk.code.toArray[(m.run chunk).machine.ip - 1]? = some Opcode.ret.byte ∧
      ∀ above ∈ front, above.content.Executable ∧ above.content ≠ .simple .ret := by
  rw [Machine.run_fault, Ending.report, Option.map_eq_none_iff] at h
  rw [m.ip_run]
  have hEnds := endsWithin_ending chunk m.stack.room
  generalize chunk.ending m.stack.room = ending at h hEnds
  cases hEnds with
  | outOfRows => cases h
  | faulted => cases h
  | @returned front rest row values hRows hFront hEffect =>
      have hRet := RowContent.eq_ret_of_returns hEffect
      have hRow : row ∈ (Listing.rows chunk).toList := by simp [hRows]
      obtain ⟨mark, hPlain⟩ := Listing.at?_of_mem_rowsBelow hRow
      obtain ⟨hDecode, hNext⟩ := decode_of_ret hPlain hRet
      have hByte := (carries_cons_iff.mp (Instruction.carries_of_decode hDecode).2).1
      refine ⟨front, row, rest, hRows, hRet, hNext, ?_, hFront⟩
      rw [show row.next = row.offset + 1 from hNext]
      exact hByte

/-- Faults are located exactly. The offset of a fault is that of a row, or the end of the code if
the run is out of code and for no other fault. The line was written with the byte at the offset,
or with the last byte at the end of the code; only an empty chunk has no line. The pointer is left
behind what was read. A run without a fault has ended with the first return in the listing, and all
rows above it can be executed. -/
theorem faults_are_located {chunk : Chunk} (hBuilt : chunk.Reachable) (m : Machine) :
    (∃ record, chunk.Records record) ∧
    (∀ record, chunk.Records record → chunk.code.toList = record.map Prod.fst ∧
      ∀ fault, (m.run chunk).fault = some fault →
        fault.LocatedIn chunk record (m.run chunk).machine.ip) ∧
    ((m.run chunk).fault = none → ∃ front row rest,
      (Listing.rows chunk).toList = front ++ row :: rest ∧ row.content = .simple .ret ∧
      (m.run chunk).machine.ip = row.offset + 1 ∧
      chunk.code.toArray[(m.run chunk).machine.ip - 1]? = some Opcode.ret.byte ∧
      ∀ above ∈ front, above.content.Executable ∧ above.content ≠ .simple .ret) :=
  ⟨hBuilt.exists_record,
    fun _ hRecord => ⟨hRecord.contents.1, fun _ => run_fault_located hRecord m⟩, run_returned m⟩

def unsummed : Chunk :=
  ⟨⟨#[0, 0, 4], 8⟩, ⟨#[7, 7, 9], 8⟩, ⟨#[.number 1], 8⟩⟩

/-- A first write finds no storage and leaves nothing in the record. The addition faults at its own
line, behind its opcode. -/
theorem fault_of_unsummed :
    unsummed.Reachable ∧ unsummed.Records [(0, 7), (0, 7), (4, 9)] ∧
      ∃ fault, ((Machine.new {}).run unsummed).fault = some fault ∧
        fault.kind = .stackUnderflow ∧ fault.offset = 2 ∧ fault.line = some 9 ∧
        ((Machine.new {}).run unsummed).machine.ip = 3 := by
  have hRecord : unsummed.Records [(0, 7), (0, 7), (4, 9)] := by
    have hRefused : Chunk.empty.Records [] :=
      .failure .empty .refusing (.write 4 8) (by with_unfolding_all rfl)
    have hLoad : Chunk.Records ⟨⟨#[0, 0], 8⟩, ⟨#[7, 7], 8⟩, ⟨#[.number 1], 8⟩⟩ [(0, 7), (0, 7)] :=
      .success hRefused .standard (.writeConstant (.number 1) 7) (by with_unfolding_all rfl)
    exact .success hLoad .standard (.writeOpcode .add 9) (by with_unfolding_all rfl)
  have hPlace :
      ((Machine.new {}).run unsummed).fault.map (fun fault => (fault.offset, fault.kind)) =
        some (2, .stackUnderflow) := by decide +kernel
  obtain ⟨⟨offset, line, kind⟩, hFault, hSame⟩ := Option.map_eq_some_iff.mp hPlace
  cases hSame
  have hLocated :=
    ((faults_are_located hRecord.reachable (Machine.new {})).2.1 _ hRecord).2 _ hFault
  exact ⟨hRecord.reachable, hRecord, _, hFault, rfl, rfl, hLocated.line 4 9 rfl, hLocated.pointer⟩

end StackMachine
