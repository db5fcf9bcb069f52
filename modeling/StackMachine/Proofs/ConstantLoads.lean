import StackMachine.Proofs.Drafts
import StackMachine.Proofs.Growth

/-! The way of a constant from the writer to the stack. Writing it returns an index and appends an
instruction; decoding, listing and executing that instruction all lead back to the constant, and
whatever is built afterwards does not come in between. -/
namespace StackMachine

namespace Instruction

/-- No other instruction that names the index is shorter. -/
theorem width_load_le {i : Instruction} {operand : UInt32} (hForm : i.WellFormed)
    (hOperand : i.operand = some operand) : (load operand.toNat).width ≤ i.width := by
  obtain ⟨opcode, _⟩ := i
  cases hOperand
  obtain ⟨hWidth, hFits⟩ := hForm
  unfold load
  cases opcode with
  | constant =>
      have hShort : operand.toNat ≤ shortLimit := Nat.le_of_lt_succ hFits
      rw [if_pos hShort]
      exact Nat.le_refl _
  | constantLong =>
      split
      · exact Nat.le_of_ble_eq_true rfl
      · exact Nat.le_refl _
  | _ => exact absurd rfl hWidth

end Instruction

namespace Machine

/-- Executing a load pushes its constant, with the pointer behind the instruction. -/
theorem step_of_load {chunk : Chunk} {m : Machine} {index : Nat} {operand : UInt32} {value : Value}
    (hDecode : Instruction.decode chunk.code.toArray m.ip = .ok (Instruction.load index))
    (hOperand : (Instruction.load index).operand = some operand)
    (hValue : chunk.constant? operand.toNat = some value) :
    step chunk m = onStack (Stack.push value)
      { m with ip := m.ip + (Instruction.load index).width } := by
  have hLoad : dispatch chunk.constants (Instruction.load index).opcode operand =
      load chunk.constants operand.toNat := by
    unfold Instruction.load
    split <;> rfl
  have hFound : chunk.constants.get? operand.toNat = some value := hValue
  rw [step_eq, hDecode]
  simp only [hOperand, Option.getD_some, hLoad, load, hFound]

end Machine

namespace Chunk

/-- At an offset stands an instruction that loads a constant. It is decoded, listed under its line
and executed as such: it pushes the constant if the stack may hold one value more and gets the slot
for it, and otherwise it overflows. -/
structure LoadsAt (chunk : Chunk) (offset line index : Nat) (value : Value) (stop : Nat) :
    Prop where
  decode : Instruction.decode chunk.code.toArray offset =
    .ok (if index ≤ 255 then ⟨.constant, some (UInt32.ofNat index)⟩
      else ⟨.constantLong, some (UInt32.ofNat index)⟩)
  row : Row.at? chunk offset =
    some ⟨offset, .line line,
      .constant (if index ≤ 255 then .constant else .constantLong) index (some value), stop⟩
  push : ∀ m : Machine, m.ip = offset → m.stack.size < m.stack.limit →
    m.stack.CanHold (m.stack.size + 1) →
    ∃ stack : Stack, stack.values = m.stack.values.push value ∧ m.stack.Becomes stack ∧
      Machine.step chunk m = .ok () { m with ip := stop, stack := stack } ∧
      (m.halted = false → ∀ log, Machine.execute chunk m log =
        Machine.execute chunk { m with ip := stop, stack := stack } (m.report chunk log))
  overflow : ∀ m : Machine, m.ip = offset →
    m.stack.limit ≤ m.stack.size ∨ ¬m.stack.CanHold (m.stack.size + 1) →
    Machine.step chunk m = .error .stackOverflow { m with ip := stop }

/-- The bytes, the line and the pooled value are all that a load depends on. -/
theorem loadsAt_of_carries {chunk : Chunk} {offset line index : Nat} {value : Value}
    (hIndex : index < constantLimit)
    (hCode : Carries chunk.code.toArray offset (Instruction.load index).encode)
    (hLine : chunk.lineAt? offset = some line)
    (hValue : chunk.constants.toList[index]? = some value) :
    chunk.LoadsAt offset line index value (offset + (Instruction.load index).width) := by
  have hSound : (Written.load index value).Sound chunk.constants.toList := ⟨hIndex, hValue⟩
  have hDecode : Instruction.decode chunk.code.toArray offset = .ok (Instruction.load index) :=
    Instruction.decode_of_carries hSound.wellFormed hCode
  have hOpcode : (Instruction.load index).opcode =
      if index ≤ 255 then .constant else .constantLong :=
    apply_ite Instruction.opcode ..
  obtain ⟨operand, hOperand, hIs⟩ := (Load.ofIndex index).operand_instruction
  rw [Load.instruction_ofIndex hIndex] at hOperand
  rw [Load.index_ofIndex hIndex] at hIs
  have hConstant : chunk.constant? operand.toNat = some value := by
    rw [hIs]
    exact Array.getElem?_toList.symm.trans hValue
  refine ⟨hDecode, ?_, fun m hAt hBelow hGranted => ?_, fun m hAt hFull => ?_⟩
  · refine Row.at?_eq_some_iff.mpr (.inl ⟨Instruction.load index, hDecode, ?_⟩)
    have hContent : Row.contentOf chunk (Instruction.load index) = _ := hSound.contentOf
    rw [hContent, Row.lineMark, hLine, Written.content, hOpcode]
  · subst hAt
    have hRoom : m.stack.size < m.stack.room := Stack.size_lt_room_iff.mpr ⟨hBelow, hGranted⟩
    obtain ⟨stack, hPush, hValues, hBecomes⟩ := Machine.onStack_push_of_room
      (m := { m with ip := m.ip + (Instruction.load index).width }) hRoom value
    have hStep := (Machine.step_of_load hDecode hOperand hConstant).trans hPush
    exact ⟨stack, hValues, hBecomes, hStep, fun hRunning => Machine.execute_of_step hRunning hStep⟩
  · subst hAt
    have hRoom : m.stack.room ≤ m.stack.size := by
      refine Nat.le_of_not_lt fun hMore => ?_
      obtain ⟨hBelow, hGranted⟩ := Stack.size_lt_room_iff.mp hMore
      exact hFull.elim (Nat.not_le_of_lt hBelow) fun hRefused => hRefused hGranted
    rw [Machine.step_of_load hDecode hOperand hConstant]
    exact Machine.onStack_push_of_full
      (m := { m with ip := m.ip + (Instruction.load index).width }) hRoom value

/-- Writing a constant returns the index that it gets in the pool, and appends the shortest
instruction that can name it. From then on, whatever is built as long as nothing is released, the
code loads this very constant there: the instruction is decoded, its row shows the value and the
line, and executing it pushes the value and goes on behind it. Each of the indices that three
bytes can name is given out, unless memory runs out. -/
theorem constant_comes_back {chunk : Chunk} (hBuilt : chunk.Reachable) (heap : Allocator)
    (value : Value) (line : Nat) :
    (∀ index next, writeConstant heap value line chunk = .ok index next →
      index = chunk.constants.size ∧ index < 2 ^ 24 ∧
      next.size = chunk.size + (Instruction.load index).width ∧
      (∀ (i : Instruction) (operand : UInt32), i.WellFormed → i.operand = some operand →
        operand.toNat = index → (Instruction.load index).width ≤ i.width) ∧
      ∀ later, next.BuildsUpTo later →
        later.LoadsAt chunk.size line index value next.size) ∧
    (chunk.constants.size < 2 ^ 24 →
      ¬RanOutOfMemory (writeConstant heap value line chunk) →
      ∃ next, writeConstant heap value line chunk = .ok chunk.constants.size next) := by
  refine ⟨fun index next hOk => ?_, fun hRoom hMemory => ?_⟩
  · have hRoom : chunk.constants.size < constantLimit := by
      refine Nat.lt_of_not_le fun hFull => ?_
      rw [writeConstant_of_full hFull] at hOk
      cases hOk
    have hMemory : ¬RanOutOfMemory (writeConstant heap value line chunk) := by
      rintro ⟨requested, left, hError⟩
      cases hOk.symm.trans hError
    obtain ⟨_, _, hDone, rfl, hNext⟩ :=
      (writeConstant_allOrNothing hRoom heap value line).of_memory hMemory
    cases hOk.symm.trans hDone
    have hSize : next.size = chunk.size + (Instruction.load chunk.constants.size).width := by
      rw [← Instruction.length_encode]
      exact (congrArg (fun contents => contents.code.length) hNext).trans List.length_append
    refine ⟨rfl, hRoom, hSize, fun i operand hForm hOperand hIs => ?_, fun later hLater => ?_⟩
    · rw [← hIs]
      exact Instruction.width_load_le hForm hOperand
    have hGrows := hLater.growsTo
    have hCode : Carries later.code.items chunk.size _ :=
      (carries_of_toList_eq_append (congrArg Contents.code hNext)).mono hGrows.code
    have hLines : Carries later.lines.items chunk.lines.size (line :: List.replicate _ line) :=
      (carries_of_toList_eq_append (congrArg Contents.lines hNext)).mono hGrows.lines
    have hPool : Carries later.constants.items chunk.constants.size [value] :=
      (carries_of_toList_eq_append (congrArg Contents.constants hNext)).mono hGrows.constants
    have hLine : later.lineAt? chunk.size = some line := by
      have hInStep : chunk.lines.size = chunk.size := hBuilt.inStep
      rw [← hInStep]
      exact (carries_cons_iff.mp hLines).1
    have hValue : later.constants.toList[chunk.constants.size]? = some value :=
      Array.getElem?_toList.trans (carries_cons_iff.mp hPool).1
    rw [hSize]
    exact loadsAt_of_carries hRoom hCode hLine hValue
  · obtain ⟨_, next, hOk, rfl, -⟩ :=
      (writeConstant_allOrNothing hRoom heap value line).of_memory hMemory
    exact ⟨next, hOk⟩

/-- A pool that has given out all indices of one byte. -/
def crowded : Chunk := empty.afterSteps .standard (List.replicate 256 (.addConstant (.number 0)))

/-- The next constant is loaded in the long form, also after another byte has been written. -/
theorem constant_comes_back_to_crowded :
    ∃ next, writeConstant .standard (.number 1) 9 crowded = .ok 256 next ∧
      ((BuildStep.write 7 3).leave .standard next).LoadsAt 0 9 256 (.number 1) 4 := by
  have hBuilt : crowded.Reachable :=
    Reaches.afterSteps .start .standard fun _ _ => trivial
  have hSize : crowded.constants.size = 256 ∧ crowded.size = 0 := by decide +kernel
  obtain ⟨hLoads, hGivenOut⟩ := constant_comes_back hBuilt .standard (.number 1) 9
  rw [hSize.1] at hGivenOut
  obtain ⟨next, hOk⟩ := hGivenOut (by decide) (by decide +kernel)
  obtain ⟨-, -, hStop, -, hLater⟩ := hLoads 256 next hOk
  have hKeeps : (BuildStep.write 7 3).Keeps := trivial
  have hLoadsAt := hLater _ (Reaches.step .start .standard hKeeps)
  rw [hStop, hSize.2] at hLoadsAt
  exact ⟨next, hOk, hLoadsAt⟩

end Chunk

end StackMachine
