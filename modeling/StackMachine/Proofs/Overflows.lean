import StackMachine.Proofs.Execution

/-! Overflows. A run meets the limit of its stack only at a load, because every other instruction
takes its operands first, and a run that does not meet it does not depend on it. So a stack whose
growth is granted as far as the code can fill it is known by its limit alone. -/
namespace StackMachine

/-! A higher limit changes an effect only where the lower one is exceeded. -/

section Effects

variable {low high : Nat} (hRaise : low ≤ high)

include hRaise

/-- More room changes a push only where it overflowed. -/
theorem Effect.push_raise (value : Value) (values : List Value) :
    push low value values = .faults .stackOverflow ∨
      push high value values = push low value values := by
  unfold push
  rcases Nat.lt_or_ge values.length low with hRoom | hFull
  · right
    rw [if_neg (Nat.not_le_of_lt hRoom),
      if_neg (Nat.not_le_of_lt (Nat.lt_of_lt_of_le hRoom hRaise))]
  · left
    rw [if_pos hFull]

theorem Effect.unary_raise (op : Float → Float) (values : List Value) :
    unary low op values = .faults .stackOverflow ∨
      unary high op values = unary low op values := by
  cases values with
  | nil => exact .inr rfl
  | cons x rest => exact push_raise hRaise _ rest

theorem Effect.binary_raise (op : Float → Float → Float) (values : List Value) :
    binary low op values = .faults .stackOverflow ∨
      binary high op values = binary low op values := by
  match values with
  | [] | [y] => exact .inr rfl
  | y :: x :: rest => exact push_raise hRaise _ rest

/-- No opcode acts otherwise under more room, unless it overflowed. -/
theorem opcode_effect_raise (opcode : Opcode) (values : List Value) :
    opcode.effect low values = .faults .stackOverflow ∨
      opcode.effect high values = opcode.effect low values := by
  cases opcode with
  | constant => exact .inr rfl
  | constantLong => exact .inr rfl
  | ret => exact .inr rfl
  | negate => exact Effect.unary_raise hRaise _ values
  | add => exact Effect.binary_raise hRaise _ values
  | subtract => exact Effect.binary_raise hRaise _ values
  | multiply => exact Effect.binary_raise hRaise _ values
  | divide => exact Effect.binary_raise hRaise _ values

/-- A row acts otherwise under more room only where it overflowed. -/
theorem RowContent.effect_raise (content : RowContent) (values : List Value) :
    content.effect low values = .faults .stackOverflow ∨
      content.effect high values = content.effect low values := by
  cases content with
  | simple opcode => exact opcode_effect_raise hRaise opcode values
  | constant opcode index value =>
      cases value with
      | none => exact .inr rfl
      | some value => exact Effect.push_raise hRaise value values
  | truncated opcode => exact .inr rfl
  | unknown byte => exact .inr rfl

theorem RowContent.effect_eq_raise {content : RowContent} {values : List Value} {effect : Effect}
    (h : content.effect low values = effect) (hOther : effect ≠ .faults .stackOverflow) :
    content.effect high values = effect := by
  rcases content.effect_raise hRaise values with hOverflow | hSame
  · exact absurd (h.symm.trans hOverflow) hOther
  · exact hSame.trans h

end Effects

variable {chunk : Chunk} {limit low high : Nat} {p q : Position} {steps : Nat}

/-- An instruction leaves room for what it has left, and adds one value at most. -/
theorem Advances.length_le (h : Advances chunk limit p q) :
    q.values.length ≤ limit ∧ q.values.length ≤ p.values.length + 1 := by
  obtain ⟨i, -, hExecutes, -⟩ := advances_iff.mp h
  generalize p.values = before at hExecutes ⊢
  generalize q.values = after at hExecutes ⊢
  cases hExecutes with
  | load hValue hRoom => exact ⟨hRoom, Nat.le_refl _⟩
  | negate hRoom => exact ⟨hRoom, Nat.le_succ _⟩
  | binary hRoom => exact ⟨hRoom, Nat.le_succ_of_le (Nat.le_succ _)⟩

/-- A run keeps the limit, and it has no more values than bytes behind it. -/
theorem RunsFor.length_le (run : RunsFor chunk limit ⟨0, []⟩ p steps) :
    p.values.length ≤ limit ∧ p.values.length ≤ p.ip := by
  induction run with
  | zero => exact ⟨Nat.zero_le limit, Nat.le_refl 0⟩
  | succ prior last ih =>
      have hMoved := last.ip_lt.1
      obtain ⟨hLimit, hGrowth⟩ := last.length_le
      exact ⟨hLimit, by omega⟩

/-- Only a load exceeds the limit of a run, and it does so on a full stack. -/
theorem load_of_overflow {offset : Nat} {row : Row} {values : List Value}
    (hRow : Row.at? chunk offset = some row)
    (hEffect : row.content.effect limit values = .faults .stackOverflow)
    (hKept : values.length ≤ limit) :
    ∃ (source : Load) (value : Value),
      Instruction.decode chunk.code.toArray offset = .ok source.instruction ∧
        chunk.constants.get? source.index = some value ∧ values.length = limit := by
  rcases Row.at?_eq_some_iff.mp hRow with ⟨i, hDecode, rfl⟩ | ⟨byte, -, rfl⟩ | ⟨opcode, -, rfl⟩
  · have hForm := (Instruction.carries_of_decode hDecode).1
    obtain ⟨opcode, operand⟩ := i
    cases operand with
    | none =>
        rcases opcode_effect_eq_faults hForm hEffect with hUnderflow | ⟨-, hBeyond⟩
        · cases hUnderflow
        · exact absurd hBeyond (Nat.not_lt_of_le hKept)
    | some operand =>
        obtain ⟨source, hSource, hIndex⟩ := exists_load hForm
        simp only [Row.contentOf, Chunk.constant?, ← hIndex] at hEffect
        cases hValue : chunk.constants.get? source.index with
        | none =>
            rw [hValue] at hEffect
            cases hEffect
        | some value =>
            rw [hValue] at hEffect
            have hFull := (Effect.push_eq_faults_iff.mp hEffect).1
            exact ⟨source, value, hSource ▸ hDecode, hValue, Nat.le_antisymm hKept hFull⟩
  · cases hEffect
  · cases hEffect

def Chunk.Overflows (chunk : Chunk) (limit : Nat) : Prop :=
  ∃ offset, (chunk.ending limit).fault = some (offset, .stackOverflow)

/-- A run overflows at a load that finds as many values as the limit allows. -/
theorem exists_full_load {offset : Nat}
    (h : (chunk.ending limit).fault = some (offset, .stackOverflow)) :
    ∃ (values : List Value) (steps : Nat) (source : Load) (value : Value),
      RunsFor chunk limit ⟨0, []⟩ ⟨offset, values⟩ steps ∧
        Instruction.decode chunk.code.toArray offset = .ok source.instruction ∧
        chunk.constants.get? source.index = some value ∧ values.length = limit := by
  obtain ⟨values, steps, run, ⟨-, hKind⟩ | ⟨row, hRow, hEffect⟩⟩ := exists_run_to_fault h
  · cases hKind
  · obtain ⟨source, value, hLoad⟩ := load_of_overflow hRow hEffect run.length_le.1
    exact ⟨values, steps, source, value, run, hLoad⟩

/-- No run comes to a limit that the code is too short to fill. -/
theorem not_overflows_of_size_le (h : chunk.size ≤ limit) : ¬chunk.Overflows limit := by
  rintro ⟨offset, hFault⟩
  obtain ⟨values, steps, source, value, run, hDecode, -, hFull⟩ := exists_full_load hFault
  have hValues : values.length ≤ offset := run.length_le.2
  have hInside : offset < chunk.size :=
    Row.lt_size_of_at? (Row.at?_eq_some_iff.mpr (.inl ⟨_, hDecode, rfl⟩))
  omega

section Raise

variable (hRaise : low ≤ high)

include hRaise

/-- What is executed under a limit is executed under a higher one. -/
theorem Advances.raise (h : Advances chunk low p q) : Advances chunk high p q := by
  obtain ⟨row, hRow, hEffect, hNext⟩ := h
  exact ⟨row, hRow, RowContent.effect_eq_raise hRaise hEffect nofun, hNext⟩

/-- A run that had room has it under every higher limit. -/
theorem RunsFor.raise (run : RunsFor chunk low p q steps) : RunsFor chunk high p q steps := by
  induction run with
  | zero => exact .zero p
  | succ prior last ih => exact .succ ih (last.raise hRaise)

variable (hFree : ¬chunk.Overflows low)

include hFree

/-- A program that does not overflow under a limit executes nothing else under a higher one. -/
theorem RunsFor.lower (run : RunsFor chunk high ⟨0, []⟩ p steps) :
    RunsFor chunk low ⟨0, []⟩ p steps := by
  induction run with
  | zero => exact .zero _
  | succ prior last ih =>
      obtain ⟨row, hRow, hEffect, hNext⟩ := last
      rcases row.content.effect_raise hRaise _ with hOverflow | hSame
      · have hEnding := ending_of_stops ih (.faulted hRow hOverflow)
        exact absurd ⟨_, congrArg Ending.fault hEnding⟩ hFree
      · exact .succ ih ⟨row, hRow, hSame.symm.trans hEffect, hNext⟩

/-- A program that does not overflow stops at the same place under a higher limit. -/
theorem Stops.raise {ending : Ending} (h : Stops chunk low p ending)
    (run : RunsFor chunk low ⟨0, []⟩ p steps) : Stops chunk high p ending := by
  have hEnding := ending_of_stops run h
  cases h with
  | outOfCode hRow => exact .outOfCode hRow
  | returned hRow hEffect =>
      exact .returned hRow (RowContent.effect_eq_raise hRaise hEffect nofun)
  | faulted hRow hEffect =>
      refine .faulted hRow (RowContent.effect_eq_raise hRaise hEffect ?_)
      rintro ⟨⟩
      exact hFree ⟨_, congrArg Ending.fault hEnding⟩

/-- A program that does not overflow under the lower limit stops there where it stops above. -/
theorem Stops.lower {ending : Ending} (h : Stops chunk high p ending)
    (run : RunsFor chunk high ⟨0, []⟩ p steps) : Stops chunk low p ending := by
  have runLow := run.lower hRaise hFree
  rcases stops_or_advances chunk low p with ⟨other, hOther⟩ | ⟨q, hNext⟩
  · have hSame := ending_of_stops run (hOther.raise hRaise hFree runLow)
    rw [ending_of_stops run h] at hSame
    rw [hSame]
    exact hOther
  · exact absurd (hNext.raise hRaise) h.not_advances

/-- A program that does not overflow ends in the same way under a higher limit. -/
theorem ending_raise : chunk.ending high = chunk.ending low := by
  obtain ⟨p, steps, run, hStops⟩ := exists_run_to_ending chunk low
  exact ending_of_stops (run.raise hRaise) (hStops.raise hRaise hFree run)

end Raise

/-- It makes no difference to the program which of two limits the stack has. -/
def Chunk.Indifferent (chunk : Chunk) (first second : Nat) : Prop :=
  first = second ∨ ¬chunk.Overflows first ∧ ¬chunk.Overflows second

namespace Chunk.Indifferent

variable {first second third : Nat}

theorem symm (h : chunk.Indifferent first second) : chunk.Indifferent second first :=
  h.imp Eq.symm And.symm

theorem trans (h : chunk.Indifferent first second) (h' : chunk.Indifferent second third) :
    chunk.Indifferent first third := by
  rcases h with rfl | ⟨hFirst, hSecond⟩
  · exact h'
  · rcases h' with rfl | ⟨-, hThird⟩
    · exact .inr ⟨hFirst, hSecond⟩
    · exact .inr ⟨hFirst, hThird⟩

/-- Limits that a chunk does not tell apart give one ending. -/
theorem ending_eq (h : chunk.Indifferent first second) :
    chunk.ending first = chunk.ending second := by
  rcases h with rfl | ⟨hFirst, hSecond⟩
  · rfl
  · rcases Nat.le_total first second with hRaise | hRaise
    · exact (ending_raise hRaise hFirst).symm
    · exact ending_raise hRaise hSecond

/-- What is executed under either limit is executed under the lower one. -/
theorem runsFor_min (h : chunk.Indifferent first second)
    (run : RunsFor chunk first ⟨0, []⟩ p steps) :
    RunsFor chunk (min first second) ⟨0, []⟩ p steps := by
  rcases Nat.le_total first second with hRaise | hRaise
  · rw [Nat.min_eq_left hRaise]
    exact run
  · rw [Nat.min_eq_right hRaise]
    rcases h with rfl | ⟨-, hFree⟩
    · exact run
    · exact run.lower hRaise hFree

theorem stops {ending : Ending} (h : chunk.Indifferent first second)
    (hStops : Stops chunk first p ending) (run : RunsFor chunk first ⟨0, []⟩ p steps) :
    Stops chunk second p ending := by
  rcases h with rfl | ⟨hFirst, hSecond⟩
  · exact hStops
  · rcases Nat.le_total first second with hRaise | hRaise
    · exact hStops.raise hRaise hFirst run
    · exact hStops.lower hRaise hSecond run

end Chunk.Indifferent

/-- A stack that can hold a value for each byte of the code meets no other bound than its limit. -/
theorem Stack.CanHold.indifferent {s : Stack} (h : s.CanHold chunk.size) :
    chunk.Indifferent s.room s.limit := by
  rcases Nat.le_total s.limit chunk.size with hLimit | hSize
  · exact .inl (h.room_eq hLimit)
  · exact .inr ⟨not_overflows_of_size_le (h.le_room hSize), not_overflows_of_size_le hSize⟩

/-- Two such stacks of the same limit have the same effect. -/
theorem Stack.CanHold.indifferent_of_limit {s t : Stack} (h : s.CanHold chunk.size)
    (h' : t.CanHold chunk.size) (hLimit : s.limit = t.limit) :
    chunk.Indifferent s.room t.room := by
  have hFirst := h.indifferent
  rw [hLimit] at hFirst
  exact hFirst.trans h'.indifferent.symm

/-- The result of a run: the fault with its offset and line, the values that are left and the
pointer. After a fault no value is left. -/
structure Machine.Halted.EndsAs (ended : Halted) (chunk : Chunk) (ending : Ending) : Prop where
  fault : ended.fault =
    ending.fault.map fun fault => ⟨fault.1, faultLine? chunk fault.1, fault.2⟩
  values : ended.machine.stack.values.toList = ending.values.reverse
  ip : ended.machine.ip = ending.pointer
  dropped : ended.fault = none ∨ ended.machine.stack.values = #[]

/-- A machine leaves what the fold over its rows under its room does. -/
theorem Machine.endsAs_run (m : Machine) (chunk : Chunk) :
    (m.run chunk).EndsAs chunk (chunk.ending m.stack.room) where
  fault := m.run_fault chunk
  values := by rw [m.values_run]
  ip := m.ip_run chunk
  dropped := by
    rw [m.run_fault, m.values_run]
    cases hFault : (chunk.ending m.stack.room).fault with
    | none => exact .inl (by rw [Ending.report, hFault, Option.map_none])
    | some fault =>
        rw [ending_values_of_fault hFault]
        exact .inr rfl

/-- Two runs cannot be told apart by their fault, by the values that are left, or by the final
pointer. -/
def Machine.Halted.SameOutcome (first second : Halted) : Prop :=
  first.fault = second.fault ∧ first.machine.stack.values = second.machine.stack.values ∧
    first.machine.ip = second.machine.ip

/-- Machines whose rooms give one ending have the same outcome. -/
theorem Machine.sameOutcome_of_ending {m n : Machine}
    (h : chunk.ending m.stack.room = chunk.ending n.stack.room) :
    (m.run chunk).SameOutcome (n.run chunk) := by
  refine ⟨?_, ?_, ?_⟩
  · rw [run_fault, run_fault, h]
  · rw [values_run, values_run, h]
  · rw [ip_run, ip_run, h]

/-- A run of the machine and a fold over the rows of the listing have the same result, whatever was
on the machine before. If the stack is granted as many slots as the code can fill, the fold has the
limit of the stack. In any case there is a number of values that the fold has for its limit. It is
lower than the limit only if the allocator refuses the slots that would be next. -/
theorem run_agrees_with_rows (chunk : Chunk) (m : Machine) :
    let fold := fun limit => interpret limit chunk.size (Listing.rows chunk).toList []
    (m.stack.CanHold chunk.size → (m.run chunk).EndsAs chunk (fold m.stack.limit)) ∧
    (m.run chunk).EndsAs chunk (fold m.stack.room) ∧ m.stack.room ≤ m.stack.limit ∧
    (m.stack.room < m.stack.limit →
      m.stack.heap.grants (Stack.growCapacity m.stack.room * SlotSize.bytes Value) = false) := by
  intro fold
  refine ⟨fun hGranted => ?_, m.endsAs_run chunk, m.stack.room_le_limit,
    Stack.refused_of_room_lt⟩
  have hEnds := m.endsAs_run chunk
  rw [hGranted.indifferent.ending_eq] at hEnds
  exact hEnds

/-- Two loads from two lines, where the stack may hold one value. -/
def overfilled : Chunk := ⟨⟨#[0, 0, 0, 0], 8⟩, ⟨#[7, 7, 8, 8], 8⟩, ⟨#[.number 1], 8⟩⟩

/-- The second load overflows, and no slots are asked for before it does. -/
theorem run_of_overfilled :
    (Machine.new { stackLimit := 1 } .refusing).stack.CanHold overfilled.size ∧
      ((Machine.new { stackLimit := 1 } .refusing).run overfilled).fault =
        some ⟨2, some 8, .stackOverflow⟩ ∧
      ((Machine.new { stackLimit := 1 } .refusing).run overfilled).machine.stack.values = #[] := by
  have hGranted : (Machine.new { stackLimit := 1 } .refusing).stack.CanHold overfilled.size :=
    Stack.canHold_empty (by decide) 1 .refusing
  have hEnds :=
    (run_agrees_with_rows overfilled (.new { stackLimit := 1 } .refusing)).1 hGranted
  have hFault := hEnds.fault.trans
    (show _ = some ⟨2, some 8, .stackOverflow⟩ by with_unfolding_all rfl)
  refine ⟨hGranted, hFault, ?_⟩
  rcases hEnds.dropped with hNone | hEmpty
  · cases hNone.symm.trans hFault
  · exact hEmpty

end StackMachine
