import Mathlib.Data.Nat.Find
import StackMachine.Proofs.Growth

/-! The limit of the stack as a threshold. A run does not depend on the limit unless it holds more
values than the limit allows, and then it faults at the first load that would exceed it. -/
namespace StackMachine

namespace Machine

/-- In the run of a chunk the machine comes to a state with `size` values. -/
def Holds (m : Machine) (chunk : Chunk) (size : Nat) : Prop :=
  ∃ trail state, m.reset.Follows chunk trail state ∧ state.stack.size = size

/-- The most values that the machine holds in the run of a chunk. -/
structure PeaksAt (m : Machine) (chunk : Chunk) (peak : Nat) : Prop where
  reached : m.Holds chunk peak
  bound : ∀ size, m.Holds chunk size → size ≤ peak

/-- The first state of a run with more than `limit` values is reached from the state `before` by
a load. -/
structure PassesAt (m : Machine) (chunk : Chunk) (limit : Nat) (before : Machine) : Prop where
  first : ∃ trail, m.reset.Follows chunk trail before ∧
    ∀ done ∈ trail, done.2.stack.size ≤ limit
  running : before.halted = false
  full : before.stack.size = limit
  load : ∃ (source : Load) (after : Machine),
    Instruction.decode chunk.code.toArray before.ip = .ok source.instruction ∧
      step chunk before = .ok () after ∧ after.stack.size = limit + 1

variable {chunk : Chunk} {limit : Nat} {p : Position} {steps : Nat} {m n : Machine}

/-- An overflow of the machine is the overflow of the fold over its rows. -/
theorem ending_of_overflow {fault : Fault} (h : (m.run chunk).fault = some fault)
    (hKind : fault.kind = .stackOverflow) :
    (chunk.ending m.stack.room).fault = some (fault.offset, .stackOverflow) := by
  rw [run_fault, Ending.report] at h
  obtain ⟨⟨offset, kind⟩, hEnding, rfl⟩ := Option.map_eq_some_iff.mp h
  cases hKind
  exact hEnding

/-- An overflow is told with its line, and drops all values. -/
theorem run_of_overflow {offset : Nat}
    (h : (chunk.ending m.stack.room).fault = some (offset, .stackOverflow)) :
    (m.run chunk).fault = some ⟨offset, faultLine? chunk offset, .stackOverflow⟩ ∧
      (m.run chunk).machine.stack.values = #[] := by
  rw [run_fault, values_run, ending_values_of_fault h, Ending.report, h]
  exact ⟨rfl, rfl⟩

/-- A run free of overflow is one that never asks for more than the room. -/
theorem not_overflows_iff :
    (∀ fault, (m.run chunk).fault = some fault → fault.kind ≠ .stackOverflow) ↔
      ¬chunk.Overflows m.stack.room := by
  constructor
  · rintro hNone ⟨offset, hFault⟩
    exact hNone _ (run_of_overflow hFault).1 rfl
  · intro hFree fault hFault hKind
    exact hFree ⟨_, ending_of_overflow hFault hKind⟩

/-- The machine that follows a chunk stands at the positions of its run. -/
theorem Follows.exists_position {trail : List (Instruction × Machine)} {state : Machine}
    (h : m.reset.Follows chunk trail state) :
    ∃ p steps, RunsFor chunk m.stack.room ⟨0, []⟩ p steps ∧
      state.stack.size = p.values.length ∧
      (state.halted = false → m.StandsAt p state) := by
  induction h with
  | start => exact ⟨⟨0, []⟩, 0, .zero _, rfl, fun _ => m.standsAt_reset⟩
  | step prior hRunning hDecode hStep ih =>
      obtain ⟨p, steps, run, -, hState⟩ := ih
      have hAt := hState hRunning
      cases hRow : Row.at? chunk p.ip with
      | none =>
          rw [step_of_no_row hAt hRow] at hStep
          cases hStep
      | some row =>
          have hResult := stepResult_step hRow hAt
          cases hEffect : row.content.effect m.stack.room p.values with
          | continues values =>
              rw [hEffect] at hResult
              obtain ⟨next, hNext, hAfter⟩ := hResult
              cases hStep.symm.trans hNext
              exact ⟨⟨row.next, values⟩, _, .succ run ⟨row, hRow, hEffect, rfl⟩,
                hAfter.size_eq, fun _ => hAfter⟩
          | returns =>
              rw [hEffect] at hResult
              obtain ⟨next, hNext, hAfter⟩ := hResult
              cases hStep.symm.trans hNext
              exact ⟨p, steps, run, hAfter.size_eq, nofun⟩
          | faults kind =>
              rw [hEffect] at hResult
              obtain ⟨stopped, left, hError, -⟩ := hResult
              cases hStep.symm.trans hError

/-- A run under a limit is followed by every machine that has this much room, and the states on
the way keep the limit. -/
theorem exists_trail_within (hRoom : limit ≤ m.stack.room)
    (run : RunsFor chunk limit ⟨0, []⟩ p steps) :
    ∃ trail state, m.reset.Follows chunk trail state ∧ m.StandsAt p state ∧
      ∀ done ∈ trail, done.2.stack.size ≤ limit := by
  induction run with
  | zero => exact ⟨[], m.reset, .start, m.standsAt_reset, nofun⟩
  | @succ p q steps prior last ih =>
      obtain ⟨trail, state, hFollows, hAt, hWithin⟩ := ih
      obtain ⟨i, next, -, hNext, -, hAfter⟩ := hFollows.advance hAt (last.raise hRoom)
      refine ⟨_, next, hNext, hAfter, fun done hDone => ?_⟩
      rcases List.mem_append.mp hDone with hEarlier | hLast
      · exact hWithin done hEarlier
      · cases List.mem_singleton.mp hLast
        exact hAfter.size_eq.trans_le last.length_le.1

/-- The stack held a number of values when some position of the run had them. -/
theorem holds_iff {size : Nat} :
    m.Holds chunk size ↔ ∃ p steps, RunsFor chunk m.stack.room ⟨0, []⟩ p steps ∧
      p.values.length = size := by
  constructor
  · rintro ⟨trail, state, hFollows, rfl⟩
    obtain ⟨p, steps, run, hSize, -⟩ := hFollows.exists_position
    exact ⟨p, steps, run, hSize.symm⟩
  · rintro ⟨p, steps, run, rfl⟩
    obtain ⟨trail, state, hFollows, hAt, -⟩ :=
      exists_trail_within (Nat.le_refl m.stack.room) run
    exact ⟨trail, state, hFollows, hAt.size_eq⟩

/-- There is a peak, because no more values are pushed than there are bytes. -/
theorem exists_peaksAt (m : Machine) (chunk : Chunk) : ∃ peak, m.PeaksAt chunk peak := by
  classical
  have hBound : ∀ size, m.Holds chunk size → size ≤ chunk.size := by
    intro size hHolds
    obtain ⟨p, steps, run, rfl⟩ := holds_iff.mp hHolds
    exact run.length_le.2.trans (run.ip_le (Nat.zero_le chunk.size))
  refine ⟨Nat.findGreatest (m.Holds chunk) chunk.size, ?_, fun size hHolds => ?_⟩
  · exact Nat.findGreatest_spec (Nat.zero_le chunk.size) ⟨[], m.reset, .start, rfl⟩
  · exact Nat.le_findGreatest (hBound size hHolds) hHolds

/-- A load that overflows under a limit is executed where there is more room. -/
theorem exists_passesAt {offset : Nat} (hRoom : limit < m.stack.room)
    (h : (chunk.ending limit).fault = some (offset, .stackOverflow)) :
    ∃ before, m.PassesAt chunk limit before ∧ before.ip = offset := by
  obtain ⟨values, steps, source, value, run, hDecode, hValue, hFull⟩ := exists_full_load h
  obtain ⟨trail, before, hFollows, hAt, hWithin⟩ :=
    exists_trail_within (Nat.le_of_lt hRoom) run
  have hNext : Advances chunk m.stack.room ⟨offset, values⟩
      ⟨offset + source.instruction.width, value :: values⟩ :=
    advances_iff.mpr ⟨_, hDecode, .load hValue (hFull ▸ hRoom), rfl⟩
  obtain ⟨after, hStep, hAfter⟩ := step_of_advances hAt hNext
  refine ⟨before, ⟨⟨trail, hFollows, hWithin⟩, hAt.running, ?_, source, after, hAt.ip ▸ hDecode,
    hStep, ?_⟩, hAt.ip⟩
  · exact hAt.size_eq.trans hFull
  · exact hAfter.size_eq.trans (congrArg Nat.succ hFull)

/-- A limit that is passed somewhere lies below the peak. -/
theorem PassesAt.lt_peak {before : Machine} {peak : Nat} (h : m.PassesAt chunk limit before)
    (hPeak : m.PeaksAt chunk peak) : limit < peak := by
  obtain ⟨⟨trail, hFollows, -⟩, hRunning, -, source, after, hDecode, hStep, hSize⟩ := h
  exact hPeak.bound (limit + 1) ⟨_, after, .step hFollows hRunning hDecode hStep, hSize⟩

namespace PeaksAt

variable {peak : Nat} (hPeak : m.PeaksAt chunk peak)

include hPeak

theorem le_room : peak ≤ m.stack.room := by
  obtain ⟨p, steps, run, rfl⟩ := holds_iff.mp hPeak.reached
  exact run.length_le.1

/-- The program overflows under every limit below the peak. -/
theorem overflows (hBelow : limit < peak) : chunk.Overflows limit := by
  by_contra hFree
  have hRaise : limit ≤ m.stack.room := Nat.le_of_lt (hBelow.trans_le hPeak.le_room)
  obtain ⟨p, steps, run, rfl⟩ := holds_iff.mp hPeak.reached
  exact absurd hBelow (Nat.not_lt_of_le (run.lower hRaise hFree).length_le.1)

/-- From the peak on the limit does not matter, if there is one that is not exceeded. -/
theorem ending_eq (hFree : ¬chunk.Overflows m.stack.room) (hAbove : peak ≤ limit) :
    chunk.ending limit = chunk.ending m.stack.room := by
  rcases Nat.lt_or_ge limit m.stack.room with hLower | hHigher
  · have hLowFree : ¬chunk.Overflows limit := by
      rintro ⟨offset, hFault⟩
      obtain ⟨before, hPasses, -⟩ := exists_passesAt hLower hFault
      exact absurd (hPasses.lt_peak hPeak) (Nat.not_lt_of_le hAbove)
    exact (ending_raise (Nat.le_of_lt hLower) hLowFree).symm
  · exact ending_raise hHigher hFree

end PeaksAt

/-- A run that comes to a load outside of the pool faults there, on whatever stack. -/
theorem run_fault_of_missing {trail : List (Instruction × Machine)} {before : Machine}
    {source : Load} (hFollows : m.reset.Follows chunk trail before)
    (hRunning : before.halted = false)
    (hDecode : Instruction.decode chunk.code.toArray before.ip = .ok source.instruction)
    (hMissing : chunk.constants.size ≤ source.index) :
    (m.run chunk).fault =
      some ⟨before.ip, faultLine? chunk before.ip, .invalidConstant source.index⟩ := by
  obtain ⟨p, steps, run, -, hState⟩ := hFollows.exists_position
  rw [(hState hRunning).ip] at hDecode ⊢
  have hRow := Row.at?_eq_some_iff.mpr (.inl ⟨_, hDecode, rfl⟩)
  have hEffect : (Row.contentOf chunk source.instruction).effect m.stack.room p.values =
      .faults (.invalidConstant source.index) := by
    obtain ⟨operand, hOperand, hIndex⟩ := source.operand_instruction
    have hNone : chunk.constants.get? source.index = none := Array.getElem?_eq_none hMissing
    simp only [Row.contentOf, hOperand, Chunk.constant?, hIndex, hNone, RowContent.effect]
  exact (run_of_stops run (.faulted hRow hEffect)).1

end Machine

/-- The limit of the stack is a sharp threshold. A machine with the largest limit, which is granted
as many slots as the code can fill, never overflows, and the most values that it holds are the peak.
Take any machine that is granted slots up to the peak. With a limit from the peak on, its outcome is
the same. With a limit below the peak, its run faults at the first load that would exceed it, and no
value is left. Only the load of a constant that is there can overflow, so an operation never does,
and a load from outside the pool has its own fault on a full stack too. A higher limit changes no
outcome but an overflow. -/
theorem limit_is_sharp_threshold {chunk : Chunk} (hSize : chunk.size < 2 ^ 63) {heap : Allocator}
    (hGranted : (Machine.new { stackLimit := maxWord } heap).stack.CanHold chunk.size) :
    let unlimited := Machine.new { stackLimit := maxWord } heap
    (∀ fault, (unlimited.run chunk).fault = some fault → fault.kind ≠ .stackOverflow) ∧
    (∃ peak, unlimited.PeaksAt chunk peak ∧ ∀ m : Machine, m.stack.CanHold peak →
      (peak ≤ m.stack.limit → (m.run chunk).SameOutcome (unlimited.run chunk)) ∧
      (m.stack.limit < peak → ∃ before, unlimited.PassesAt chunk m.stack.limit before ∧
        (m.run chunk).fault =
          some ⟨before.ip, Machine.faultLine? chunk before.ip, .stackOverflow⟩ ∧
        (m.run chunk).machine.stack.values = #[])) ∧
    (∀ (m : Machine) (fault : Fault), (m.run chunk).fault = some fault →
      fault.kind = .stackOverflow → ∃ source : Load,
        Instruction.decode chunk.code.toArray fault.offset = .ok source.instruction ∧
          source.index < chunk.constants.size) ∧
    (∀ (m : Machine) (trail : List (Instruction × Machine)) (before : Machine) (source : Load),
      m.reset.Follows chunk trail before → before.halted = false →
      Instruction.decode chunk.code.toArray before.ip = .ok source.instruction →
      chunk.constants.size ≤ source.index →
      (m.run chunk).fault =
        some ⟨before.ip, Machine.faultLine? chunk before.ip, .invalidConstant source.index⟩) ∧
    ∀ m n : Machine, m.stack.limit ≤ n.stack.limit → n.stack.CanHold chunk.size →
      (∀ fault, (m.run chunk).fault = some fault → fault.kind ≠ .stackOverflow) →
      (n.run chunk).SameOutcome (m.run chunk) := by
  intro unlimited
  have hFree : ¬chunk.Overflows unlimited.stack.room := by
    apply not_overflows_of_size_le
    apply hGranted.le_room
    exact Nat.le_of_lt (Nat.lt_trans hSize (show 2 ^ 63 < maxWord by decide))
  obtain ⟨peak, hPeak⟩ := unlimited.exists_peaksAt chunk
  refine ⟨Machine.not_overflows_iff.mpr hFree, ⟨peak, hPeak, fun m hHolds => ⟨fun hAbove => ?_,
    fun hBelow => ?_⟩⟩, fun m fault hFault hKind => ?_,
    fun m trail before source => Machine.run_fault_of_missing, fun m n hRaise hHolds hNone => ?_⟩
  · exact Machine.sameOutcome_of_ending (hPeak.ending_eq hFree (hHolds.le_room hAbove))
  · obtain ⟨offset, hFault⟩ := hPeak.overflows hBelow
    obtain ⟨before, hPasses, rfl⟩ :=
      Machine.exists_passesAt (hBelow.trans_le hPeak.le_room) hFault
    rw [← hHolds.room_eq (Nat.le_of_lt hBelow)] at hFault
    exact ⟨before, hPasses, Machine.run_of_overflow hFault⟩
  · obtain ⟨values, steps, source, value, -, hDecode, hValue, -⟩ :=
      exists_full_load (Machine.ending_of_overflow hFault hKind)
    obtain ⟨hInside, -⟩ := Array.getElem?_eq_some_iff.mp hValue
    exact ⟨source, hDecode, hInside⟩
  · have hHigher : m.stack.room ≤ n.stack.limit := Nat.le_trans m.stack.room_le_limit hRaise
    have hSame := ending_raise hHigher (Machine.not_overflows_iff.mp hNone)
    exact Machine.sameOutcome_of_ending (hHolds.indifferent.ending_eq.trans hSame)

def summed : Chunk :=
  [BuildStep.writeConstant (.number 1) 7, .writeConstant (.number 2) 8, .writeOpcode .add 9,
    .writeOpcode .ret 9].foldl (fun chunk step => step.leave .standard chunk) .empty

/-- Room for two values is enough, although the sum is taken on a full stack. With room for one
value the second load overflows. -/
theorem threshold_of_summed :
    summed.size < 2 ^ 63 ∧
      (Machine.new { stackLimit := maxWord }).stack.CanHold summed.size ∧
      ((Machine.new { stackLimit := maxWord }).run summed).SameOutcome
        ((Machine.new { stackLimit := 2 }).run summed) ∧
      ∃ before, (Machine.new { stackLimit := maxWord }).PassesAt summed 1 before ∧
        before.ip = 2 ∧
        ((Machine.new { stackLimit := 1 }).run summed).fault =
          some ⟨before.ip, Machine.faultLine? summed before.ip, .stackOverflow⟩ := by
  have hSize : summed.size < 2 ^ 63 := by decide +kernel
  have hTwo : ((Machine.new { stackLimit := 2 }).run summed).fault = none := by decide +kernel
  have hOne : ((Machine.new { stackLimit := 1 }).run summed).fault =
      some ⟨2, some 8, .stackOverflow⟩ := by decide +kernel
  have hGranted : (Machine.new { stackLimit := maxWord }).stack.CanHold summed.size := by
    decide +kernel
  obtain ⟨hNever, ⟨peak, -, hThreshold⟩, -, -, hRaise⟩ := limit_is_sharp_threshold hSize hGranted
  refine ⟨hSize, hGranted, hRaise (.new { stackLimit := 2 }) (.new { stackLimit := maxWord })
    (by decide) hGranted ?_, ?_⟩
  · rw [hTwo]
    exact nofun
  · have hSmall : (Machine.new { stackLimit := 1 }).stack.CanHold peak :=
      Stack.canHold_of_limit_le (Nat.le_refl 1) peak
    obtain ⟨hAbove, hBelow⟩ := hThreshold (.new { stackLimit := 1 }) hSmall
    have hPeak : 1 < peak := by
      by_contra hLow
      have hSame := (hAbove (Nat.le_of_not_lt hLow)).1
      rw [hOne] at hSame
      exact hNever _ hSame.symm rfl
    obtain ⟨before, hPasses, hFault, -⟩ := hBelow hPeak
    have hOffset := congrArg (Option.map Fault.offset) (hFault.symm.trans hOne)
    exact ⟨before, hPasses, Option.some.inj hOffset, hFault⟩

end StackMachine
