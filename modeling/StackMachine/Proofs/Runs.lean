import StackMachine.Proofs.RowSemantics

/-! Runs as sequences of positions. From every position exactly one run leads to a place where
the program stops, and both the machine and the interpreter of rows follow it. -/
namespace StackMachine

/-- One instruction is executed and the program goes on. -/
def Advances (chunk : Chunk) (limit : Nat) (p q : Position) : Prop :=
  ∃ row, Row.at? chunk p.ip = some row ∧
    row.content.effect limit p.values = .continues q.values ∧ q.ip = row.next

/-- Exactly `steps` instructions are executed, none of which ends the program. -/
inductive RunsFor (chunk : Chunk) (limit : Nat) : Position → Position → Nat → Prop where
  | zero (p : Position) : RunsFor chunk limit p p 0
  | succ {p q r : Position} {steps : Nat}
      (prior : RunsFor chunk limit p q steps) (last : Advances chunk limit q r) :
      RunsFor chunk limit p r (steps + 1)

/-- The program ends at a position, without or with a fault. -/
inductive Stops (chunk : Chunk) (limit : Nat) : Position → Ending → Prop where
  | outOfCode {p : Position} (hRow : Row.at? chunk p.ip = none) :
      Stops chunk limit p ⟨some (p.ip, .unexpectedEndOfCode), p.ip, []⟩
  | returned {p : Position} {row : Row} (hRow : Row.at? chunk p.ip = some row)
      (hEffect : row.content.effect limit p.values = .returns) :
      Stops chunk limit p ⟨none, row.next, p.values⟩
  | faulted {p : Position} {row : Row} {kind : FaultKind}
      (hRow : Row.at? chunk p.ip = some row)
      (hEffect : row.content.effect limit p.values = .faults kind) :
      Stops chunk limit p ⟨some (p.ip, kind), row.pointerAt kind, []⟩

variable {chunk : Chunk} {limit : Nat}

theorem RunsFor.trans {p q r : Position} {first second : Nat}
    (left : RunsFor chunk limit p q first) (right : RunsFor chunk limit q r second) :
    RunsFor chunk limit p r (first + second) := by
  induction right with
  | zero => exact left
  | succ prior last ih => exact .succ ih last

theorem RunsFor.single {p q : Position} (h : Advances chunk limit p q) :
    RunsFor chunk limit p q 1 :=
  .succ (.zero p) h

/-- Every step moves the pointer forward and keeps it in the code. -/
theorem Advances.ip_lt {p q : Position} (h : Advances chunk limit p q) :
    p.ip < q.ip ∧ q.ip ≤ chunk.size := by
  obtain ⟨row, hRow, -, hNext⟩ := h
  rw [hNext]
  exact Row.offset_lt_next_of_at? hRow

theorem RunsFor.ip_le {p q : Position} {steps : Nat} (run : RunsFor chunk limit p q steps)
    (hInside : p.ip ≤ chunk.size) : q.ip ≤ chunk.size := by
  cases run with
  | zero => exact hInside
  | succ prior last => exact last.ip_lt.2

/-- A program does not get stuck: it stops at every position that it does not leave. -/
theorem stops_or_advances (chunk : Chunk) (limit : Nat) (p : Position) :
    (∃ ending, Stops chunk limit p ending) ∨ ∃ q, Advances chunk limit p q := by
  cases hRow : Row.at? chunk p.ip with
  | none => exact .inl ⟨_, .outOfCode hRow⟩
  | some row =>
      cases hEffect : row.content.effect limit p.values with
      | continues values => exact .inr ⟨⟨row.next, values⟩, row, hRow, hEffect, rfl⟩
      | returns => exact .inl ⟨_, .returned hRow hEffect⟩
      | faults kind => exact .inl ⟨_, .faulted hRow hEffect⟩

/-- A run stops where no further step is possible. -/
theorem Stops.not_advances {p q : Position} {ending : Ending}
    (h : Stops chunk limit p ending) : ¬Advances chunk limit p q := by
  rintro ⟨row, hNext, hEffect, -⟩
  cases h with
  | outOfCode hRow => cases hNext.symm.trans hRow
  | returned hRow hReturns =>
      cases hNext.symm.trans hRow
      cases hEffect.symm.trans hReturns
  | faulted hRow hFaults =>
      cases hNext.symm.trans hRow
      cases hEffect.symm.trans hFaults

/-- Every run comes to its end, because the offsets grow and are bounded by the code. -/
theorem exists_stop (chunk : Chunk) (limit : Nat) (p : Position) :
    ∃ q steps ending, RunsFor chunk limit p q steps ∧ Stops chunk limit q ending := by
  induction hLeft : chunk.size - p.ip using Nat.strongRecOn generalizing p with
  | ind left ih =>
      rcases stops_or_advances chunk limit p with ⟨ending, hStops⟩ | ⟨next, hNext⟩
      · exact ⟨p, 0, ending, .zero p, hStops⟩
      · have hMoved := hNext.ip_lt
        obtain ⟨q, steps, ending, run, hStops⟩ := ih (chunk.size - next.ip) (by omega) next rfl
        exact ⟨q, 1 + steps, ending, (RunsFor.single hNext).trans run, hStops⟩

/-! The interpreter of rows and the machine both follow a run to its end. -/

/-- The fold takes a row exactly as the step over it. -/
theorem interpret_of_advances {p q : Position} (h : Advances chunk limit p q)
    (previous : Option Nat) :
    interpret limit chunk.size (Listing.rowsBelow chunk previous p.ip) p.values =
      interpret limit chunk.size (Listing.rowsBelow chunk (chunk.lineAt? p.ip) q.ip)
        q.values := by
  obtain ⟨row, hRow, hEffect, hNext⟩ := h
  obtain ⟨mark, hBelow⟩ := Listing.rowBelow?_of_at? hRow previous
  rw [Listing.rowsBelow_of_some hBelow, interpret, hNext]
  simp only [hEffect]

/-- The fold ends where a run stops, and as it does. -/
theorem interpret_of_stops {p : Position} {ending : Ending} (h : Stops chunk limit p ending)
    (hInside : p.ip ≤ chunk.size) (previous : Option Nat) :
    interpret limit chunk.size (Listing.rowsBelow chunk previous p.ip) p.values = ending := by
  cases h with
  | outOfCode hRow =>
      have hEnd : p.ip = chunk.size := Nat.le_antisymm hInside (Row.size_le_of_at?_eq_none hRow)
      rw [Listing.rowsBelow_of_none hRow, interpret, hEnd]
  | returned hRow hEffect =>
      obtain ⟨mark, hBelow⟩ := Listing.rowBelow?_of_at? hRow previous
      rw [Listing.rowsBelow_of_some hBelow, interpret]
      simp only [hEffect]
  | faulted hRow hEffect =>
      obtain ⟨mark, hBelow⟩ := Listing.rowBelow?_of_at? hRow previous
      rw [Listing.rowsBelow_of_some hBelow, interpret]
      simp only [hEffect]
      rw [Row.pointerAt_of_line, Row.offset_of_at? hRow]

/-- Folding from the start of a run is folding from its end, under some line above. -/
theorem interpret_of_runsFor {p q : Position} {steps : Nat}
    (run : RunsFor chunk limit p q steps) (previous : Option Nat) :
    ∃ above,
      interpret limit chunk.size (Listing.rowsBelow chunk previous p.ip) p.values =
        interpret limit chunk.size (Listing.rowsBelow chunk above q.ip) q.values := by
  induction run with
  | zero => exact ⟨previous, rfl⟩
  | succ prior last ih =>
      obtain ⟨above, hPrior⟩ := ih
      exact ⟨_, hPrior.trans (interpret_of_advances last above)⟩

namespace Machine

theorem execute_of_halted {m : Machine} (h : m.halted = true) (log : Array Event) :
    execute chunk m log = ⟨m, none, log⟩ := by
  rw [execute, if_pos h]

theorem execute_of_step {m next : Machine} (hRunning : m.halted = false)
    (h : step chunk m = .ok () next) (log : Array Event) :
    execute chunk m log = execute chunk next (m.report chunk log) := by
  rw [execute, if_neg (by simp [hRunning])]
  dsimp only
  split
  · rename_i other hOther
    rw [h] at hOther
    cases hOther
    rfl
  · rename_i kind stopped hError
    rw [h] at hError
    cases hError

/-- A failed step ends the execution, located at the instruction it began with. -/
theorem execute_of_fault {m stopped : Machine} {kind : FaultKind}
    (hRunning : m.halted = false) (h : step chunk m = .error kind stopped)
    (log : Array Event) :
    execute chunk m log =
      ⟨stopped, some ⟨m.ip, faultLine? chunk m.ip, kind⟩, m.report chunk log⟩ := by
  rw [execute, if_neg (by simp [hRunning])]
  dsimp only
  split
  · rename_i other hOther
    rw [h] at hOther
    cases hOther
  · rename_i other left hError
    rw [h] at hError
    cases hError
    rfl

variable {start m : Machine}

/-- A step over positions is a step of every machine standing there. -/
theorem step_of_advances {p q : Position} (hAt : start.StandsAt p m)
    (h : Advances chunk start.stack.room p q) :
    ∃ next, step chunk m = .ok () next ∧ start.StandsAt q next := by
  obtain ⟨row, hRow, hEffect, hNext⟩ := h
  obtain ⟨ip, values⟩ := q
  cases hNext
  exact step_of_effect hAt hRow hEffect

theorem execute_of_advances {p q : Position} (hAt : start.StandsAt p m)
    (h : Advances chunk start.stack.room p q) (log : Array Event) :
    ∃ next, start.StandsAt q next ∧
      execute chunk m log = execute chunk next (m.report chunk log) := by
  obtain ⟨next, hStep, hNext⟩ := step_of_advances hAt h
  exact ⟨next, hNext, execute_of_step hAt.running hStep log⟩

/-- Executing from the start of a run is executing from its end, with more events. -/
theorem execute_of_runsFor {p q : Position} {steps : Nat} (hAt : start.StandsAt p m)
    (run : RunsFor chunk start.stack.room p q steps) (log : Array Event) :
    ∃ next events, start.StandsAt q next ∧
      execute chunk m log = execute chunk next events := by
  induction run with
  | zero => exact ⟨m, log, hAt, rfl⟩
  | succ prior last ih =>
      obtain ⟨middle, events, hMiddle, hPrior⟩ := ih
      obtain ⟨next, hNext, hLast⟩ := execute_of_advances hMiddle last events
      exact ⟨next, _, hNext, hPrior.trans hLast⟩

end Machine

def Ending.report (ending : Ending) (chunk : Chunk) : Option Fault :=
  ending.fault.map fun fault => ⟨fault.1, Machine.faultLine? chunk fault.1, fault.2⟩

namespace Machine

/-- The machine that a run of `start` has left. -/
structure LeftBy (start : Machine) (ending : Ending) (m : Machine) : Prop where
  stack : start.stack.Becomes m.stack
  traced : m.traced = start.traced
  halted : m.halted = true
  ip : m.ip = ending.pointer
  values : m.stack.values = ending.values.reverse.toArray

def dropValues (m : Machine) : Machine :=
  { m with halted := true, stack := m.stack.clear }

theorem StandsAt.leftBy_dropValues {start m : Machine} {p : Position}
    (h : start.StandsAt p m) (fault : Option (Nat × FaultKind)) :
    start.LeftBy ⟨fault, p.ip, []⟩ m.dropValues :=
  ⟨h.stack.trans m.stack.becomes_clear, h.traced, rfl, h.ip, rfl⟩

/-- Where the program stops, the loop is left, and the instruction at hand is the last one that is
reported. -/
theorem execute_of_stops {start m : Machine} {p : Position} {ending : Ending}
    (hAt : start.StandsAt p m) (h : Stops chunk start.stack.room p ending) (log : Array Event) :
    ∃ last, execute chunk m log = ⟨last, ending.report chunk, m.report chunk log⟩ ∧
      (ending.fault = none → start.LeftBy ending last) ∧
      (ending.fault ≠ none → start.LeftBy ending last.dropValues) := by
  cases h with
  | outOfCode hRow =>
      refine ⟨m, ?_, nofun, fun _ => hAt.leftBy_dropValues _⟩
      rw [execute_of_fault hAt.running (step_of_no_row hAt hRow), hAt.ip]
      rfl
  | returned hRow hEffect =>
      obtain ⟨next, hStep, hNext⟩ := step_of_effect hAt hRow hEffect
      refine ⟨{ next with halted := true }, ?_,
        fun _ => ⟨hNext.stack, hNext.traced, rfl, hNext.ip, hNext.values⟩, absurd rfl⟩
      rw [execute_of_step hAt.running hStep, execute_of_halted rfl]
      rfl
  | faulted hRow hEffect =>
      obtain ⟨stopped, left, hStep, hStopped⟩ := step_of_effect hAt hRow hEffect
      refine ⟨stopped, ?_, nofun, fun _ => hStopped.leftBy_dropValues _⟩
      rw [execute_of_fault hAt.running hStep, hAt.ip]
      rfl

/-- A run is what the loop makes of the machine after a reset, and it drops all values after a
fault. -/
theorem run_of_execute {m last : Machine} {fault : Option Fault} {events : Array Event}
    (h : execute chunk m.reset #[.started chunk.size chunk.constants.size] =
      ⟨last, fault, events⟩) :
    (m.run chunk).fault = fault ∧ (fault = none → (m.run chunk).machine = last) ∧
      (fault ≠ none → (m.run chunk).machine = last.dropValues) := by
  unfold Machine.run
  simp only [h]
  cases fault with
  | none => exact ⟨rfl, fun _ => rfl, absurd rfl⟩
  | some fault => exact ⟨rfl, nofun, fun _ => rfl⟩

/-- A run logs its start, what it executes, and its result. -/
theorem events_run (m : Machine) (chunk : Chunk) :
    (m.run chunk).events =
      (execute chunk m.reset #[.started chunk.size chunk.constants.size]).events.push
        (match (m.run chunk).fault with
          | none => .finished (m.run chunk).machine.stack.size
          | some fault => .faulted fault) := by
  unfold Machine.run
  dsimp only
  generalize execute chunk m.reset #[.started chunk.size chunk.constants.size] = ended
  obtain ⟨machine, fault, events⟩ := ended
  cases fault <;> rfl

/-- A machine ends as the run over positions does. -/
theorem run_of_stops {m : Machine} {q : Position} {steps : Nat} {ending : Ending}
    (run : RunsFor chunk m.stack.room ⟨0, []⟩ q steps)
    (hStops : Stops chunk m.stack.room q ending) :
    (m.run chunk).fault = ending.report chunk ∧ m.LeftBy ending (m.run chunk).machine := by
  obtain ⟨state, before, hState, hRun⟩ :=
    execute_of_runsFor m.standsAt_reset run #[.started chunk.size chunk.constants.size]
  obtain ⟨last, hEnded, hReturned, hFaulted⟩ := execute_of_stops hState hStops before
  obtain ⟨hFault, hOk, hError⟩ := run_of_execute (hRun.trans hEnded)
  refine ⟨hFault, ?_⟩
  cases hNone : ending.fault with
  | none =>
      rw [hOk (by rw [Ending.report, hNone, Option.map_none])]
      exact hReturned hNone
  | some fault =>
      rw [hError (by rw [Ending.report, hNone, Option.map_some]; exact nofun)]
      exact hFaulted (hNone ▸ nofun)

end Machine

/-- How a chunk ends under a limit on the number of values. -/
def Chunk.ending (chunk : Chunk) (limit : Nat) : Ending :=
  interpret limit chunk.size (Listing.rows chunk).toList []

/-- The fold from the first byte ends where the run from there stops. -/
theorem ending_of_stops {q : Position} {steps : Nat} {ending : Ending}
    (run : RunsFor chunk limit ⟨0, []⟩ q steps) (hStops : Stops chunk limit q ending) :
    chunk.ending limit = ending := by
  obtain ⟨above, hRun⟩ := interpret_of_runsFor run none
  exact hRun.trans (interpret_of_stops hStops (run.ip_le (Nat.zero_le _)) above)

/-- The ending of a chunk is reached by a run from its first byte. -/
theorem exists_run_to_ending (chunk : Chunk) (limit : Nat) :
    ∃ q steps, RunsFor chunk limit ⟨0, []⟩ q steps ∧
      Stops chunk limit q (chunk.ending limit) := by
  obtain ⟨q, steps, ending, run, hStops⟩ := exists_stop chunk limit ⟨0, []⟩
  rw [ending_of_stops run hStops]
  exact ⟨q, steps, run, hStops⟩

/-- A fault comes from the row at its offset, or from the end of the code. -/
theorem exists_run_to_fault {offset : Nat} {kind : FaultKind}
    (h : (chunk.ending limit).fault = some (offset, kind)) :
    ∃ values steps, RunsFor chunk limit ⟨0, []⟩ ⟨offset, values⟩ steps ∧
      ((Row.at? chunk offset = none ∧ kind = .unexpectedEndOfCode) ∨
        ∃ row, Row.at? chunk offset = some row ∧
          row.content.effect limit values = .faults kind) := by
  obtain ⟨q, steps, run, hStops⟩ := exists_run_to_ending chunk limit
  generalize chunk.ending limit = ending at h hStops
  cases hStops with
  | outOfCode hRow =>
      cases h
      exact ⟨q.values, steps, run, .inl ⟨hRow, rfl⟩⟩
  | returned => cases h
  | faulted hRow hEffect =>
      cases h
      exact ⟨q.values, steps, run, .inr ⟨_, hRow, hEffect⟩⟩

namespace Machine

/-- The fault of a run is that of the fold under the room of its stack. -/
theorem run_fault (m : Machine) (chunk : Chunk) :
    (m.run chunk).fault = (chunk.ending m.stack.room).report chunk := by
  obtain ⟨q, steps, run, hStops⟩ := exists_run_to_ending chunk m.stack.room
  exact (run_of_stops run hStops).1

/-- Nothing of the machine before a run is left but its configuration and its slots. -/
theorem leftBy_run (m : Machine) (chunk : Chunk) :
    m.LeftBy (chunk.ending m.stack.room) (m.run chunk).machine := by
  obtain ⟨q, steps, run, hStops⟩ := exists_run_to_ending chunk m.stack.room
  exact (run_of_stops run hStops).2

theorem ip_run (m : Machine) (chunk : Chunk) :
    (m.run chunk).machine.ip = (chunk.ending m.stack.room).pointer :=
  (m.leftBy_run chunk).ip

theorem values_run (m : Machine) (chunk : Chunk) :
    (m.run chunk).machine.stack.values = (chunk.ending m.stack.room).values.reverse.toArray :=
  (m.leftBy_run chunk).values

theorem size_run (m : Machine) (chunk : Chunk) :
    (m.run chunk).machine.stack.size = (chunk.ending m.stack.room).values.length := by
  rw [Stack.size, values_run, List.size_toArray, List.length_reverse]

end Machine

/-- A run that faults leaves no values. -/
theorem ending_values_of_fault {offset : Nat} {kind : FaultKind}
    (h : (chunk.ending limit).fault = some (offset, kind)) :
    (chunk.ending limit).values = [] := by
  obtain ⟨q, steps, -, hStops⟩ := exists_run_to_ending chunk limit
  generalize chunk.ending limit = ending at h hStops
  cases hStops with
  | outOfCode => rfl
  | returned => cases h
  | faulted => rfl

end StackMachine
