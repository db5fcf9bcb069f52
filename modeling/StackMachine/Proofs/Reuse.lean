import StackMachine.Proofs.Overflows

/-! Machines can be used again. A run begins by resetting the machine, so what earlier runs have
left on it, ended or faulted, has no influence. Only the slots of the stack stay, which are no more
than a new machine is granted too. Tracing is seen in the log alone. -/
namespace StackMachine

namespace Machine

def servedBy (m : Machine) (heap : Allocator) : Machine :=
  { m with stack := { m.stack with heap := heap } }

/-- The machine after runs of several chunks, one after the other, each under an allocator of its
own. -/
def afterRuns (m : Machine) (earlier : List (Allocator × Chunk)) : Machine :=
  earlier.foldl (fun used next => ((used.servedBy next.1).run next.2).machine) m

/-- A run keeps the configuration. -/
theorem config_run (m : Machine) (chunk : Chunk) : (m.run chunk).machine.config = m.config := by
  have hLeft := m.leftBy_run chunk
  simp only [config, hLeft.stack.limit, hLeft.traced]

theorem config_afterRuns (m : Machine) (earlier : List (Allocator × Chunk)) :
    (m.afterRuns earlier).config = m.config := by
  induction earlier generalizing m with
  | nil => rfl
  | cons first rest ih =>
      exact (ih ((m.servedBy first.1).run first.2).machine).trans
        ((m.servedBy first.1).config_run first.2)

/-- No run gives slots back. -/
theorem capacity_le_afterRuns (m : Machine) (earlier : List (Allocator × Chunk)) :
    m.stack.capacity ≤ (m.afterRuns earlier).stack.capacity := by
  induction earlier generalizing m with
  | nil => exact Nat.le_refl m.stack.capacity
  | cons first rest ih =>
      have hFirst := ((m.servedBy first.1).leftBy_run first.2).stack.capacity
      exact Nat.le_trans hFirst (ih ((m.servedBy first.1).run first.2).machine)

/-- What an allocator grants to a new machine, it grants to one that has been used. -/
theorem canHold_afterRuns {config : Config} {heap : Allocator} {size : Nat}
    (h : (new config heap).stack.CanHold size) (earlier : List (Allocator × Chunk)) :
    (((new config).afterRuns earlier).servedBy heap).stack.CanHold size := by
  have hLimit : ((new config).afterRuns earlier).stack.limit = config.stackLimit :=
    congrArg Config.stackLimit ((new config).config_afterRuns earlier)
  intro capacity hSize hHeld
  change capacity < min size ((new config).afterRuns earlier).stack.limit at hSize
  rw [hLimit] at hSize
  exact h capacity hSize (Nat.le_trans ((new config).capacity_le_afterRuns earlier) hHeld)

section Alike

variable {chunk : Chunk} {limit steps : Nat} {p q : Position} {m n : Machine}

/-- Machines at one position with one switch report the same events. -/
theorem report_eq {a b : Machine} (h : m.StandsAt p a) (h' : n.StandsAt p b)
    (hTraced : m.traced = n.traced) (log : Array Event) :
    a.report chunk log = b.report chunk log := by
  simp only [report, upcoming?, h.traced, h.ip, h.values, h'.traced, h'.ip, h'.values, hTraced]

/-- Machines that are traced alike log the same on the same way. -/
theorem execute_alike {a b : Machine} (h : m.StandsAt p a) (h' : n.StandsAt p b)
    (hTraced : m.traced = n.traced) (hFirst : limit ≤ m.stack.room)
    (hSecond : limit ≤ n.stack.room) (run : RunsFor chunk limit p q steps)
    (log : Array Event) :
    ∃ c d events, m.StandsAt q c ∧ n.StandsAt q d ∧
      execute chunk a log = execute chunk c events ∧
      execute chunk b log = execute chunk d events := by
  induction run with
  | zero => exact ⟨a, b, log, h, h', rfl, rfl⟩
  | succ prior last ih =>
      obtain ⟨c, d, events, hc, hd, hPrior, hPriorAgain⟩ := ih
      obtain ⟨next, hNext, hLast⟩ := execute_of_advances hc (last.raise hFirst) events
      obtain ⟨again, hAgain, hLastAgain⟩ := execute_of_advances hd (last.raise hSecond) events
      rw [← report_eq hc hd hTraced] at hLastAgain
      exact ⟨next, again, _, hNext, hAgain, hPrior.trans hLast, hPriorAgain.trans hLastAgain⟩

variable (hRooms : chunk.Indifferent m.stack.room n.stack.room)

include hRooms

/-- Whatever their slots and allocators are, machines that are traced alike log the same. -/
theorem events_run_eq (hTraced : m.traced = n.traced) :
    (m.run chunk).events = (n.run chunk).events := by
  obtain ⟨p, steps, run, hStops⟩ := exists_run_to_ending chunk m.stack.room
  obtain ⟨a, b, events, ha, hb, hFirst, hSecond⟩ :=
    execute_alike m.standsAt_reset n.standsAt_reset hTraced (Nat.min_le_left _ _)
      (Nat.min_le_right _ _) (hRooms.runsFor_min run)
      #[.started chunk.size chunk.constants.size]
  obtain ⟨last, hEnded, -, -⟩ := execute_of_stops ha hStops events
  obtain ⟨lastAgain, hEndedAgain, -, -⟩ := execute_of_stops hb (hRooms.stops hStops run) events
  have hLogs : a.report chunk events = b.report chunk events := report_eq ha hb hTraced events
  rw [events_run, events_run, hFirst.trans hEnded, hSecond.trans hEndedAgain, run_fault,
    run_fault, size_run, size_run, hRooms.ending_eq]
  simp only [hLogs]

end Alike

/-- A run leaves the machine halted, however it ended. -/
theorem halted_run (m : Machine) (chunk : Chunk) : (m.run chunk).machine.halted = true :=
  (m.leftBy_run chunk).halted

/-- A fault drops all values. -/
theorem fault_eq_none_or_isEmpty (m : Machine) (chunk : Chunk) :
    (m.run chunk).fault = none ∨ (m.run chunk).machine.stack.isEmpty = true := by
  refine (m.endsAs_run chunk).dropped.imp_right fun hEmpty => ?_
  rw [Stack.isEmpty, hEmpty]
  rfl

end Machine

/-- The outcome of a run depends only on the chunk and on the limit of the stack, if the allocator
grants a new machine as many slots as the code can fill. A machine that has run any chunks before,
with or without faults and under any allocators, ends the run of a chunk as a new machine does that
has the same limit, whether that one is traced or not: with the same fault, stack, pointer and
halting. A new machine that is traced alike also logs the same events. No run changes the
configuration. Every run leaves the machine halted, and a faulting one leaves the stack empty. A
run only reads its chunk: whatever is run after it, the same chunk has the same outcome again. -/
theorem run_depends_on_chunk_and_limit (config : Config) (earlier : List (Allocator × Chunk))
    {chunk : Chunk} {heap other : Allocator}
    (hUsed : (Machine.new config heap).stack.CanHold chunk.size)
    (hFresh : (Machine.new config other).stack.CanHold chunk.size) (traced : Bool) :
    let used := ((Machine.new config).afterRuns earlier).servedBy heap
    let fresh := Machine.new { config with traced := traced } other
    ((used.run chunk).fault = (fresh.run chunk).fault ∧
      (used.run chunk).machine.stack.values = (fresh.run chunk).machine.stack.values ∧
      (used.run chunk).machine.stack.top? = (fresh.run chunk).machine.stack.top? ∧
      (used.run chunk).machine.ip = (fresh.run chunk).machine.ip ∧
      (used.run chunk).machine.halted = (fresh.run chunk).machine.halted) ∧
    (used.run chunk).events = ((Machine.new config other).run chunk).events ∧
    used.config = config ∧ (used.run chunk).machine.config = config ∧
    (used.run chunk).machine.halted = true ∧
    ((used.run chunk).fault = none ∨ (used.run chunk).machine.stack.isEmpty = true) ∧
    ∀ later : List (Allocator × Chunk),
      let again := ((used.run chunk).machine.afterRuns later).servedBy heap
      (again.run chunk).SameOutcome (used.run chunk) ∧
        (again.run chunk).events = (used.run chunk).events := by
  intro used fresh
  have hConfig : used.config = config := (Machine.new config).config_afterRuns earlier
  have hGranted : used.stack.CanHold chunk.size := Machine.canHold_afterRuns hUsed earlier
  have hRooms : chunk.Indifferent used.stack.room fresh.stack.room :=
    hGranted.indifferent_of_limit hFresh (congrArg Config.stackLimit hConfig)
  obtain ⟨hFault, hValues, hIp⟩ := Machine.sameOutcome_of_ending hRooms.ending_eq
  have hEvents : (used.run chunk).events = ((Machine.new config other).run chunk).events :=
    Machine.events_run_eq hRooms (congrArg Config.traced hConfig)
  refine ⟨⟨hFault, hValues, congrArg Array.back? hValues, hIp, ?_⟩, hEvents, hConfig,
    (used.config_run chunk).trans hConfig, used.halted_run chunk,
    used.fault_eq_none_or_isEmpty chunk, fun later => ?_⟩
  · rw [used.halted_run, fresh.halted_run]
  · intro again
    have hAgain : again =
        ((Machine.new config).afterRuns (earlier ++ (heap, chunk) :: later)).servedBy heap := by
      simp only [again, used, Machine.afterRuns, List.foldl_append, List.foldl_cons]
    have hSame : again.config = used.config := by
      rw [hAgain, hConfig]
      exact (Machine.new config).config_afterRuns _
    have hAgainGranted : again.stack.CanHold chunk.size := by
      rw [hAgain]
      exact Machine.canHold_afterRuns hUsed _
    have hRooms : chunk.Indifferent again.stack.room used.stack.room :=
      hAgainGranted.indifferent_of_limit hGranted (congrArg Config.stackLimit hSame)
    exact ⟨Machine.sameOutcome_of_ending hRooms.ending_eq,
      Machine.events_run_eq hRooms (congrArg Config.traced hSame)⟩

def loaded : Chunk := ⟨⟨#[0, 0, 1], 8⟩, ⟨#[1, 1, 1], 8⟩, ⟨#[.number 1], 8⟩⟩

def deprived : Chunk := ⟨⟨#[3], 8⟩, ⟨#[1], 8⟩, .empty⟩

/-- A run that has faulted leaves no trace, and an allocator that refuses is not asked. -/
theorem run_after_deprived :
    (Machine.new {} .refusing).stack.CanHold loaded.size ∧
      ((((Machine.new {}).afterRuns [(.standard, deprived)]).servedBy .refusing).run
        loaded).machine.stack.values = #[.number 1] := by
  have hGranted (heap : Allocator) : (Machine.new {} heap).stack.CanHold loaded.size :=
    Stack.canHold_of_limit_le (Nat.le_refl 256) loaded.size
  obtain ⟨⟨-, hValues, -⟩, -⟩ := run_depends_on_chunk_and_limit {} [(.standard, deprived)]
    (hGranted .refusing) (hGranted .standard) true
  rw [hValues]
  exact ⟨hGranted .refusing, by cbv⟩

end StackMachine
