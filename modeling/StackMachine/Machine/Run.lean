import StackMachine.Machine.Basic
import StackMachine.Machine.Event

/-!
Runs: the machine steps from the first byte of a chunk until an instruction ends the program or
cannot be executed. Every step that succeeds moves the instruction pointer forward inside the
code, so every run ends.
-/
namespace StackMachine

namespace Machine

/-- What happens on the stack leaves the instruction pointer alone. -/
theorem ip_of_onStack {α : Type} {act : EStateM FaultKind Stack α} {m m' : Machine} {a : α}
    (h : onStack act m = .ok a m') : m'.ip = m.ip := by
  cases m
  simp only [onStack] at h
  split at h <;> cases h
  rfl

theorem ip_of_unary {op : Float → Float} {m m' : Machine}
    (h : unary op m = .ok () m') : m'.ip = m.ip := by
  simp only [unary, bind, EStateM.bind] at h
  split at h
  · rename_i popped
    rw [ip_of_onStack h, ip_of_onStack popped]
  · cases h

theorem ip_of_binary {op : Float → Float → Float} {m m' : Machine}
    (h : binary op m = .ok () m') : m'.ip = m.ip := by
  simp only [binary, bind, EStateM.bind] at h
  split at h
  · rename_i first
    split at h
    · rename_i second
      rw [ip_of_onStack h, ip_of_onStack second, ip_of_onStack first]
    · cases h
  · cases h

theorem ip_of_load {constants : ConstantPool} {index : Nat} {m m' : Machine}
    (h : load constants index m = .ok () m') : m'.ip = m.ip := by
  unfold load at h
  split at h
  · cases h
  · exact ip_of_onStack h

/-- Executing an opcode leaves the instruction pointer where fetching has put it. -/
theorem ip_of_dispatch {constants : ConstantPool} {opcode : Opcode} {operand : UInt32}
    {m m' : Machine} (h : dispatch constants opcode operand m = .ok () m') : m'.ip = m.ip := by
  cases opcode with
  | constant => exact ip_of_load h
  | constantLong => exact ip_of_load h
  | ret => cases h; rfl
  | negate => exact ip_of_unary h
  | add => exact ip_of_binary h
  | subtract => exact ip_of_binary h
  | multiply => exact ip_of_binary h
  | divide => exact ip_of_binary h

theorem ip_of_fetchOpcode {code : Array UInt8} {opcode : Opcode} {m m' : Machine}
    (h : fetchOpcode code m = .ok opcode m') : m'.ip = m.ip + 1 := by
  unfold fetchOpcode at h
  split at h
  · cases h
  · split at h <;> cases h
    rfl

/-- An operand is passed over as a whole and lies in the code. -/
theorem ip_of_fetchOperand {code : Array UInt8} {opcode : Opcode} {operand : UInt32}
    {m m' : Machine} (h : fetchOperand code opcode m = .ok operand m') :
    m'.ip = m.ip + opcode.operandWidth ∧ m'.ip ≤ code.size := by
  unfold fetchOperand at h
  split at h <;> cases h
  rename_i found
  exact ⟨rfl, Operand.end_le_of_window? found⟩

/-- A step that succeeds moves forward and stays inside the code. -/
theorem ip_of_step {chunk : Chunk} {m m' : Machine} (h : step chunk m = .ok () m') :
    m.ip < m'.ip ∧ m'.ip ≤ chunk.size := by
  simp only [step, bind, EStateM.bind] at h
  split at h
  · rename_i fetched
    split at h
    · rename_i operand
      have opcodeRead := ip_of_fetchOpcode fetched
      obtain ⟨operandRead, inside⟩ := ip_of_fetchOperand operand
      have kept := ip_of_dispatch h
      refine ⟨by omega, ?_⟩
      rw [kept]
      exact inside
    · cases h
  · cases h

/-- The event of the instruction at the instruction pointer; none at the end of the code. -/
def upcoming? (m : Machine) (chunk : Chunk) : Option Event :=
  (Row.at? chunk m.ip).map fun row => .executing row m.stack.values

/-- `log`, with the upcoming instruction if the machine is traced. -/
def report (m : Machine) (chunk : Chunk) (log : Array Event) : Array Event :=
  if m.traced then
    match m.upcoming? chunk with
    | some event => log.push event
    | none => log
  else log

/-- The line of a fault: the one recorded for its offset, or the last line of all past the end
of the code. -/
def faultLine? (chunk : Chunk) (offset : Nat) : Option Nat :=
  (chunk.lineAt? offset).or chunk.lines.toArray.back?

/-- A machine after stepping, with the fault that stopped it and the events on the way. -/
structure Halted where
  machine : Machine
  fault : Option Fault
  events : Array Event

def execute (chunk : Chunk) (m : Machine) (log : Array Event) : Halted :=
  if m.halted then ⟨m, none, log⟩
  else
    let start := m.ip
    let log := m.report chunk log
    match _ : step chunk m with
    | .ok () next => execute chunk next log
    | .error kind stopped => ⟨stopped, some ⟨start, faultLine? chunk start, kind⟩, log⟩
termination_by chunk.size - m.ip
decreasing_by
  have := ip_of_step ‹step chunk m = .ok () next›
  omega

/-- The machine before its first step: at the first byte, with an empty stack. -/
def reset (m : Machine) : Machine :=
  { m with ip := 0, halted := false, stack := m.stack.clear }

/-- Run a chunk. The stack is left as the program leaves it, and empty after a fault. -/
def run (chunk : Chunk) (m : Machine) : Halted :=
  let started := .started chunk.size chunk.constants.size
  let ended := execute chunk m.reset #[started]
  match ended.fault with
  | none =>
    ⟨ended.machine, none, ended.events.push (.finished ended.machine.stack.size)⟩
  | some fault =>
    let machine := { ended.machine with halted := true, stack := ended.machine.stack.clear }
    ⟨machine, some fault, ended.events.push (.faulted fault)⟩

end Machine

end StackMachine
