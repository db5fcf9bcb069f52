import StackMachine.Machine.Run
import StackMachine.Proofs.Decoding
import StackMachine.Proofs.Room

/-! One step of the machine. Fetching agrees with decoding at the instruction pointer, and the
execution of an opcode is computed on a stack that is given from its top. -/
namespace StackMachine

namespace Machine

/-- The first half of a step: the opcode and the operand at the instruction pointer. -/
def fetch (code : Array UInt8) : Action (Opcode × UInt32) := do
  let opcode ← fetchOpcode code
  let operand ← fetchOperand code opcode
  return (opcode, operand)

/-- A step fetches an instruction whole before it does anything. -/
theorem step_eq_fetch (chunk : Chunk) :
    step chunk = fetch chunk.code.toArray >>= fun fetched =>
      dispatch chunk.constants fetched.1 fetched.2 := by
  simp only [step, fetch, bind_assoc, pure_bind]

/-- Fetching reads what decoding finds. A byte that is no opcode and the opcode of a cut-off
instruction are passed, and at the end of the code nothing moves. -/
theorem fetch_eq (code : Array UInt8) (m : Machine) :
    fetch code m =
      match Instruction.decode code m.ip with
      | .ok i => .ok (i.opcode, i.operand.getD 0) { m with ip := m.ip + i.width }
      | .error (.unknown byte) => .error (.invalidOpcode byte) { m with ip := m.ip + 1 }
      | .error (.truncated _) => .error .truncatedInstruction { m with ip := m.ip + 1 }
      | .error .endOfCode => .error .unexpectedEndOfCode m := by
  simp only [fetch, bind, EStateM.bind, fetchOpcode, fetchOperand, Instruction.decode]
  cases hByte : code[m.ip]? with
  | none => rfl
  | some byte =>
      have hInside : m.ip < code.size := (Array.getElem?_eq_some_iff.mp hByte).1
      simp only
      cases hOpcode : Opcode.ofByte? byte with
      | none => rfl
      | some opcode =>
          simp only
          by_cases hWidth : opcode.operandWidth = 0
          · have hWindow : Operand.window? code (m.ip + 1) 0 = some [] :=
              Operand.window?_eq_some_iff.mpr ⟨hInside, rfl⟩
            simp only [hWidth, hWindow, if_true, Instruction.width, Option.getD_none]
            rfl
          · rw [if_neg hWidth]
            cases Operand.window? code (m.ip + 1) opcode.operandWidth with
            | none => rfl
            | some bytes =>
                simp only [Instruction.width, Option.getD_some, Nat.add_assoc]
                rfl

/-- A step executes what is decoded, or faults where nothing can be fetched. -/
theorem step_eq (chunk : Chunk) (m : Machine) :
    step chunk m =
      match Instruction.decode chunk.code.toArray m.ip with
      | .ok i =>
        dispatch chunk.constants i.opcode (i.operand.getD 0) { m with ip := m.ip + i.width }
      | .error (.unknown byte) => .error (.invalidOpcode byte) { m with ip := m.ip + 1 }
      | .error (.truncated _) => .error .truncatedInstruction { m with ip := m.ip + 1 }
      | .error .endOfCode => .error .unexpectedEndOfCode m := by
  rw [step_eq_fetch]
  simp only [bind, EStateM.bind, fetch_eq]
  cases Instruction.decode chunk.code.toArray m.ip with
  | ok i => rfl
  | error reason => cases reason <;> rfl

section OnStack

variable {α : Type} {act : EStateM FaultKind Stack α} {m : Machine} {stack : Stack}

theorem onStack_of_ok {a : α} (h : act m.stack = .ok a stack) :
    onStack act m = .ok a { m with stack := stack } := by
  simp only [onStack, h]

theorem onStack_of_error {kind : FaultKind} (h : act m.stack = .error kind stack) :
    onStack act m = .error kind { m with stack := stack } := by
  simp only [onStack, h]

end OnStack

/-- A push fails on a full stack, which it leaves as it is. -/
theorem onStack_push_of_full {m : Machine} (h : m.stack.room ≤ m.stack.size) (value : Value) :
    onStack (Stack.push value) m = .error .stackOverflow m :=
  onStack_of_error (Stack.push_of_full h value)

/-- Below the room a push works, and the machine differs in its stack only. -/
theorem onStack_push_of_room {m : Machine} (h : m.stack.size < m.stack.room) (value : Value) :
    ∃ stack, onStack (Stack.push value) m = .ok () { m with stack := stack } ∧
      stack.values = m.stack.values.push value ∧ m.stack.Becomes stack := by
  obtain ⟨stack, hPush, hValues, hBecomes⟩ := Stack.push_of_room h value
  exact ⟨stack, onStack_of_ok hPush, hValues, hBecomes⟩

theorem onStack_pop_of_none {m : Machine} (h : m.stack.values.back? = none) :
    onStack Stack.pop m = .error .stackUnderflow m :=
  onStack_of_error (Stack.pop_of_none h)

theorem onStack_pop_of_some {m : Machine} {value : Value}
    (h : m.stack.values.back? = some value) :
    ∃ stack, onStack Stack.pop m = .ok value { m with stack := stack } ∧
      stack.values = m.stack.values.pop ∧ m.stack.Becomes stack := by
  obtain ⟨stack, hPop, hValues, hBecomes⟩ := Stack.pop_of_some h
  exact ⟨stack, onStack_of_ok hPop, hValues, hBecomes⟩

end Machine

/-- Where a run stands: the offset of the next instruction, and the values from the top. -/
structure Position where
  ip : Nat
  values : List Value

namespace Machine

/-- A machine in the middle of the run that `start` has begun. It stands at a position, and it has
kept the configuration and the room for values. -/
structure StandsAt (start : Machine) (p : Position) (m : Machine) : Prop where
  stack : start.stack.Becomes m.stack
  traced : m.traced = start.traced
  running : m.halted = false
  ip : m.ip = p.ip
  values : m.stack.values = p.values.reverse.toArray

theorem standsAt_reset (m : Machine) : m.StandsAt ⟨0, []⟩ m.reset :=
  ⟨m.stack.becomes_clear, rfl, rfl, rfl, rfl⟩

namespace StandsAt

variable {start m : Machine} {ip : Nat} {values : List Value}

theorem size_eq {p : Position} (h : start.StandsAt p m) : m.stack.size = p.values.length := by
  simp only [Stack.size, h.values, List.size_toArray, List.length_reverse]

theorem moved (h : start.StandsAt ⟨ip, values⟩ m) (next : Nat) :
    start.StandsAt ⟨next, values⟩ { m with ip := next } :=
  ⟨h.stack, h.traced, h.running, rfl, h.values⟩

/-- The same machine with other values on its stack. -/
theorem with_stack {stack : Stack} {after : List Value} (h : start.StandsAt ⟨ip, values⟩ m)
    (hBecomes : m.stack.Becomes stack) (hValues : stack.values = after.reverse.toArray) :
    start.StandsAt ⟨ip, after⟩ { m with stack := stack } :=
  ⟨h.stack.trans hBecomes, h.traced, h.running, h.ip, hValues⟩

/-- A machine standing at a full stack overflows and is left as it was. -/
theorem push_of_full (h : start.StandsAt ⟨ip, values⟩ m)
    (hFull : start.stack.room ≤ values.length) (value : Value) :
    onStack (Stack.push value) m = .error .stackOverflow m := by
  apply onStack_push_of_full
  rw [h.stack.room, h.size_eq]
  exact hFull

/-- With room it comes to stand above the new value. -/
theorem push_of_room (h : start.StandsAt ⟨ip, values⟩ m)
    (hRoom : values.length < start.stack.room) (value : Value) :
    ∃ next, onStack (Stack.push value) m = .ok () next ∧
      start.StandsAt ⟨ip, value :: values⟩ next := by
  have hFits : m.stack.size < m.stack.room := by
    rw [h.stack.room, h.size_eq]
    exact hRoom
  obtain ⟨stack, hPush, hValues, hBecomes⟩ := onStack_push_of_room hFits value
  refine ⟨_, hPush, h.with_stack hBecomes ?_⟩
  rw [hValues, h.values, List.push_toArray, List.reverse_cons]

theorem pop_nil (h : start.StandsAt ⟨ip, []⟩ m) :
    onStack Stack.pop m = .error .stackUnderflow m := by
  apply onStack_pop_of_none
  rw [h.values]
  rfl

/-- A pop takes the value the position has on top. -/
theorem pop_cons {value : Value} (h : start.StandsAt ⟨ip, value :: values⟩ m) :
    ∃ next, onStack Stack.pop m = .ok value next ∧ start.StandsAt ⟨ip, values⟩ next := by
  have hTop : m.stack.values.back? = some value := by
    rw [h.values]
    simp
  obtain ⟨stack, hPop, hValues, hBecomes⟩ := onStack_pop_of_some hTop
  refine ⟨_, hPop, h.with_stack hBecomes ?_⟩
  rw [hValues, h.values]
  simp

variable (op : Float → Float) (op₂ : Float → Float → Float)

theorem unary_nil (h : start.StandsAt ⟨ip, []⟩ m) :
    unary op m = .error .stackUnderflow m := by
  simp only [unary, bind, EStateM.bind, h.pop_nil]

/-- With an operand at hand, the rest of the work is one push. -/
theorem unary_cons {x : Value} (h : start.StandsAt ⟨ip, x :: values⟩ m) :
    ∃ popped, start.StandsAt ⟨ip, values⟩ popped ∧
      unary op m = onStack (Stack.push (.number (op x.toFloat))) popped := by
  obtain ⟨popped, hPop, hPopped⟩ := h.pop_cons
  refine ⟨popped, hPopped, ?_⟩
  simp only [unary, bind, EStateM.bind, hPop]

/-- Two pops find their stack empty, at once or behind the only value. -/
theorem binary_nil (h : start.StandsAt ⟨ip, []⟩ m) :
    binary op₂ m = .error .stackUnderflow m := by
  simp only [binary, bind, EStateM.bind, h.pop_nil]

/-- The right operand has been taken when the left one turns out to be missing. -/
theorem binary_single {y : Value} (h : start.StandsAt ⟨ip, [y]⟩ m) :
    ∃ popped, start.StandsAt ⟨ip, []⟩ popped ∧ binary op₂ m = .error .stackUnderflow popped := by
  obtain ⟨popped, hPop, hPopped⟩ := h.pop_cons
  refine ⟨popped, hPopped, ?_⟩
  simp only [binary, bind, EStateM.bind, hPop, hPopped.pop_nil]

/-- With both operands at hand, the rest of the work is one push. -/
theorem binary_cons {x y : Value} (h : start.StandsAt ⟨ip, y :: x :: values⟩ m) :
    ∃ popped, start.StandsAt ⟨ip, values⟩ popped ∧
      binary op₂ m = onStack (Stack.push (.number (op₂ x.toFloat y.toFloat))) popped := by
  obtain ⟨middle, hRight, hMiddle⟩ := h.pop_cons
  obtain ⟨popped, hLeft, hPopped⟩ := hMiddle.pop_cons
  refine ⟨popped, hPopped, ?_⟩
  simp only [binary, bind, EStateM.bind, hRight, hLeft]

end StandsAt

end Machine

end StackMachine
