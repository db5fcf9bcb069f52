import StackMachine.Proofs.Rows
import StackMachine.Proofs.Stepping

/-! A second semantics of programs, by the rows of their listing. It folds over rows that are
already decoded, so it knows no bytes, no pool and no instruction pointer. Every step of the
machine is related to the effect of one row. -/
namespace StackMachine

/-- What a row does to the values on the stack, which are listed from the top. -/
inductive Effect where
  | continues (values : List Value)
  /-- The program ends, and the values stay. -/
  | returns
  | faults (kind : FaultKind)

namespace Effect

def push (limit : Nat) (value : Value) (values : List Value) : Effect :=
  if limit ≤ values.length then .faults .stackOverflow else .continues (value :: values)

def unary (limit : Nat) (op : Float → Float) : List Value → Effect
  | x :: rest => push limit (.number (op x.toFloat)) rest
  | [] => .faults .stackUnderflow

/-- The upper value is the right operand. -/
def binary (limit : Nat) (op : Float → Float → Float) : List Value → Effect
  | y :: x :: rest => push limit (.number (op x.toFloat y.toFloat)) rest
  | _ => .faults .stackUnderflow

end Effect

/-- The effect of an opcode that has a row without a constant. In a listing this is never a
load; a load without its index would be cut off. -/
def Opcode.effect (limit : Nat) : Opcode → List Value → Effect
  | .ret, _ => .returns
  | .negate, values => .unary limit (fun x => -x) values
  | .add, values => .binary limit (fun x y => x + y) values
  | .subtract, values => .binary limit (fun x y => x - y) values
  | .multiply, values => .binary limit (fun x y => x * y) values
  | .divide, values => .binary limit (fun x y => x / y) values
  | .constant, _ | .constantLong, _ => .faults .truncatedInstruction

def RowContent.effect (limit : Nat) : RowContent → List Value → Effect
  | .simple opcode, values => opcode.effect limit values
  | .constant _ _ (some value), values => .push limit value values
  | .constant _ index none, _ => .faults (.invalidConstant index)
  | .truncated _, _ => .faults .truncatedInstruction
  | .unknown byte, _ => .faults (.invalidOpcode byte)

/-- Where the pointer is left by a fault: behind the whole instruction if it was executed, and
otherwise behind its opcode. -/
def Row.pointerAt (row : Row) : FaultKind → Nat
  | .invalidConstant _ | .stackOverflow => row.next
  | _ => row.offset + 1

/-- The line column does not influence the pointer. -/
theorem Row.pointerAt_of_line (row : Row) (mark : LineMark) (kind : FaultKind) :
    Row.pointerAt { row with line := mark } kind = row.pointerAt kind := by
  cases kind <;> rfl

/-- How a program ends: the offset and kind of the fault that stops it, if one does, the final
pointer, and the values that are left, from the top. -/
structure Ending where
  fault : Option (Nat × FaultKind)
  pointer : Nat
  values : List Value

/-- Carry out the effects of rows one after the other. Code that is out of rows has ended
without a return, and a fault drops all values. -/
def interpret (limit size : Nat) : List Row → List Value → Ending
  | [], _ => ⟨some (size, .unexpectedEndOfCode), size, []⟩
  | row :: rest, values =>
    match row.content.effect limit values with
    | .continues values => interpret limit size rest values
    | .returns => ⟨none, row.next, values⟩
    | .faults kind => ⟨some (row.offset, kind), row.pointerAt kind, []⟩

namespace Machine

/-- The result of a step on the instruction of a row, in the run that `start` has begun. What a
failing step leaves on the stack is not specified; a run drops it. -/
def StepResult (start : Machine) (row : Row) (values : List Value)
    (result : EStateM.Result FaultKind Machine Unit) : Effect → Prop
  | .continues after => ∃ next, result = .ok () next ∧ start.StandsAt ⟨row.next, after⟩ next
  | .returns =>
    ∃ next, result = .ok () { next with halted := true } ∧ start.StandsAt ⟨row.next, values⟩ next
  | .faults kind =>
    ∃ stopped left, result = .error kind stopped ∧
      start.StandsAt ⟨row.pointerAt kind, left⟩ stopped

variable {start m : Machine} {row : Row} {values : List Value}

/-- A push of the machine is the push of the row, fault and pointer included. -/
theorem stepResult_push {before : List Value} (h : start.StandsAt ⟨row.next, values⟩ m)
    (value : Value) :
    StepResult start row before (onStack (Stack.push value) m)
      (.push start.stack.room value values) := by
  rw [Effect.push]
  by_cases hFull : start.stack.room ≤ values.length
  · rw [if_pos hFull]
    exact ⟨m, values, h.push_of_full hFull value, h⟩
  · rw [if_neg hFull]
    exact h.push_of_room (Nat.lt_of_not_le hFull) value

theorem stepResult_unary (h : start.StandsAt ⟨row.next, values⟩ m)
    (hNext : row.next = row.offset + 1) (op : Float → Float) :
    StepResult start row values (unary op m) (.unary start.stack.room op values) := by
  cases values with
  | nil =>
      rw [hNext] at h
      exact ⟨m, [], h.unary_nil op, h⟩
  | cons x rest =>
      obtain ⟨popped, hPopped, hUnary⟩ := h.unary_cons op
      rw [hUnary]
      exact stepResult_push hPopped _

/-- An operator of two operands acts on the machine as on the row. -/
theorem stepResult_binary (h : start.StandsAt ⟨row.next, values⟩ m)
    (hNext : row.next = row.offset + 1) (op : Float → Float → Float) :
    StepResult start row values (binary op m) (.binary start.stack.room op values) := by
  match values with
  | [] =>
      rw [hNext] at h
      exact ⟨m, [], h.binary_nil op, h⟩
  | [y] =>
      rw [hNext] at h
      obtain ⟨popped, hPopped, hBinary⟩ := h.binary_single op
      exact ⟨popped, [], hBinary, hPopped⟩
  | y :: x :: rest =>
      obtain ⟨popped, hPopped, hBinary⟩ := h.binary_cons op
      rw [hBinary]
      exact stepResult_push hPopped _

/-- Executing an opcode without operand has the effect of its row. -/
theorem stepResult_simple {opcode : Opcode} (h : start.StandsAt ⟨row.next, values⟩ m)
    (hWidth : opcode.operandWidth = 0) (hNext : row.next = row.offset + 1)
    (constants : ConstantPool) (operand : UInt32) :
    StepResult start row values (dispatch constants opcode operand m)
      (opcode.effect start.stack.room values) := by
  cases opcode with
  | constant => cases hWidth
  | constantLong => cases hWidth
  | ret => exact ⟨m, rfl, h⟩
  | negate => exact stepResult_unary h hNext _
  | add => exact stepResult_binary h hNext _
  | subtract => exact stepResult_binary h hNext _
  | multiply => exact stepResult_binary h hNext _
  | divide => exact stepResult_binary h hNext _

/-- Executing a load has the effect of its row, which carries the constant if there is one. -/
theorem stepResult_load {opcode : Opcode} (h : start.StandsAt ⟨row.next, values⟩ m)
    (hWidth : opcode.operandWidth ≠ 0) (constants : ConstantPool) (operand : UInt32) :
    StepResult start row values (dispatch constants opcode operand m)
      (RowContent.effect start.stack.room
        (.constant opcode operand.toNat (constants.get? operand.toNat)) values) := by
  have hLoad : dispatch constants opcode operand = load constants operand.toNat := by
    cases opcode with
    | constant => rfl
    | constantLong => rfl
    | _ => exact absurd rfl hWidth
  rw [hLoad, load]
  cases constants.get? operand.toNat with
  | none => exact ⟨m, values, rfl, h⟩
  | some value => exact stepResult_push h value

/-- Every step on an instruction of the listing has the effect of its row. -/
theorem stepResult_step {chunk : Chunk} {ip : Nat} (hRow : Row.at? chunk ip = some row)
    (h : start.StandsAt ⟨ip, values⟩ m) :
    StepResult start row values (step chunk m) (row.content.effect start.stack.room values) := by
  have hStep := step_eq chunk m
  rw [h.ip] at hStep
  rcases Row.at?_eq_some_iff.mp hRow with
    ⟨i, hDecode, rfl⟩ | ⟨byte, hDecode, rfl⟩ | ⟨opcode, hDecode, rfl⟩
  · obtain ⟨opcode, operand⟩ := i
    rw [hDecode] at hStep
    rw [hStep]
    have hForm := (Instruction.carries_of_decode hDecode).1
    cases operand with
    | none =>
        have hNext : ip + Instruction.width ⟨opcode, none⟩ = ip + 1 := by
          rw [Instruction.width, show opcode.operandWidth = 0 from hForm]
        exact stepResult_simple (h.moved _) hForm hNext chunk.constants _
    | some operand => exact stepResult_load (h.moved _) hForm.1 chunk.constants operand
  · rw [hDecode] at hStep
    exact ⟨_, values, hStep, h.moved _⟩
  · rw [hDecode] at hStep
    exact ⟨_, values, hStep, h.moved _⟩

/-- The step is determined as soon as the effect of the row is known. -/
theorem step_of_effect {chunk : Chunk} {ip : Nat} {effect : Effect}
    (h : start.StandsAt ⟨ip, values⟩ m) (hRow : Row.at? chunk ip = some row)
    (hEffect : row.content.effect start.stack.room values = effect) :
    StepResult start row values (step chunk m) effect := by
  rw [← hEffect]
  exact stepResult_step hRow h

/-- Where the listing has no row, the code has ended. -/
theorem step_of_no_row {chunk : Chunk} {ip : Nat} (h : start.StandsAt ⟨ip, values⟩ m)
    (hRow : Row.at? chunk ip = none) :
    step chunk m = .error .unexpectedEndOfCode m := by
  have hStep := step_eq chunk m
  rw [h.ip, Row.at?_eq_none_iff.mp hRow] at hStep
  exact hStep

end Machine

end StackMachine
