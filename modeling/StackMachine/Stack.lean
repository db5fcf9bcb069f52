import StackMachine.Fault
import StackMachine.Value

/-!
The operand stack: values with a limit on their number. The first slots are there from the start.
Deeper stacks ask an allocator for more of them, and a stack keeps the slots that it has got.
-/
namespace StackMachine

/-- Values from the bottom to the top, at most `limit` of them, and the number of slots held for
them. The slots come from `heap`. -/
structure Stack where
  values : Array Value
  limit : Nat
  heap : Allocator
  capacity : Nat
  size_le_capacity : values.size ≤ capacity

namespace Stack

/-- The most slots that are there from the start. -/
def firstCapacity : Nat := 256

def empty (limit : Nat) (heap : Allocator := .standard) : Stack where
  values := #[]
  limit := limit
  heap := heap
  capacity := min limit firstCapacity
  size_le_capacity := Nat.zero_le _

def size (s : Stack) : Nat := s.values.size

def isEmpty (s : Stack) : Bool := s.values.isEmpty

def top? (s : Stack) : Option Value := s.values.back?

def growCapacity (capacity : Nat) : Nat := max 4 (2 * capacity)

/-- Growing leaves room for at least one more value. -/
theorem lt_growCapacity (capacity : Nat) : capacity < growCapacity capacity := by
  unfold growCapacity
  omega

/-- The room for a value that is pushed. -/
theorem size_push_le {values : Array Value} {capacity : Nat} (h : values.size < capacity)
    (value : Value) : (values.push value).size ≤ capacity := by
  rw [Array.size_push]
  exact h

/-- The room for the values that a pop leaves. -/
theorem size_pop_le {values : Array Value} {capacity : Nat} (h : values.size ≤ capacity) :
    values.pop.size ≤ capacity := by
  rw [Array.size_pop]
  exact Nat.le_trans (Nat.sub_le _ _) h

/-- Put a value on top. A stack that holds `limit` values overflows, and so does a stack without a
free slot whose growth is refused. -/
def push (value : Value) : EStateM FaultKind Stack Unit :=
  fun ⟨values, limit, heap, capacity, fits⟩ =>
    if limit ≤ values.size then .error .stackOverflow ⟨values, limit, heap, capacity, fits⟩
    else if free : values.size < capacity then
      .ok () ⟨values.push value, limit, heap, capacity, size_push_le free value⟩
    else if heap.grants (growCapacity capacity * SlotSize.bytes Value) then
      let free := Nat.lt_of_le_of_lt fits (lt_growCapacity capacity)
      .ok () ⟨values.push value, limit, heap, growCapacity capacity, size_push_le free value⟩
    else .error .stackOverflow ⟨values, limit, heap, capacity, fits⟩

/-- Take the value on top; an empty stack underflows. -/
def pop : EStateM FaultKind Stack Value := fun ⟨values, limit, heap, capacity, fits⟩ =>
  match values.back? with
  | none => .error .stackUnderflow ⟨values, limit, heap, capacity, fits⟩
  | some value => .ok value ⟨values.pop, limit, heap, capacity, size_pop_le fits⟩

def peek (s : Stack) : Except FaultKind Value :=
  match s.top? with
  | none => .error .stackUnderflow
  | some value => .ok value

/-- Drop all values. The slots are kept. -/
def clear (s : Stack) : Stack := { s with values := #[], size_le_capacity := Nat.zero_le _ }

end Stack

end StackMachine
