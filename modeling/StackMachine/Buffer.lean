import StackMachine.Allocator
import StackMachine.Fault
import StackMachine.Word

/-!
Growing buffers. A buffer is a list of elements that is only appended to, with a capacity that
doubles when the elements outgrow it. Growth asks an allocator and may fail; a failed call leaves
the buffer as it was.
-/
namespace StackMachine

/-- A step that builds part of a program and may fail. The state reached stays after a failure. -/
abbrev Build (σ α : Type) := EStateM BuildError σ α

/-- Elements in the order they were appended, and the number of slots held for them. -/
structure Buffer (α : Type) where
  items : Array α
  capacity : Nat

namespace Buffer

variable {α : Type}

def empty : Buffer α := ⟨#[], 0⟩

instance : Inhabited (Buffer α) := ⟨empty⟩

/-- Equal buffers hold equal elements in equally many slots. -/
instance [BEq α] : BEq (Buffer α) where
  beq a b := a.items == b.items && a.capacity == b.capacity

def size (b : Buffer α) : Nat := b.items.size

def isEmpty (b : Buffer α) : Bool := b.items.isEmpty

def get? (b : Buffer α) (index : Nat) : Option α := b.items[index]?

instance : GetElem (Buffer α) Nat α (fun b index => index < b.size) where
  getElem b index h :=
    have inside : index < b.items.size := h
    b.items[index]

def toArray (b : Buffer α) : Array α := b.items

def toList (b : Buffer α) : List α := b.items.toList

instance {m : Type → Type} [Monad m] : ForIn m (Buffer α) α where
  forIn b := forIn b.items

def leastCapacity : Nat := 8

/-- The capacity after the next growth, or `none` if no word can hold it. -/
def growCapacity (capacity : Nat) : Option Nat :=
  if capacity < leastCapacity then some leastCapacity
  else if 2 * capacity ≤ maxWord then some (2 * capacity)
  else none

/-- A larger capacity that fits a machine word is strictly larger. -/
theorem lt_of_growCapacity {capacity larger : Nat} (h : growCapacity capacity = some larger) :
    capacity < larger := by
  unfold growCapacity leastCapacity at h
  repeat' split at h
  all_goals cases h
  all_goals omega

/-- The first capacity from `capacity` on, growing step by step, with room for `needed`. -/
def capacityFor (needed capacity : Nat) : Option Nat :=
  if needed ≤ capacity then some capacity
  else
    match _ : growCapacity capacity with
    | some larger => capacityFor needed larger
    | none => none
termination_by needed - capacity
decreasing_by
  have := lt_of_growCapacity ‹growCapacity capacity = some larger›
  omega

variable [SlotSize α]

/-- Make room for `additional` more elements. A failure names the capacity that was refused, or
the largest word if no word can hold the capacity. -/
def reserve (heap : Allocator) (additional : Nat) : Build (Buffer α) Unit := fun b =>
  let needed := b.items.size + additional
  if needed ≤ b.capacity then .ok () b
  else
    match capacityFor needed b.capacity with
    | none => .error (.outOfMemory maxWord) b
    | some requested =>
      if heap.grants (requested * SlotSize.bytes α) then .ok () { b with capacity := requested }
      else .error (.outOfMemory requested) b

def reserveOne (heap : Allocator) : Build (Buffer α) Unit :=
  reserve heap 1

/-- Put an element into a slot that is there, returning its index. -/
def push (x : α) : Build (Buffer α) Nat := fun ⟨items, capacity⟩ =>
  .ok items.size ⟨items.push x, capacity⟩

def append (heap : Allocator) (x : α) : Build (Buffer α) Nat := do
  reserveOne heap
  push x

def release : Build (Buffer α) Unit := fun _ =>
  .ok () empty

end Buffer

end StackMachine
