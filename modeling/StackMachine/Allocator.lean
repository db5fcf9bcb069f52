/-!
Who decides whether a buffer or a stack may grow.
-/
namespace StackMachine

/-- Grants or refuses storage of a size in bytes. -/
structure Allocator where
  grants : Nat → Bool

/-- Grants what a 48-bit address space can hold. -/
def Allocator.standard : Allocator where
  grants bytes := decide (bytes < 281474976710656)

/-- How many bytes a slot for an element takes. -/
class SlotSize (α : Type) where
  bytes : Nat

instance : SlotSize UInt8 := ⟨1⟩

instance : SlotSize Nat := ⟨8⟩

end StackMachine
