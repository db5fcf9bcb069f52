import Mathlib.Algebra.GroupWithZero.Nat
import Mathlib.Order.Bounds.Basic
import StackMachine.Proofs.Building

/-! Capacities of buffers. Growth doubles from eight, so it passes through eight times the powers
of two. Beginning without storage, or with a capacity of that kind, it stops at the least one
that has the room it is asked for. -/
namespace StackMachine.Buffer

/-- A capacity that growth passes through. -/
def Grown (capacity : Nat) : Prop := ∃ k, capacity = leastCapacity * 2 ^ k

theorem Grown.leastCapacity_le {capacity : Nat} (h : Grown capacity) :
    leastCapacity ≤ capacity := by
  obtain ⟨k, rfl⟩ := h
  exact Nat.le_mul_of_pos_right leastCapacity (Nat.two_pow_pos k)

theorem Grown.double {capacity : Nat} (h : Grown capacity) : Grown (2 * capacity) := by
  obtain ⟨k, rfl⟩ := h
  exact ⟨k + 1, by rw [Nat.pow_succ, Nat.mul_comm 2, Nat.mul_assoc]⟩

/-- Between a capacity and its double there is no other one. -/
theorem Grown.double_le {small large : Nat} (hSmall : Grown small) (hLarge : Grown large)
    (hLt : small < large) : 2 * small ≤ large := by
  obtain ⟨j, rfl⟩ := hSmall
  obtain ⟨k, rfl⟩ := hLarge
  have hPower : 2 ^ j < 2 ^ k := Nat.lt_of_mul_lt_mul_left hLt
  have hNext : 2 ^ (j + 1) ≤ 2 ^ k :=
    Nat.pow_le_pow_right (by decide) ((Nat.pow_lt_pow_iff_right (by decide)).mp hPower)
  calc 2 * (leastCapacity * 2 ^ j)
      = leastCapacity * 2 ^ (j + 1) := by rw [Nat.pow_succ, Nat.mul_comm 2, Nat.mul_assoc]
    _ ≤ leastCapacity * 2 ^ k := Nat.mul_le_mul_left leastCapacity hNext

/-- One growth step goes to the next capacity. -/
theorem growCapacity_isLeast {capacity larger : Nat} (hStart : capacity = 0 ∨ Grown capacity)
    (h : growCapacity capacity = some larger) : IsLeast {c | Grown c ∧ capacity < c} larger := by
  have hLarger := lt_of_growCapacity h
  unfold growCapacity at h
  split at h
  · cases h
    exact ⟨⟨⟨0, rfl⟩, hLarger⟩, fun c hc => hc.1.leastCapacity_le⟩
  · rename_i hLeast
    split at h
    · cases h
      have hGrown : Grown capacity := by
        rcases hStart with rfl | hGrown
        · exact absurd (by decide) hLeast
        · exact hGrown
      exact ⟨⟨hGrown.double, hLarger⟩, fun c hc => hGrown.double_le hc.1 hc.2⟩
    · cases h

/-- Repeated growth stops at the least capacity with room, if it passes none before its start. -/
theorem capacityFor_isLeast {needed capacity larger : Nat} (hNeeded : 0 < needed)
    (hStart : capacity = 0 ∨ Grown capacity)
    (hBelow : ∀ c, Grown c → needed ≤ c → capacity ≤ c)
    (h : capacityFor needed capacity = some larger) :
    IsLeast {c | Grown c ∧ needed ≤ c} larger := by
  fun_induction capacityFor needed capacity with
  | case1 room hRoom =>
      cases h
      have hGrown : Grown larger := hStart.resolve_left (by omega)
      exact ⟨⟨hGrown, hRoom⟩, fun c hc => hBelow c hc.1 hc.2⟩
  | case2 capacity hShort next hGrow ih =>
      obtain ⟨⟨hGrown, -⟩, hLeast⟩ := growCapacity_isLeast hStart hGrow
      refine ih (.inr hGrown) (fun c hc hRoom => ?_) h
      exact hLeast ⟨hc, Nat.lt_of_lt_of_le (Nat.lt_of_not_le hShort) hRoom⟩
  | case3 capacity hShort hGrow => cases h

/-- No capacity for nothing, and otherwise the least one with room for so many elements. -/
def Snug (needed capacity : Nat) : Prop :=
  if needed = 0 then capacity = 0 else IsLeast {c | Grown c ∧ needed ≤ c} capacity

namespace Snug

variable {needed capacity : Nat}

/-- A snug capacity is a rung of the ladder, or nothing was needed. -/
theorem zero_or_grown (h : Snug needed capacity) : capacity = 0 ∨ Grown capacity := by
  unfold Snug at h
  split at h
  · exact .inl h
  · exact .inr h.1.1

theorem le (h : Snug needed capacity) : needed ≤ capacity := by
  unfold Snug at h
  split at h
  · omega
  · exact h.1.2

/-- The number of elements determines the capacity. -/
theorem unique {other : Nat} (h : Snug needed capacity) (h' : Snug needed other) :
    capacity = other := by
  unfold Snug at h h'
  split at h
  · rename_i hZero
    rw [if_pos hZero] at h'
    exact h.trans h'.symm
  · rename_i hSome
    rw [if_neg hSome] at h'
    exact IsLeast.unique h h'

/-- More elements that there is room for do not change the capacity. -/
theorem of_room {more : Nat} (h : Snug needed capacity) (hMore : needed ≤ more)
    (hRoom : more ≤ capacity) : Snug more capacity := by
  unfold Snug at h ⊢
  split at h
  · rw [if_pos (by omega)]
    exact h
  · rw [if_neg (by omega)]
    exact ⟨⟨h.1.1, hRoom⟩, fun c hc => h.2 ⟨hc.1, Nat.le_trans hMore hc.2⟩⟩

/-- Doubling from a rung that is too small stops at the first that is not. -/
theorem of_capacityFor {start : Nat} (hStart : start = 0 ∨ Grown start) (hShort : start < needed)
    (h : capacityFor needed start = some capacity) : Snug needed capacity := by
  have hNeeded : 0 < needed := Nat.zero_lt_of_lt hShort
  unfold Snug
  rw [if_neg (Nat.ne_of_gt hNeeded)]
  refine capacityFor_isLeast hNeeded hStart (fun c _ hRoom => ?_) h
  exact Nat.le_of_lt (Nat.lt_of_lt_of_le hShort hRoom)

end Snug

variable {α : Type}

/-- The capacity of a buffer in which nothing has been reserved for elements to come. -/
def Tight (b : Buffer α) : Prop := Snug b.size b.capacity

variable [SlotSize α]

/-- A reservation with room changes nothing. Without room it either moves to the least capacity
that has it, or it is refused and changes nothing. -/
theorem reserve_growth (heap : Allocator) (additional : Nat) {b : Buffer α}
    (hStart : b.capacity = 0 ∨ Grown b.capacity) :
    (b.size + additional ≤ b.capacity ∧ reserve heap additional b = .ok () b) ∨
      b.capacity < b.size + additional ∧
        ((∃ capacity, reserve heap additional b = .ok () ⟨b.items, capacity⟩ ∧
          Snug (b.size + additional) capacity) ∨
        ∃ requested, reserve heap additional b = .error (.outOfMemory requested) b) := by
  rcases Nat.lt_or_ge b.capacity (b.size + additional) with hShort | hRoom
  · refine .inr ⟨hShort, ?_⟩
    have hNeeded : ¬b.items.size + additional ≤ b.capacity := Nat.not_le_of_lt hShort
    unfold reserve
    simp only [hNeeded, if_false]
    cases hCapacity : capacityFor (b.items.size + additional) b.capacity with
    | none => exact .inr ⟨maxWord, rfl⟩
    | some requested =>
        by_cases hGranted : heap.grants (requested * SlotSize.bytes α) = true
        · simp only [if_pos hGranted]
          exact .inl ⟨requested, rfl, .of_capacityFor hStart hShort hCapacity⟩
        · simp only [if_neg hGranted]
          exact .inr ⟨requested, rfl⟩
  · exact .inl ⟨hRoom, reserve_of_room hRoom heap⟩

/-- Where nothing has been reserved before, a reservation gives the least capacity with room. -/
theorem reserve_tight (heap : Allocator) (additional : Nat) {b : Buffer α} (h : b.Tight) :
    (∃ capacity, reserve heap additional b = .ok () ⟨b.items, capacity⟩ ∧
      Snug (b.size + additional) capacity) ∨
    ∃ requested, reserve heap additional b = .error (.outOfMemory requested) b := by
  rcases reserve_growth heap additional h.zero_or_grown with ⟨hRoom, hKept⟩ | ⟨-, hGrowth⟩
  · exact .inl ⟨b.capacity, hKept, h.of_room (Nat.le_add_right _ _) hRoom⟩
  · exact hGrowth

end StackMachine.Buffer
