import StackMachine.Stack

/-! The room of a stack: how many values it can come to hold. A growth that is refused is met like
a lower limit, and pushing and popping do not change where it is met. -/
namespace StackMachine

def Allocator.refusing : Allocator where
  grants _ := false

namespace Stack

/-- How far a stack with `capacity` slots can grow, up to its limit or to the first growth that is
refused. -/
def roomFrom (heap : Allocator) (limit capacity : Nat) : Nat :=
  if limit ≤ capacity then limit
  else if heap.grants (growCapacity capacity * SlotSize.bytes Value) then
    roomFrom heap limit (growCapacity capacity)
  else capacity
termination_by limit - capacity
decreasing_by
  have := lt_growCapacity capacity
  omega

/-- How many values a stack can come to hold. -/
def room (s : Stack) : Nat := roomFrom s.heap s.limit s.capacity

/-- Every growth is granted that the stack may ask for until it holds `size` values, or as many as
its limit allows. -/
def CanHold (size : Nat) (s : Stack) : Prop :=
  ∀ capacity < min size s.limit, s.capacity ≤ capacity →
    s.heap.grants (growCapacity capacity * SlotSize.bytes Value) = true

instance (size : Nat) (s : Stack) : Decidable (s.CanHold size) :=
  inferInstanceAs (Decidable (∀ capacity < min size s.limit, s.capacity ≤ capacity →
    s.heap.grants (growCapacity capacity * SlotSize.bytes Value) = true))

section RoomFrom

variable {heap : Allocator} {limit capacity : Nat}

/-- A growth that is granted leaves the room as it is. -/
theorem roomFrom_of_granted (h : capacity < limit)
    (hGranted : heap.grants (growCapacity capacity * SlotSize.bytes Value) = true) :
    roomFrom heap limit capacity = roomFrom heap limit (growCapacity capacity) := by
  rw [roomFrom, if_neg (Nat.not_le_of_lt h), if_pos hGranted]

/-- A refused growth leaves the capacity as the room. -/
theorem roomFrom_of_refused (h : capacity < limit)
    (hRefused : heap.grants (growCapacity capacity * SlotSize.bytes Value) = false) :
    roomFrom heap limit capacity = capacity := by
  rw [roomFrom, if_neg (Nat.not_le_of_lt h), if_neg (Bool.eq_false_iff.mp hRefused)]

theorem roomFrom_le_limit (heap : Allocator) (limit capacity : Nat) :
    roomFrom heap limit capacity ≤ limit := by
  fun_induction roomFrom heap limit capacity with
  | case1 => exact Nat.le_refl limit
  | case2 capacity _ _ ih => exact ih
  | case3 capacity hBelow => exact Nat.le_of_not_le hBelow

/-- The slots that are held already are there to be filled. -/
theorem min_capacity_le_roomFrom (heap : Allocator) (limit capacity : Nat) :
    min limit capacity ≤ roomFrom heap limit capacity := by
  fun_induction roomFrom heap limit capacity with
  | case1 => exact Nat.min_le_left _ _
  | case2 capacity _ _ ih =>
      have hGrown := lt_growCapacity capacity
      omega
  | case3 capacity => exact Nat.min_le_right _ _

/-- Only a growth that is refused keeps a stack below its limit. -/
theorem refused_of_roomFrom_lt (h : roomFrom heap limit capacity < limit) :
    heap.grants (growCapacity (roomFrom heap limit capacity) * SlotSize.bytes Value) = false := by
  fun_induction roomFrom heap limit capacity with
  | case1 => exact absurd h (Nat.lt_irrefl limit)
  | case2 capacity _ _ ih => exact ih h
  | case3 capacity _ hRefused => exact Bool.eq_false_iff.mpr hRefused

/-- Growth that is granted up to a size leaves room for it, within the limit. -/
theorem min_le_roomFrom {size : Nat}
    (h : ∀ larger < min size limit, capacity ≤ larger →
      heap.grants (growCapacity larger * SlotSize.bytes Value) = true) :
    min size limit ≤ roomFrom heap limit capacity := by
  fun_induction roomFrom heap limit capacity with
  | case1 => exact Nat.min_le_right _ _
  | case2 capacity _ _ ih =>
      refine ih fun larger hSize hLarger => h larger hSize ?_
      exact Nat.le_trans (Nat.le_of_lt (lt_growCapacity capacity)) hLarger
  | case3 capacity _ hRefused =>
      refine Nat.le_of_not_lt fun hSize => hRefused ?_
      exact h capacity hSize (Nat.le_refl capacity)

end RoomFrom

theorem room_le_limit (s : Stack) : s.room ≤ s.limit :=
  roomFrom_le_limit s.heap s.limit s.capacity

theorem min_capacity_le_room (s : Stack) : min s.limit s.capacity ≤ s.room :=
  min_capacity_le_roomFrom s.heap s.limit s.capacity

/-- Within its limit, a stack has room for the values that it holds. -/
theorem size_le_room {s : Stack} (h : s.size ≤ s.limit) : s.size ≤ s.room :=
  Nat.le_trans (Nat.le_min.mpr ⟨h, s.size_le_capacity⟩) s.min_capacity_le_room

/-- Only a growth that is refused keeps a stack below its limit. -/
theorem refused_of_room_lt {s : Stack} (h : s.room < s.limit) :
    s.heap.grants (growCapacity s.room * SlotSize.bytes Value) = false :=
  refused_of_roomFrom_lt h

/-- A stack that holds all its slots from the start asks for nothing. -/
theorem canHold_of_limit_le {s : Stack} (h : s.limit ≤ s.capacity) (size : Nat) :
    s.CanHold size := by
  intro capacity hSize hHeld
  omega

/-- Nothing is asked for as long as the slots that are there from the start are enough. -/
theorem canHold_empty {size : Nat} (h : size ≤ firstCapacity) (limit : Nat) (heap : Allocator) :
    (empty limit heap).CanHold size := by
  intro capacity hSize hHeld
  change capacity < min size limit at hSize
  change min limit firstCapacity ≤ capacity at hHeld
  omega

section CanHold

variable {s : Stack} {size : Nat} (h : s.CanHold size)

include h

/-- A stack that can hold a size has room for it, within the limit. -/
theorem CanHold.min_le_room : min size s.limit ≤ s.room := min_le_roomFrom h

/-- With growth granted there is room for what the limit allows. -/
theorem CanHold.le_room (hLimit : size ≤ s.limit) : size ≤ s.room := by
  have hRoom := h.min_le_room
  rwa [Nat.min_eq_left hLimit] at hRoom

/-- With growth granted beyond the limit, it is the limit that is met. -/
theorem CanHold.room_eq (hLimit : s.limit ≤ size) : s.room = s.limit := by
  have hRoom := h.min_le_room
  rw [Nat.min_eq_right hLimit] at hRoom
  exact Nat.le_antisymm s.room_le_limit hRoom

end CanHold

/-- There is room for one value more if the limit allows it and the slot for it is there or
granted. -/
theorem size_lt_room_iff {s : Stack} :
    s.size < s.room ↔ s.size < s.limit ∧ s.CanHold (s.size + 1) := by
  constructor
  · intro hRoom
    refine ⟨Nat.lt_of_lt_of_le hRoom s.room_le_limit, fun capacity hSize hHeld => ?_⟩
    have hFits : s.size ≤ s.capacity := s.size_le_capacity
    obtain rfl : capacity = s.capacity := by omega
    refine Bool.of_not_eq_false fun hRefused => ?_
    rw [room, roomFrom_of_refused (by omega) hRefused] at hRoom
    omega
  · rintro ⟨hLimit, hGranted⟩
    exact hGranted.le_room hLimit

/-- What pushing and popping keep of a stack. Only slots may have been added. -/
structure Becomes (s next : Stack) : Prop where
  limit : next.limit = s.limit
  heap : next.heap = s.heap
  room : next.room = s.room
  capacity : s.capacity ≤ next.capacity

theorem Becomes.trans {s middle next : Stack} (h : s.Becomes middle) (h' : middle.Becomes next) :
    s.Becomes next where
  limit := h'.limit.trans h.limit
  heap := h'.heap.trans h.heap
  room := h'.room.trans h.room
  capacity := Nat.le_trans h.capacity h'.capacity

theorem becomes_clear (s : Stack) : s.Becomes s.clear := ⟨rfl, rfl, rfl, Nat.le_refl s.capacity⟩

/-- A full stack stays as it is. -/
theorem push_of_full {s : Stack} (h : s.room ≤ s.size) (value : Value) :
    push value s = .error .stackOverflow s := by
  obtain ⟨values, limit, heap, capacity, fits⟩ := s
  change roomFrom heap limit capacity ≤ values.size at h
  have hHeld := min_capacity_le_roomFrom heap limit capacity
  unfold push
  dsimp only
  by_cases hLimit : limit ≤ values.size
  · rw [if_pos hLimit]
  · have hFilled : ¬values.size < capacity := by omega
    have hRefused : ¬heap.grants (growCapacity capacity * SlotSize.bytes Value) = true := by
      intro hGranted
      have hBelow : capacity < limit := by omega
      have hGrown := min_capacity_le_roomFrom heap limit (growCapacity capacity)
      have hMore := lt_growCapacity capacity
      rw [roomFrom_of_granted hBelow hGranted] at h
      omega
    rw [if_neg hLimit, dif_neg hFilled, if_neg hRefused]

/-- A stack with room takes the value on top. -/
theorem push_of_room {s : Stack} (h : s.size < s.room) (value : Value) :
    ∃ next, push value s = .ok () next ∧ next.values = s.values.push value ∧ s.Becomes next := by
  obtain ⟨values, limit, heap, capacity, fits⟩ := s
  change values.size < roomFrom heap limit capacity at h
  have hBelow : values.size < limit :=
    Nat.lt_of_lt_of_le h (roomFrom_le_limit heap limit capacity)
  unfold push
  dsimp only
  rw [if_neg (Nat.not_le_of_lt hBelow)]
  by_cases hFree : values.size < capacity
  · rw [dif_pos hFree]
    exact ⟨_, rfl, rfl, rfl, rfl, rfl, Nat.le_refl capacity⟩
  · have hFilled : capacity < limit := by omega
    have hGranted : heap.grants (growCapacity capacity * SlotSize.bytes Value) = true := by
      refine Bool.of_not_eq_false fun hRefused => ?_
      rw [roomFrom_of_refused hFilled hRefused] at h
      exact hFree h
    rw [dif_neg hFree, if_pos hGranted]
    exact ⟨_, rfl, rfl, rfl, rfl, (roomFrom_of_granted hFilled hGranted).symm,
      Nat.le_of_lt (lt_growCapacity capacity)⟩

theorem pop_of_none {s : Stack} (h : s.values.back? = none) :
    pop s = .error .stackUnderflow s := by
  obtain ⟨values, limit, heap, capacity, fits⟩ := s
  simp only [pop]
  split
  · rfl
  · rename_i value hTop
    cases h.symm.trans hTop

/-- Taking the top value leaves the others and all of the room. -/
theorem pop_of_some {s : Stack} {value : Value} (h : s.values.back? = some value) :
    ∃ next, pop s = .ok value next ∧ next.values = s.values.pop ∧ s.Becomes next := by
  obtain ⟨values, limit, heap, capacity, fits⟩ := s
  simp only [pop]
  split
  · rename_i hTop
    cases h.symm.trans hTop
  · rename_i other hTop
    cases h.symm.trans hTop
    exact ⟨_, rfl, rfl, rfl, rfl, rfl, Nat.le_refl capacity⟩

end Stack

end StackMachine
