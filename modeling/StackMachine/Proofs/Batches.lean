import StackMachine.Proofs.Histories
import StackMachine.Proofs.Reservations

/-! Appending in batches. The elements of a list may come one at a time or in batches of any
length, and room for a batch may be reserved first or not. As long as the heap grants what is
asked of it, this makes no difference to the buffer that is left, and a reservation that has been
granted covers all the appends that it was made for. -/
namespace StackMachine.Buffer

variable {α : Type}

/-- The elements of a buffer that has been appended to. -/
theorem size_eq_of_items {b last : Buffer α} {xs : List α}
    (h : last.items = b.items ++ xs.toArray) : last.size = b.size + xs.length := by
  rw [size, h, Array.size_append]
  rfl

/-- Growing for elements keeps a buffer regular when the room is not less than they are. -/
theorem Regular.enlarged {b last : Buffer α} {xs : List α} {room : Nat} (h : b.Regular)
    (hItems : last.items = b.items ++ xs.toArray) (hRoom : xs.length ≤ room)
    (hCapacity : Enlarged b.capacity (b.size + room) last.capacity) : last.Regular := by
  refine ⟨?_, hCapacity.zero_or_grown h.capacity⟩
  rw [size_eq_of_items hItems]
  exact Nat.le_trans (Nat.add_le_add_left hRoom _) hCapacity.needed_le

variable [SlotSize α]

def appendAll (heap : Allocator) : List α → Build (Buffer α) Unit
  | [] => pure ()
  | x :: rest => append heap x >>= fun _ => appendAll heap rest

/-- Consecutive elements, and whether room for all of them is reserved first. -/
structure Batch (α : Type) where
  elements : List α
  reserved : Bool

def Batch.write (heap : Allocator) (batch : Batch α) : Build (Buffer α) Unit :=
  if batch.reserved then
    reserve heap batch.elements.length >>= fun _ => appendAll heap batch.elements
  else appendAll heap batch.elements

def writeBatches (heap : Allocator) : List (Batch α) → Build (Buffer α) Unit
  | [] => pure ()
  | batch :: rest => batch.write heap >>= fun _ => writeBatches heap rest

/-- Two steps succeed together when the first does and the second does behind it. -/
theorem bind_eq_ok_iff {σ β γ : Type} {first : Build σ β} {second : β → Build σ γ} {s last : σ}
    {c : γ} :
    (first >>= second) s = .ok c last ↔
      ∃ a middle, first s = .ok a middle ∧ second a middle = .ok c last := by
  simp only [bind, EStateM.bind]
  cases hFirst : first s with
  | ok a middle =>
      constructor
      · intro h
        exact ⟨a, middle, rfl, h⟩
      · rintro ⟨_, _, hSame, h⟩
        cases hSame
        exact h
  | error e left => exact ⟨nofun, fun ⟨_, _, h, _⟩ => nomatch h⟩

/-- If a buffer grows to this capacity, the heap grants all that may be asked for on the way. -/
def Affords (heap : Allocator) (b : Buffer α) (capacity : Nat) : Prop :=
  b.capacity < capacity → ∀ bytes ≤ capacity * SlotSize.bytes α, heap.grants bytes = true

/-- An action appends elements to every regular buffer, and makes room for at least as many. It
succeeds if the heap affords the room, and enlarges the capacity for that room only. -/
structure Adds {β : Type} (heap : Allocator) (act : Build (Buffer α) β) (xs : List α)
    (room : Nat) : Prop where
  sound : ∀ {b last : Buffer α} {a : β}, b.Regular → act b = .ok a last →
    last.items = b.items ++ xs.toArray ∧ Enlarged b.capacity (b.size + room) last.capacity
  complete : ∀ {b : Buffer α} {capacity : Nat}, b.Regular →
    Enlarged b.capacity (b.size + room) capacity → b.Affords heap capacity →
    ∃ a, act b = .ok a ⟨b.items ++ xs.toArray, capacity⟩

namespace Adds

variable {heap : Allocator} {β γ : Type} {act : Build (Buffer α) β} {xs ys : List α}
  {room more : Nat}

/-- What is appended by two actions in a row is covered by the larger of the two demands. -/
theorem bind {next : β → Build (Buffer α) γ} (h : Adds heap act xs room)
    (hRoom : xs.length ≤ room) (hNext : ∀ a, Adds heap (next a) ys more) :
    Adds heap (act >>= next) (xs ++ ys) (max room (xs.length + more)) where
  sound := by
    intro b last c hRegular hBind
    obtain ⟨a, middle, hFirst, hSecond⟩ := bind_eq_ok_iff.mp hBind
    obtain ⟨hItems, hCapacity⟩ := h.sound hRegular hFirst
    have hMiddle := hRegular.enlarged hItems hRoom hCapacity
    obtain ⟨hLastItems, hLast⟩ := (hNext a).sound hMiddle hSecond
    rw [size_eq_of_items hItems, Nat.add_assoc] at hLast
    refine ⟨?_, ?_⟩
    · simp [hLastItems, hItems]
    · rw [← Nat.add_max_add_left]
      exact hCapacity.trans hLast
  complete := by
    intro b capacity hRegular hCapacity hAffords
    rw [← Nat.add_max_add_left] at hCapacity
    obtain ⟨middle, hMiddle, hLast⟩ := hCapacity.split hRegular.capacity
    have hFirstAffords : b.Affords heap middle := fun hGrows bytes hBytes =>
      hAffords (Nat.lt_of_lt_of_le hGrows hLast.capacity_le) bytes
        (Nat.le_trans hBytes (Nat.mul_le_mul_right _ hLast.capacity_le))
    obtain ⟨a, hFirst⟩ := h.complete hRegular hMiddle hFirstAffords
    have hItems : (⟨b.items ++ xs.toArray, middle⟩ : Buffer α).items = b.items ++ xs.toArray := rfl
    have hSize := size_eq_of_items hItems
    rw [← Nat.add_assoc, ← hSize] at hLast
    have hSecondAffords :
        (⟨b.items ++ xs.toArray, middle⟩ : Buffer α).Affords heap capacity := fun hGrows =>
      hAffords (Nat.lt_of_le_of_lt hMiddle.capacity_le hGrows)
    obtain ⟨c, hSecond⟩ := (hNext a).complete
      (hRegular.enlarged hItems hRoom hMiddle) hLast hSecondAffords
    refine ⟨c, bind_eq_ok_iff.mpr ⟨a, _, hFirst, ?_⟩⟩
    rw [hSecond]
    simp

/-- Room is made without an element. -/
theorem reserve (heap : Allocator) (additional : Nat) :
    Adds heap (Buffer.reserve heap additional : Build (Buffer α) Unit) [] additional where
  sound := by
    intro b last _ hRegular hReserve
    obtain ⟨hItems, hCapacity, -⟩ := (reserve_eq_ok_iff hRegular.capacity).mp hReserve
    exact ⟨by simp [hItems], hCapacity⟩
  complete := by
    intro b capacity hRegular hCapacity hAffords
    refine ⟨(), (reserve_eq_ok_iff hRegular.capacity).mpr ⟨by simp, hCapacity, fun hShort => ?_⟩⟩
    exact hAffords (Nat.lt_of_lt_of_le hShort hCapacity.needed_le) _ (Nat.le_refl _)

/-- An element is put into the room that is made for it. -/
theorem append (heap : Allocator) (x : α) : Adds heap (Buffer.append heap x) [x] 1 where
  sound := by
    intro b last index hRegular hAppend
    obtain ⟨_, middle, hReserve, hPush⟩ := bind_eq_ok_iff.mp hAppend
    obtain ⟨hItems, hCapacity, -⟩ := (reserve_eq_ok_iff hRegular.capacity).mp hReserve
    cases hPush
    exact ⟨by simp [hItems], hCapacity⟩
  complete := by
    intro b capacity hRegular hCapacity hAffords
    obtain ⟨_, hReserve⟩ := (Adds.reserve heap 1).complete hRegular hCapacity hAffords
    exact ⟨_, bind_eq_ok_iff.mpr ⟨_, _, hReserve, by simp [push]; rfl⟩⟩

theorem pure (heap : Allocator) : Adds heap (Pure.pure () : Build (Buffer α) Unit) [] 0 where
  sound := by
    intro b last _ hRegular hPure
    cases hPure
    exact ⟨by simp, .of_room hRegular.size_le⟩
  complete := by
    intro b capacity hRegular hCapacity _
    cases hCapacity.unique (.of_room hRegular.size_le)
    exact ⟨(), by simp; rfl⟩

theorem appendAll (heap : Allocator) (xs : List α) :
    Adds heap (Buffer.appendAll heap xs) xs xs.length := by
  induction xs with
  | nil => exact .pure heap
  | cons x rest ih =>
      have hBind := (Adds.append heap x).bind (Nat.le_refl 1) fun _ => ih
      rw [List.length_singleton, Nat.max_eq_right (Nat.le_add_right 1 _), Nat.add_comm] at hBind
      exact hBind

/-- Reserving room for a batch first makes no other demand. -/
theorem write (heap : Allocator) (batch : Batch α) :
    Adds heap (batch.write heap) batch.elements batch.elements.length := by
  unfold Batch.write
  split
  · have hBind := (Adds.reserve heap batch.elements.length).bind (Nat.zero_le _) fun _ =>
      Adds.appendAll heap batch.elements
    rw [List.length_nil, Nat.zero_add, Nat.max_self] at hBind
    exact hBind
  · exact .appendAll heap batch.elements

/-- Whatever the batches are, together they add all of their elements. -/
theorem writeBatches (heap : Allocator) (batches : List (Batch α)) :
    Adds heap (Buffer.writeBatches heap batches) (batches.flatMap Batch.elements)
      (batches.flatMap Batch.elements).length := by
  induction batches with
  | nil => exact .pure heap
  | cons batch rest ih =>
      have hBind := (Adds.write heap batch).bind (Nat.le_refl _) fun _ => ih
      rw [Nat.max_eq_right (Nat.le_add_right _ _), ← List.length_append] at hBind
      exact hBind

end Adds

/-- A buffer with room for a list takes it without asking the heap. -/
theorem appendAll_of_room {b : Buffer α} (h : b.Regular) {xs : List α}
    (hRoom : b.size + xs.length ≤ b.capacity) (heap : Allocator) :
    Buffer.appendAll heap xs b = .ok () ⟨b.items ++ xs.toArray, b.capacity⟩ := by
  have hAffords : b.Affords heap b.capacity := fun hGrows => absurd hGrows (Nat.lt_irrefl _)
  obtain ⟨_, hOk⟩ := (Adds.appendAll heap xs).complete h (.of_room hRoom) hAffords
  exact hOk

/-- What a granted reservation covers can be appended without it, if the heap grants less where it
has granted more. -/
theorem appendAll_of_reserve {b room : Buffer α} (h : b.Regular) {xs : List α}
    {heap later : Allocator} (hReserve : Buffer.reserve heap xs.length b = .ok () room)
    (hLess : ∀ small large, small ≤ large → heap.grants large = true →
      later.grants small = true) :
    Buffer.appendAll later xs b = .ok () ⟨b.items ++ xs.toArray, room.capacity⟩ := by
  obtain ⟨-, hCapacity, hAsked⟩ := (reserve_eq_ok_iff h.capacity).mp hReserve
  have hAffords : b.Affords later room.capacity := by
    intro hGrows bytes hBytes
    refine hLess bytes _ hBytes (hAsked (Nat.lt_of_not_le fun hRoom => ?_))
    exact absurd hGrows (hCapacity.unique (.of_room hRoom) ▸ Nat.lt_irrefl _)
  obtain ⟨_, hOk⟩ := (Adds.appendAll later xs).complete h hCapacity hAffords
  exact hOk

/-- What batches leave does not depend on the batches. -/
theorem last_eq_of_writeBatches {b last another : Buffer α} (h : b.Regular)
    {heap other : Allocator} {batches others : List (Batch α)}
    (hSame : batches.flatMap Batch.elements = others.flatMap Batch.elements)
    (hLast : Buffer.writeBatches heap batches b = .ok () last)
    (hAnother : Buffer.writeBatches other others b = .ok () another) : last = another := by
  obtain ⟨hItems, hCapacity⟩ := (Adds.writeBatches heap batches).sound h hLast
  obtain ⟨hOtherItems, hOtherCapacity⟩ := (Adds.writeBatches other others).sound h hAnother
  rw [hSame] at hItems hCapacity
  obtain ⟨items, capacity⟩ := last
  cases hItems.trans hOtherItems.symm
  cases hCapacity.unique hOtherCapacity
  rfl

/-- No request takes the capacity beyond what a word can hold. -/
theorem Kept.capacity_ask_le {kept : Kept α} (hRegular : kept.buffer.Regular)
    (hWord : kept.buffer.capacity ≤ greatestCapacity) (heap : Allocator) (request : Request α) :
    (kept.ask heap request).buffer.capacity ≤ greatestCapacity := by
  have hRespects := hRegular.respects heap request
  unfold Kept.ask
  cases hPerform : request.perform heap kept.buffer with
  | error error left =>
      rw [hPerform] at hRespects
      exact hRespects.1 ▸ hWord
  | ok answer next =>
      cases hRelease : request.isRelease with
      | true =>
          rw [hPerform] at hRespects
          obtain ⟨-, -, hNext⟩ := hRespects
          rw [hRelease, if_pos rfl] at hNext
          exact hNext.2 ▸ Nat.zero_le _
      | false =>
          rw [Request.perform_eq hRelease] at hPerform
          obtain ⟨_, middle, hReserve, hStore⟩ := bind_eq_ok_iff.mp hPerform
          cases hStore
          exact ((reserve_eq_ok_iff hRegular.capacity).mp hReserve).2.1.le_greatestCapacity hWord

/-- No buffer on the desk ever outgrows the greatest capacity. -/
theorem Desk.capacity_after_le (moves : List (Move α)) :
    (after moves).inHand.buffer.capacity ≤ greatestCapacity ∧
      (after moves).aside.buffer.capacity ≤ greatestCapacity := by
  induction moves using List.reverseRecOn with
  | nil => exact ⟨Nat.zero_le _, Nat.zero_le _⟩
  | append_singleton moves m ih =>
      rw [after, List.foldl_append]
      change ((after moves).move m).inHand.buffer.capacity ≤ _ ∧
        ((after moves).move m).aside.buffer.capacity ≤ _
      cases m with
      | ask heap request =>
          exact ⟨Kept.capacity_ask_le (sound_after moves).1.regular ih.1 heap request, ih.2⟩
      | save => exact ⟨ih.1, ih.1⟩
      | swap => exact ⟨ih.2, ih.1⟩

/-- A reservation for a list that has been granted to a buffer, whatever was asked of it before,
covers all appends, and leaves what they leave on their own. However a list is cut into batches,
and whether room for them is reserved or not, the buffer that is left is the same. If no heap
refuses anything, all of the batches are appended, unless there is no capacity for so many
elements, and then not all of them are. -/
theorem batches_leave_the_same (moves : List (Move α)) (b : Buffer α)
    (hBuilt : b = (Desk.after moves).inHand.buffer ∨ b = (Desk.after moves).aside.buffer)
    (xs : List α) :
    (∀ (heap : Allocator) (room : Buffer α), Buffer.reserve heap xs.length b = .ok () room →
      ∃ batched : Buffer α, batched.toList = b.toList ++ xs ∧ batched.capacity = room.capacity ∧
        (∀ later, Buffer.appendAll later xs room = .ok () batched) ∧
        ∀ later : Allocator,
          (∀ small large, small ≤ large → heap.grants large = true →
            later.grants small = true) →
          ∃ single, Buffer.appendAll later xs b = .ok () single ∧ single = batched ∧
            ∀ [BEq α] [ReflBEq α], (single == batched) = true) ∧
    (∀ heap other batches others last another,
      batches.flatMap Batch.elements = xs → others.flatMap Batch.elements = xs →
      Buffer.writeBatches heap batches b = .ok () last →
      Buffer.writeBatches other others b = .ok () another →
      last = another ∧ last.toList = b.toList ++ xs) ∧
    ∀ heap : Allocator, (∀ bytes, heap.grants bytes = true) →
      ∀ batches, batches.flatMap Batch.elements = xs →
        ((∃ last, Buffer.writeBatches heap batches b = .ok () last) ↔
          b.size + xs.length ≤ 2 ^ 63) := by
  have hSound : b.Regular := by
    rcases hBuilt with rfl | rfl
    · exact (Desk.sound_after moves).1.regular
    · exact (Desk.sound_after moves).2.regular
  have hWord : b.capacity ≤ greatestCapacity := by
    rcases hBuilt with rfl | rfl
    · exact (Desk.capacity_after_le moves).1
    · exact (Desk.capacity_after_le moves).2
  refine ⟨fun heap room hReserve => ?_, ?_, fun heap hGrants batches hBatches => ⟨?_, ?_⟩⟩
  · obtain ⟨hItems, hCapacity⟩ := (Adds.reserve heap xs.length).sound hSound hReserve
    refine ⟨⟨b.items ++ xs.toArray, room.capacity⟩, by simp [toList], rfl, fun later => ?_,
      fun later hLess => ⟨_, appendAll_of_reserve hSound hReserve hLess, rfl, ?_⟩⟩
    · have hRoom : room.size + xs.length ≤ room.capacity := by
        rw [size_eq_of_items hItems]
        exact hCapacity.needed_le
      have hRegular := hSound.enlarged hItems (Nat.zero_le _) hCapacity
      rw [appendAll_of_room hRegular hRoom later, hItems]
      simp
    · intro _ _
      change (_ == _ && _ == _) = true
      simp
  · intro heap other batches others last another hBatches hOthers hLast hAnother
    refine ⟨last_eq_of_writeBatches hSound (hBatches.trans hOthers.symm) hLast hAnother, ?_⟩
    rw [toList, ((Adds.writeBatches heap batches).sound hSound hLast).1, hBatches]
    simp [toList]
  · rintro ⟨last, hLast⟩
    have hCapacity := ((Adds.writeBatches heap batches).sound hSound hLast).2
    rw [hBatches] at hCapacity
    exact Nat.le_trans hCapacity.needed_le (hCapacity.le_greatestCapacity hWord)
  · intro hFits
    obtain ⟨capacity, hCapacity⟩ := Enlarged.exists_of_le hSound.capacity (.inr hFits)
    rw [← hBatches] at hCapacity
    obtain ⟨_, hOk⟩ := (Adds.writeBatches heap batches).complete hSound hCapacity
      fun _ bytes _ => hGrants bytes
    exact ⟨_, hOk⟩

/-- One element in sixteen slots. -/
def primed : List (Move UInt8) :=
  [.ask .standard (.append 1), .ask .standard (.reserve 9)]

/-- Thirty-one elements in three batches. They fill the next capacity exactly. -/
def threefold : List (Batch UInt8) :=
  [⟨List.replicate 15 2, true⟩, ⟨[], true⟩, ⟨List.replicate 16 2, false⟩]

/-- Once room is reserved, even a heap that refuses everything lets the elements be appended. -/
theorem batches_leave_the_same_of_primed :
    ∃ room batched single last : Buffer UInt8,
      Buffer.reserve .standard 31 (Desk.after primed).inHand.buffer = .ok () room ∧
      Buffer.appendAll ⟨fun _ => false⟩ (List.replicate 31 2) room = .ok () batched ∧
      batched.capacity = 32 ∧
      Buffer.appendAll .standard (List.replicate 31 2) (Desk.after primed).inHand.buffer =
        .ok () single ∧
      (single == batched) = true ∧
      Buffer.writeBatches ⟨fun _ => true⟩ threefold (Desk.after primed).inHand.buffer =
        .ok () last := by
  have hRoom : Buffer.reserve .standard 31 (Desk.after primed).inHand.buffer =
      .ok () ⟨#[1], 32⟩ := by
    with_unfolding_all rfl
  obtain ⟨hReserved, -, hWritten⟩ := batches_leave_the_same primed _ (.inl rfl)
    (List.replicate 31 2)
  obtain ⟨batched, -, hCapacity, hBatched, hSingle⟩ := hReserved .standard _ hRoom
  obtain ⟨single, hAppended, -, hEqual⟩ := hSingle .standard fun small large hLess hLarge =>
    decide_eq_true (Nat.lt_of_le_of_lt hLess (of_decide_eq_true hLarge))
  obtain ⟨last, hLast⟩ := (hWritten ⟨fun _ => true⟩ (fun _ => rfl) threefold rfl).mpr
    (by decide +kernel)
  exact ⟨_, batched, single, last, hRoom, hBatched _, hCapacity, hAppended, hEqual, hLast⟩

end StackMachine.Buffer
