import StackMachine.Proofs.Capacity

/-! What a reservation does, in closed form. Whatever the capacity is that growth begins with, it
ends at the least one with room, up to the greatest that a word can hold. The computation goes
through words only, and in words it gives what it gives in whole numbers. -/
namespace StackMachine.Buffer

/-- The greatest capacity that growth passes through and a word can hold. -/
def greatestCapacity : Nat := 9223372036854775808

theorem grown_greatestCapacity : Grown greatestCapacity := ⟨60, by decide⟩

/-- No rung of the ladder above the greatest fits a machine word. -/
theorem Grown.le_greatestCapacity {capacity : Nat} (h : Grown capacity)
    (hWord : capacity ≤ maxWord) : capacity ≤ greatestCapacity := by
  refine Nat.le_of_not_lt fun hLarge => ?_
  have hDouble : 2 * greatestCapacity ≤ capacity := grown_greatestCapacity.double_le h hLarge
  exact absurd (Nat.le_trans hDouble hWord) (by decide)

theorem growCapacity_le_maxWord {capacity larger : Nat} (h : growCapacity capacity = some larger) :
    larger ≤ maxWord := by
  unfold growCapacity at h
  repeat' split at h
  all_goals cases h
  · decide
  · assumption

/-- Growing fails from the greatest capacity on. -/
theorem growCapacity_eq_none_iff {capacity : Nat} :
    growCapacity capacity = none ↔ greatestCapacity ≤ capacity := by
  unfold growCapacity greatestCapacity leastCapacity maxWord
  repeat' split
  all_goals simp only [reduceCtorEq, true_iff, false_iff]
  all_goals omega

theorem growCapacity_of_grown {k larger : Nat}
    (h : growCapacity (leastCapacity * 2 ^ k) = some larger) :
    larger = leastCapacity * 2 ^ (k + 1) := by
  have hLeast : leastCapacity ≤ leastCapacity * 2 ^ k := Grown.leastCapacity_le ⟨k, rfl⟩
  rw [growCapacity, if_neg (Nat.not_lt_of_le hLeast)] at h
  split at h <;> cases h
  rw [Nat.pow_succ, Nat.mul_comm 2, Nat.mul_assoc]

theorem capacityFor_le_maxWord {needed capacity larger : Nat} (hShort : capacity < needed)
    (h : capacityFor needed capacity = some larger) : larger ≤ maxWord := by
  fun_induction capacityFor needed capacity with
  | case1 capacity hRoom => exact absurd hShort (Nat.not_lt_of_le hRoom)
  | case2 capacity _ next hGrow ih =>
      rcases Nat.lt_or_ge next needed with hStill | hRoom
      · exact ih hStill h
      · rw [capacityFor, if_pos hRoom] at h
        cases h
        exact growCapacity_le_maxWord hGrow
  | case3 capacity _ hGrow => cases h

/-- Growth finds room for all that a capacity can hold. -/
theorem exists_capacityFor {needed : Nat} (hFits : needed ≤ greatestCapacity) (capacity : Nat) :
    ∃ larger, capacityFor needed capacity = some larger := by
  fun_induction capacityFor needed capacity with
  | case1 capacity hRoom => exact ⟨capacity, rfl⟩
  | case2 capacity _ next hGrow ih => exact ih
  | case3 capacity hShort hGrow =>
      exact absurd (Nat.le_trans hFits (growCapacity_eq_none_iff.mp hGrow)) hShort

/-- Without room, it does not matter where growth begins. -/
theorem capacityFor_eq_some_iff {needed capacity larger : Nat}
    (hStart : capacity = 0 ∨ Grown capacity) (hShort : capacity < needed) :
    capacityFor needed capacity = some larger ↔
      Snug needed larger ∧ needed ≤ greatestCapacity := by
  constructor
  · intro h
    have hSnug : Snug needed larger := .of_capacityFor hStart hShort h
    have hGrown : Grown larger := by
      refine hSnug.zero_or_grown.resolve_left fun hZero => ?_
      exact absurd (Nat.lt_of_lt_of_le hShort hSnug.le) (hZero ▸ Nat.not_lt_zero capacity)
    exact ⟨hSnug, Nat.le_trans hSnug.le
      (hGrown.le_greatestCapacity (capacityFor_le_maxWord hShort h))⟩
  · rintro ⟨hSnug, hFits⟩
    obtain ⟨found, hFound⟩ := exists_capacityFor hFits capacity
    rw [hFound, (Snug.of_capacityFor hStart hShort hFound).unique hSnug]

/-- No capacity is found exactly for more than the greatest. -/
theorem capacityFor_eq_none_iff {needed capacity : Nat}
    (hStart : capacity = 0 ∨ Grown capacity) (hShort : capacity < needed) :
    capacityFor needed capacity = none ↔ greatestCapacity < needed := by
  constructor
  · intro h
    refine Nat.lt_of_not_le fun hFits => ?_
    obtain ⟨larger, hLarger⟩ := exists_capacityFor hFits capacity
    cases hLarger.symm.trans h
  · intro hExcess
    cases hCapacity : capacityFor needed capacity with
    | none => rfl
    | some larger =>
        have hFits := ((capacityFor_eq_some_iff hStart hShort).mp hCapacity).2
        exact absurd hExcess (Nat.not_lt_of_le hFits)

theorem Snug.le_greatestCapacity {needed capacity : Nat} (h : Snug needed capacity)
    (hFits : needed ≤ greatestCapacity) : capacity ≤ greatestCapacity := by
  unfold Snug at h
  split at h
  · exact h ▸ Nat.zero_le _
  · exact h.2 ⟨grown_greatestCapacity, hFits⟩

/-- The capacity that making room leaves: the old one if it is enough, and otherwise the least one
that is. -/
def Enlarged (capacity needed larger : Nat) : Prop :=
  if needed ≤ capacity then larger = capacity
  else Snug needed larger ∧ needed ≤ greatestCapacity

namespace Enlarged

variable {capacity needed larger : Nat}

theorem of_room (h : needed ≤ capacity) : Enlarged capacity needed capacity := by
  rw [Enlarged, if_pos h]

theorem of_snug (hShort : capacity < needed) (h : Snug needed larger)
    (hFits : needed ≤ greatestCapacity) : Enlarged capacity needed larger := by
  rw [Enlarged, if_neg (Nat.not_le_of_lt hShort)]
  exact ⟨h, hFits⟩

/-- Growing for a need changes nothing, or finds the snug capacity. -/
theorem cases (h : Enlarged capacity needed larger) :
    (needed ≤ capacity ∧ larger = capacity) ∨
      capacity < needed ∧ Snug needed larger ∧ needed ≤ greatestCapacity := by
  rcases Nat.lt_or_ge capacity needed with hShort | hRoom
  · rw [Enlarged, if_neg (Nat.not_le_of_lt hShort)] at h
    exact .inr ⟨hShort, h⟩
  · rw [Enlarged, if_pos hRoom] at h
    exact .inl ⟨hRoom, h⟩

theorem needed_le (h : Enlarged capacity needed larger) : needed ≤ larger := by
  rcases h.cases with ⟨hRoom, rfl⟩ | ⟨-, hSnug, -⟩
  · exact hRoom
  · exact hSnug.le

theorem capacity_le (h : Enlarged capacity needed larger) : capacity ≤ larger := by
  rcases h.cases with ⟨-, rfl⟩ | ⟨hShort, hSnug, -⟩
  · exact Nat.le_refl _
  · exact Nat.le_of_lt (Nat.lt_of_lt_of_le hShort hSnug.le)

theorem zero_or_grown (h : Enlarged capacity needed larger)
    (hStart : capacity = 0 ∨ Grown capacity) : larger = 0 ∨ Grown larger := by
  rcases h.cases with ⟨-, rfl⟩ | ⟨-, hSnug, -⟩
  · exact hStart
  · exact hSnug.zero_or_grown

/-- The capacity after growing is determined by the one before and the need. -/
theorem unique {other : Nat} (h : Enlarged capacity needed larger)
    (h' : Enlarged capacity needed other) : larger = other := by
  rcases h.cases with ⟨hRoom, rfl⟩ | ⟨hShort, hSnug, -⟩
  · rw [Enlarged, if_pos hRoom] at h'
    exact h'.symm
  · rw [Enlarged, if_neg (Nat.not_le_of_lt hShort)] at h'
    exact hSnug.unique h'.1

/-- Room that is made in two steps is made in one. -/
theorem trans {more largest : Nat} (h : Enlarged capacity needed larger)
    (h' : Enlarged larger more largest) : Enlarged capacity (max needed more) largest := by
  rcases h'.cases with ⟨hRoom, rfl⟩ | ⟨hShort, hSnug, hFits⟩
  · have hLe : max needed more ≤ largest := Nat.max_le.mpr ⟨h.needed_le, hRoom⟩
    rcases h.cases with ⟨-, rfl⟩ | ⟨hShort, hSnug, hFits⟩
    · exact .of_room hLe
    · refine .of_snug ?_ (hSnug.of_room (Nat.le_max_left _ _) hLe) ?_
      · exact Nat.lt_of_lt_of_le hShort (Nat.le_max_left _ _)
      · exact Nat.le_trans hLe (hSnug.le_greatestCapacity hFits)
  · have hMore : needed ≤ more := Nat.le_of_lt (Nat.lt_of_le_of_lt h.needed_le hShort)
    rw [Nat.max_eq_right hMore]
    exact .of_snug (Nat.lt_of_le_of_lt h.capacity_le hShort) hSnug hFits

/-- Growing succeeds for whatever the present or the greatest capacity holds. -/
theorem exists_of_le (hStart : capacity = 0 ∨ Grown capacity)
    (hFits : needed ≤ capacity ∨ needed ≤ greatestCapacity) :
    ∃ larger, Enlarged capacity needed larger := by
  rcases Nat.lt_or_ge capacity needed with hShort | hRoom
  · have hFits := hFits.resolve_left (Nat.not_le_of_lt hShort)
    obtain ⟨larger, hLarger⟩ := exists_capacityFor hFits capacity
    exact ⟨larger, .of_snug hShort (.of_capacityFor hStart hShort hLarger) hFits⟩
  · exact ⟨capacity, .of_room hRoom⟩

/-- Room can be made for less first. -/
theorem split {more largest : Nat} (hStart : capacity = 0 ∨ Grown capacity)
    (h : Enlarged capacity (max needed more) largest) :
    ∃ larger, Enlarged capacity needed larger ∧ Enlarged larger more largest := by
  have hFits : max needed more ≤ capacity ∨ max needed more ≤ greatestCapacity :=
    h.cases.imp (fun hRoom => hRoom.1) (fun hShort => hShort.2.2)
  have hLess : needed ≤ capacity ∨ needed ≤ greatestCapacity :=
    hFits.imp (Nat.le_trans (Nat.le_max_left _ _)) (Nat.le_trans (Nat.le_max_left _ _))
  obtain ⟨larger, hLarger⟩ := exists_of_le hStart hLess
  have hMore : more ≤ larger ∨ more ≤ greatestCapacity :=
    hFits.imp (fun hRoom => Nat.le_trans (Nat.le_max_right _ _)
      (Nat.le_trans hRoom hLarger.capacity_le)) (Nat.le_trans (Nat.le_max_right _ _))
  obtain ⟨found, hFound⟩ := exists_of_le (hLarger.zero_or_grown hStart) hMore
  cases (hLarger.trans hFound).unique h
  exact ⟨larger, hLarger, hFound⟩

theorem le_greatestCapacity (h : Enlarged capacity needed larger)
    (hWord : capacity ≤ greatestCapacity) : larger ≤ greatestCapacity := by
  rcases h.cases with ⟨-, rfl⟩ | ⟨-, hSnug, hFits⟩
  · exact hWord
  · exact hSnug.le_greatestCapacity hFits

end Enlarged

variable {α : Type} [SlotSize α]

/-- A reservation that cannot be granted by any heap. -/
theorem reserve_of_excess {b : Buffer α} {additional : Nat}
    (hStart : b.capacity = 0 ∨ Grown b.capacity) (hShort : b.capacity < b.size + additional)
    (hExcess : greatestCapacity < b.size + additional) (heap : Allocator) :
    reserve heap additional b = .error (.outOfMemory maxWord) b := by
  have hRoom : ¬b.items.size + additional ≤ b.capacity := Nat.not_le_of_lt hShort
  have hNone : capacityFor (b.items.size + additional) b.capacity = none :=
    (capacityFor_eq_none_iff hStart hShort).mpr hExcess
  simp only [reserve, if_neg hRoom, hNone]

/-- Without room, the heap decides about the least capacity that has it. -/
theorem reserve_of_short {b : Buffer α} {additional capacity : Nat}
    (hStart : b.capacity = 0 ∨ Grown b.capacity) (hShort : b.capacity < b.size + additional)
    (hSnug : Snug (b.size + additional) capacity)
    (hFits : b.size + additional ≤ greatestCapacity) (heap : Allocator) :
    reserve heap additional b =
      if heap.grants (capacity * SlotSize.bytes α) then .ok () ⟨b.items, capacity⟩
      else .error (.outOfMemory capacity) b := by
  have hRoom : ¬b.items.size + additional ≤ b.capacity := Nat.not_le_of_lt hShort
  have hSome : capacityFor (b.items.size + additional) b.capacity = some capacity :=
    (capacityFor_eq_some_iff hStart hShort).mpr ⟨hSnug, hFits⟩
  simp only [reserve, if_neg hRoom, hSome]

/-- When a reservation succeeds, and what it leaves. The heap is asked only if there is no room. -/
theorem reserve_eq_ok_iff {heap : Allocator} {additional : Nat} {b next : Buffer α}
    (hStart : b.capacity = 0 ∨ Grown b.capacity) :
    reserve heap additional b = .ok () next ↔
      next.items = b.items ∧ Enlarged b.capacity (b.size + additional) next.capacity ∧
        (b.capacity < b.size + additional →
          heap.grants (next.capacity * SlotSize.bytes α) = true) := by
  obtain ⟨items, capacity⟩ := next
  rcases Nat.lt_or_ge b.capacity (b.size + additional) with hShort | hRoom
  · rcases Nat.lt_or_ge greatestCapacity (b.size + additional) with hExcess | hFits
    · rw [reserve_of_excess hStart hShort hExcess]
      refine ⟨nofun, fun ⟨_, hEnlarged, _⟩ => ?_⟩
      rcases hEnlarged.cases with ⟨hRoom, -⟩ | ⟨-, -, hFits⟩
      · exact absurd hShort (Nat.not_lt_of_le hRoom)
      · exact absurd hExcess (Nat.not_lt_of_le hFits)
    · obtain ⟨larger, hLarger⟩ := Enlarged.exists_of_le hStart (.inr hFits)
      obtain ⟨-, hSnug, -⟩ :=
        hLarger.cases.resolve_left fun h => absurd hShort (Nat.not_lt_of_le h.1)
      rw [reserve_of_short hStart hShort hSnug hFits]
      by_cases hGranted : heap.grants (larger * SlotSize.bytes α) = true
      · rw [if_pos hGranted]
        constructor
        · intro hSame
          cases hSame
          exact ⟨rfl, hLarger, fun _ => hGranted⟩
        · rintro ⟨rfl, hEnlarged, -⟩
          cases hLarger.unique hEnlarged
          rfl
      · rw [if_neg hGranted]
        refine ⟨nofun, fun ⟨_, hEnlarged, hAsked⟩ => ?_⟩
        cases hLarger.unique hEnlarged
        exact absurd (hAsked hShort) hGranted
  · rw [reserve_of_room hRoom]
    constructor
    · intro hSame
      cases hSame
      exact ⟨rfl, .of_room hRoom, fun hShort => absurd hShort (Nat.not_lt_of_le hRoom)⟩
    · rintro ⟨rfl, hEnlarged, -⟩
      cases hEnlarged.unique (.of_room hRoom)
      rfl

/-- Two reservations leave what one of them leaves on its own, the one for more elements. -/
theorem reserve_max {first second both : Allocator} {one other : Nat} {b next last : Buffer α}
    (hStart : b.capacity = 0 ∨ Grown b.capacity)
    (hBoth : ∀ bytes, first.grants bytes = true ∨ second.grants bytes = true →
      both.grants bytes = true)
    (hFirst : reserve first one b = .ok () next)
    (hSecond : reserve second other next = .ok () last) :
    reserve both (max one other) b = .ok () last := by
  obtain ⟨hItems, hNext, hFirstAsked⟩ := (reserve_eq_ok_iff hStart).mp hFirst
  have hNextStart := hNext.zero_or_grown hStart
  obtain ⟨hSame, hLast, hSecondAsked⟩ := (reserve_eq_ok_iff hNextStart).mp hSecond
  have hSize : next.size = b.size := congrArg Array.size hItems
  rw [hSize] at hLast hSecondAsked
  refine (reserve_eq_ok_iff hStart).mpr ⟨hSame.trans hItems, ?_, fun hShort => ?_⟩
  · rw [← Nat.add_max_add_left]
    exact hNext.trans hLast
  apply hBoth
  rcases hLast.cases with ⟨hSecondRoom, hKept⟩ | ⟨hSecondShort, -⟩
  · rw [hKept]
    refine .inl (hFirstAsked (Nat.lt_of_not_le fun hFirstRoom => ?_))
    have hUnchanged := hNext.unique (.of_room hFirstRoom)
    omega
  · exact .inr (hSecondAsked hSecondShort)

namespace Words

/-- The sum of two words, or `none` if it wraps around. -/
def sum? (a b : UInt64) : Option UInt64 :=
  if a + b < a then none else some (a + b)

/-- The capacity after the next growth, or `none` if doubling wraps around. -/
def growCapacity (capacity : UInt64) : Option UInt64 :=
  if capacity < 8 then some 8
  else if capacity * 2 < capacity then none
  else some (capacity * 2)

/-- The capacity at which growth stops, or `none` if a word cannot hold it. After so many rounds
the loop is cut off without an answer. -/
def capacityFor (needed : UInt64) : Nat → UInt64 → Option (Option UInt64)
  | 0, capacity => if needed ≤ capacity then some (some capacity) else none
  | rounds + 1, capacity =>
    if needed ≤ capacity then some (some capacity)
    else
      match growCapacity capacity with
      | some larger => capacityFor needed rounds larger
      | none => some none

inductive Plan where
  | keep
  | refuse
  /-- Ask the heap for slots in addition to the elements that are there, to have `capacity`. -/
  | grow (capacity extra : UInt64)

/-- The computation of a reservation in words that wrap around, with a loop of at most so many
rounds. -/
def plan (rounds : Nat) (size capacity additional : UInt64) : Option Plan :=
  match sum? size additional with
  | none => some .refuse
  | some needed =>
    if needed ≤ capacity then some .keep
    else
      (capacityFor needed rounds capacity).map fun
        | some larger => .grow larger (larger - size)
        | none => .refuse

def Plan.result (heap : Allocator) (b : Buffer α) :
    Plan → EStateM.Result BuildError (Buffer α) Unit
  | .keep => .ok () b
  | .refuse => .error (.outOfMemory maxWord) b
  | .grow capacity extra =>
    if heap.grants ((b.size + extra.toNat) * SlotSize.bytes α) then
      .ok () ⟨b.items, capacity.toNat⟩
    else .error (.outOfMemory capacity.toNat) b

theorem maxWord_eq : maxWord = 2 ^ 64 - 1 := rfl

theorem toNat_sum? (a b : UInt64) :
    (sum? a b).map UInt64.toNat =
      if a.toNat + b.toNat ≤ maxWord then some (a.toNat + b.toNat) else none := by
  have hA := a.toNat_lt
  have hB := b.toNat_lt
  have hWord := maxWord_eq
  unfold sum?
  split
  · rename_i hWraps
    rw [UInt64.lt_iff_toNat_lt, UInt64.toNat_add] at hWraps
    rw [if_neg (by omega), Option.map_none]
  · rename_i hFits
    rw [UInt64.lt_iff_toNat_lt, UInt64.toNat_add] at hFits
    rw [if_pos (by omega), Option.map_some, UInt64.toNat_add, Nat.mod_eq_of_lt (by omega)]

/-- Growing in words is growing in numbers. -/
theorem toNat_growCapacity (capacity : UInt64) :
    (growCapacity capacity).map UInt64.toNat = Buffer.growCapacity capacity.toNat := by
  have hCapacity := capacity.toNat_lt
  have hWord := maxWord_eq
  have hLeast : leastCapacity = (8 : UInt64).toNat := rfl
  have hTwo : (2 : UInt64).toNat = 2 := rfl
  unfold growCapacity Buffer.growCapacity
  rw [hLeast]
  split
  · rename_i hSmall
    rw [if_pos (UInt64.lt_iff_toNat_lt.mp hSmall), Option.map_some]
  · rename_i hLarge
    rw [if_neg (fun hSmall => hLarge (UInt64.lt_iff_toNat_lt.mpr hSmall))]
    split
    · rename_i hWraps
      rw [UInt64.lt_iff_toNat_lt, UInt64.toNat_mul, hTwo] at hWraps
      rw [if_neg (by omega), Option.map_none]
    · rename_i hFits
      rw [UInt64.lt_iff_toNat_lt, UInt64.toNat_mul, hTwo] at hFits
      rw [UInt64.lt_iff_toNat_lt, ← hLeast, leastCapacity] at hLarge
      rw [if_pos (by omega), Option.map_some, UInt64.toNat_mul, hTwo, Nat.mul_comm,
        Nat.mod_eq_of_lt (by omega)]

/-- If the loop is not cut off, it ends as growth in whole numbers does. -/
theorem toNat_capacityFor {needed capacity : UInt64} {rounds : Nat} {found : Option UInt64}
    (h : capacityFor needed rounds capacity = some found) :
    found.map UInt64.toNat = Buffer.capacityFor needed.toNat capacity.toNat := by
  induction rounds generalizing capacity with
  | zero =>
      unfold capacityFor at h
      split at h
      · rename_i hRoom
        cases h
        rw [Buffer.capacityFor, if_pos (UInt64.le_iff_toNat_le.mp hRoom)]
        rfl
      · cases h
  | succ rounds ih =>
      unfold capacityFor at h
      have hGrow := toNat_growCapacity capacity
      split at h
      · rename_i hRoom
        cases h
        rw [Buffer.capacityFor, if_pos (UInt64.le_iff_toNat_le.mp hRoom)]
        rfl
      · rename_i hShort
        have hNat : ¬needed.toNat ≤ capacity.toNat :=
          fun hRoom => hShort (UInt64.le_iff_toNat_le.mpr hRoom)
        rw [Buffer.capacityFor, if_neg hNat]
        cases hLarger : growCapacity capacity with
        | none =>
            rw [hLarger] at h hGrow
            cases h
            rw [← hGrow]
            rfl
        | some larger =>
            rw [hLarger] at h hGrow
            rw [← hGrow]
            exact ih h

/-- Beginning with a capacity that growth passes through, one round more is enough for each
doubling that remains and for the one that wraps around. -/
theorem exists_capacityFor {needed capacity : UInt64} {k rounds : Nat}
    (hCapacity : capacity.toNat = leastCapacity * 2 ^ k) (hRounds : 61 ≤ rounds + k) :
    ∃ found, capacityFor needed rounds capacity = some found := by
  induction rounds generalizing capacity k with
  | zero =>
      have hPower : 2 ^ 61 ≤ 2 ^ k := Nat.pow_le_pow_right (by decide) (by omega)
      have hWord := capacity.toNat_lt
      unfold leastCapacity at hCapacity
      omega
  | succ rounds ih =>
      unfold capacityFor
      split
      · exact ⟨_, rfl⟩
      · have hGrow := toNat_growCapacity capacity
        cases hLarger : growCapacity capacity with
        | none => exact ⟨none, rfl⟩
        | some larger =>
            rw [hLarger, hCapacity] at hGrow
            exact ih (growCapacity_of_grown hGrow.symm) (by omega)

/-- Beginning without storage, the first round goes to the least capacity. -/
theorem exists_capacityFor_of_start {capacity : UInt64}
    (hStart : capacity.toNat = 0 ∨ Grown capacity.toNat) (needed : UInt64) :
    ∃ found, capacityFor needed 62 capacity = some found := by
  rcases hStart with hZero | ⟨k, hCapacity⟩
  · have hGrow : growCapacity capacity = some 8 := by
      rw [growCapacity, if_pos (UInt64.lt_iff_toNat_lt.mpr (hZero ▸ by decide))]
    unfold capacityFor
    split
    · exact ⟨_, rfl⟩
    · rw [hGrow]
      exact exists_capacityFor (k := 0) rfl (by decide)
  · exact exists_capacityFor hCapacity (Nat.le_trans (by decide) (Nat.le_add_right 62 k))

/-- Planned in words, a reservation does what it does in whole numbers. -/
theorem plan_result {b : Buffer α} {size capacity additional : UInt64}
    (hSize : size.toNat = b.size) (hCapacity : capacity.toNat = b.capacity)
    (hStart : b.capacity = 0 ∨ Grown b.capacity) (heap : Allocator) :
    (plan 62 size capacity additional).map (Plan.result heap b) =
      some (reserve heap additional.toNat b) := by
  have hSum := toNat_sum? size additional
  unfold plan
  cases hNeeded : sum? size additional with
  | none =>
      rw [hNeeded, hSize] at hSum
      have hExcess : maxWord < b.size + additional.toNat := by
        refine Nat.lt_of_not_le fun hFits => ?_
        rw [if_pos hFits] at hSum
        cases hSum
      have hShort : b.capacity < b.size + additional.toNat :=
        Nat.lt_of_le_of_lt (hCapacity ▸ Nat.le_of_lt_succ capacity.toNat_lt) hExcess
      have hTooLarge := Nat.lt_of_le_of_lt (by decide : greatestCapacity ≤ maxWord) hExcess
      rw [reserve_of_excess hStart hShort hTooLarge]
      rfl
  | some needed =>
      rw [hNeeded, hSize] at hSum
      have hIs : needed.toNat = b.size + additional.toNat := by
        split at hSum
        · exact Option.some.inj hSum
        · cases hSum
      simp only
      split
      · rename_i hRoom
        rw [UInt64.le_iff_toNat_le, hIs, hCapacity] at hRoom
        rw [reserve_of_room hRoom]
        rfl
      · rename_i hShort
        rw [UInt64.le_iff_toNat_le, hIs, hCapacity] at hShort
        obtain ⟨found, hFound⟩ := exists_capacityFor_of_start (hCapacity ▸ hStart) needed
        have hEnds := toNat_capacityFor hFound
        rw [hIs, hCapacity] at hEnds
        rw [hFound]
        have hNat : ¬b.items.size + additional.toNat ≤ b.capacity := hShort
        have hCapacityFor : Buffer.capacityFor (b.items.size + additional.toNat) b.capacity =
            found.map UInt64.toNat := hEnds.symm
        simp only [reserve, if_neg hNat, hCapacityFor]
        cases found with
        | none => rfl
        | some larger =>
            have hLe : size.toNat ≤ larger.toNat := by
              rw [hSize]
              exact Nat.le_trans (Nat.le_add_right _ _) (le_capacityFor hCapacityFor)
            have hSlots : b.size + (larger - size).toNat = larger.toNat := by
              rw [UInt64.toNat_sub_of_le _ _ (UInt64.le_iff_toNat_le.mpr hLe), ← hSize]
              exact Nat.add_sub_of_le hLe
            simp only [Option.map_some, Plan.result, hSlots]

end Words

/-- A reservation with room changes nothing. Without room it needs a capacity of eight times a
power of two. If a word can hold one, the heap decides about the least one, and otherwise the
reservation fails. A failure changes nothing, and a success only the capacity. The computation
takes at most 62 rounds of doubling and never relies on a word that has wrapped around. One
reservation after the other leaves what the one for more elements leaves. -/
theorem reserve_closed_form (heap : Allocator) {b : Buffer α} (hSize : b.size ≤ b.capacity)
    (hCapacity : b.capacity = 0 ∨ ∃ k, b.capacity = 8 * 2 ^ k) (hWord : b.capacity ≤ maxWord)
    {additional : Nat} (hAdditional : additional ≤ maxWord) :
    (b.size + additional ≤ b.capacity → reserve heap additional b = .ok () b) ∧
    (b.capacity < b.size + additional → 2 ^ 63 < b.size + additional →
      reserve heap additional b = .error (.outOfMemory (2 ^ 64 - 1)) b) ∧
    (b.capacity < b.size + additional → b.size + additional ≤ 2 ^ 63 →
      ∃ c, IsLeast {c | (∃ j, c = 8 * 2 ^ j) ∧ b.size + additional ≤ c} c ∧
        reserve heap additional b =
          if heap.grants (c * SlotSize.bytes α) then .ok () ⟨b.items, c⟩
          else .error (.outOfMemory c) b) ∧
    (Words.plan 62 (.ofNat b.size) (.ofNat b.capacity) (.ofNat additional)).map
      (Words.Plan.result heap b) = some (reserve heap additional b) ∧
    ∀ (first second both : Allocator) (one other : Nat) (next last : Buffer α),
      (∀ bytes, first.grants bytes = true ∨ second.grants bytes = true →
        both.grants bytes = true) →
      reserve first one b = .ok () next → reserve second other next = .ok () last →
      reserve both (max one other) b = .ok () last := by
  have hStart : b.capacity = 0 ∨ Grown b.capacity := hCapacity
  have hToNat {n : Nat} (h : n ≤ maxWord) : (UInt64.ofNat n).toNat = n :=
    UInt64.toNat_ofNat_of_lt (Nat.lt_succ_of_le h)
  refine ⟨fun hRoom => reserve_of_room hRoom heap,
    fun hShort hExcess => reserve_of_excess hStart hShort hExcess heap,
    fun hShort hFits => ?_, ?_,
    fun _ _ _ _ _ _ _ hBoth hFirst hSecond => reserve_max hStart hBoth hFirst hSecond⟩
  · obtain ⟨c, hEnlarged⟩ := Enlarged.exists_of_le hStart (.inr hFits)
    obtain ⟨-, hSnug, -⟩ :=
      hEnlarged.cases.resolve_left fun h => absurd hShort (Nat.not_lt_of_le h.1)
    refine ⟨c, ?_, reserve_of_short hStart hShort hSnug hFits heap⟩
    rw [Snug, if_neg (Nat.ne_of_gt (Nat.zero_lt_of_lt hShort))] at hSnug
    exact hSnug
  · have hWords := hToNat hAdditional
    calc (Words.plan 62 (.ofNat b.size) (.ofNat b.capacity) (.ofNat additional)).map
          (Words.Plan.result heap b)
        = some (reserve heap (UInt64.ofNat additional).toNat b) :=
          Words.plan_result (hToNat (Nat.le_trans hSize hWord)) (hToNat hWord) hStart heap
      _ = some (reserve heap additional b) := by rw [hWords]

def sparse : Buffer UInt8 := ⟨#[1, 2, 3], 8⟩

/-- So many more elements that their number fits a word and no capacity does. -/
theorem reserve_beyond_capacities :
    reserve .standard 9223372036854775807 sparse =
      .error (.outOfMemory 18446744073709551615) sparse ∧
    reserve .standard (max 6 30) sparse = .ok () ⟨#[1, 2, 3], 64⟩ := by
  have hSize : sparse.size ≤ sparse.capacity := by decide
  have hWord : sparse.capacity ≤ maxWord := by decide
  have hAdditional : 9223372036854775807 ≤ maxWord := by decide
  obtain ⟨-, hExcess, -, -, hTwo⟩ :=
    reserve_closed_form .standard hSize (.inr ⟨0, rfl⟩) hWord hAdditional
  have hFirst : reserve .standard 6 sparse = .ok () ⟨#[1, 2, 3], 16⟩ := by
    with_unfolding_all rfl
  have hSecond : reserve .standard 30 ⟨#[1, 2, 3], 16⟩ =
      .ok () (⟨#[1, 2, 3], 64⟩ : Buffer UInt8) := by
    with_unfolding_all rfl
  refine ⟨hExcess (by decide) (by decide), ?_⟩
  exact hTwo _ _ .standard 6 30 _ _ (fun _ h => h.elim id id) hFirst hSecond

end StackMachine.Buffer
