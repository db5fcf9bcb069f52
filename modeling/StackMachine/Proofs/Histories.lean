import Mathlib.Data.List.DropRight
import StackMachine.Proofs.Capacity

/-! Histories of buffers. A buffer is kept beside the record of what was asked of it and how each
request was answered, and a copy shares the record up to the time when it was made. The record
alone says which elements a buffer holds. -/
namespace StackMachine.Buffer

variable {α : Type}

inductive Request (α : Type) where
  | append (x : α)
  | reserve (additional : Nat)
  | reserveOne
  | release

namespace Request

def elements : Request α → List α
  | .append x => [x]
  | .reserve _ | .reserveOne | .release => []

def additional : Request α → Nat
  | .append _ | .reserveOne => 1
  | .reserve additional => additional
  | .release => 0

def isRelease : Request α → Bool
  | .release => true
  | .append _ | .reserve _ | .reserveOne => false

theorem length_elements_le (request : Request α) :
    request.elements.length ≤ request.additional := by
  cases request with
  | append x => exact Nat.le_refl 1
  | _ => exact Nat.zero_le _

/-- The answer to a request that succeeds on a buffer of some size. Only an append has one, which
is the index of its element. -/
def answer (size : Nat) : Request α → Option Nat
  | .append _ => some size
  | .reserve _ | .reserveOne | .release => none

def perform [SlotSize α] (heap : Allocator) : Request α → Build (Buffer α) (Option Nat)
  | .append x => do return some (← Buffer.append heap x)
  | .reserve additional => do
    Buffer.reserve heap additional
    return none
  | .reserveOne => do
    Buffer.reserveOne heap
    return none
  | .release => do
    Buffer.release
    return none

def store (request : Request α) : Build (Buffer α) (Option Nat) := fun b =>
  .ok (request.answer b.size) ⟨b.items ++ request.elements.toArray, b.capacity⟩

/-- All that a request asks the heap for is one reservation, unless it is a release. -/
theorem perform_eq [SlotSize α] {request : Request α} (h : request.isRelease = false)
    (heap : Allocator) (b : Buffer α) :
    request.perform heap b =
      (Buffer.reserve heap request.additional >>= fun _ => request.store) b := by
  cases request with
  | append x =>
      change ((Buffer.reserve heap 1 >>= fun _ => push x) >>= fun index => pure (some index)) b =
        (Buffer.reserve heap 1 >>= fun _ => store (.append x)) b
      simp only [bind, EStateM.bind]
      cases Buffer.reserve heap 1 b <;> rfl
  | reserve additional =>
      change (Buffer.reserve heap additional >>= fun _ => pure none) b =
        (Buffer.reserve heap additional >>= fun _ => store (.reserve additional)) b
      simp only [bind, EStateM.bind]
      cases Buffer.reserve heap additional b <;> rfl
  | reserveOne =>
      change (Buffer.reserve heap 1 >>= fun _ => pure none) b =
        (Buffer.reserve heap 1 >>= fun _ => store .reserveOne) b
      simp only [bind, EStateM.bind]
      cases Buffer.reserve heap 1 b <;> rfl
  | release => cases h

end Request

/-- Room for the elements, in a capacity that growth passes through. -/
structure Regular (b : Buffer α) : Prop where
  size_le : b.size ≤ b.capacity
  capacity : b.capacity = 0 ∨ Grown b.capacity

theorem regular_empty : (empty : Buffer α).Regular := ⟨Nat.le_refl 0, .inl rfl⟩

/-- What a request may do to a buffer. A release empties it. Any other request, if it succeeds,
adds its elements and changes the capacity for want of room only, upwards. Without room it may
fail as well, and then it changes nothing. -/
def Request.Respects (request : Request α) (b : Buffer α) :
    EStateM.Result BuildError (Buffer α) (Option Nat) → Prop
  | .ok answer next =>
    answer = request.answer b.size ∧ next.Regular ∧
      if request.isRelease then next.toList = [] ∧ next.capacity = 0
      else
        next.toList = b.toList ++ request.elements ∧ b.capacity ≤ next.capacity ∧
          (b.size + request.additional ≤ b.capacity → next.capacity = b.capacity)
  | .error _ next =>
    next = b ∧ request.isRelease = false ∧ b.capacity < b.size + request.additional

/-- What is asked of a regular buffer is answered as it should be. -/
theorem Regular.respects [SlotSize α] {b : Buffer α} (h : b.Regular) (heap : Allocator)
    (request : Request α) : request.Respects b (request.perform heap b) := by
  cases hRelease : request.isRelease with
  | true =>
      cases request with
      | release => exact ⟨rfl, regular_empty, rfl, rfl⟩
      | _ => cases hRelease
  | false =>
      have hStored {capacity : Nat}
          (hReserve : reserve heap request.additional b = .ok () ⟨b.items, capacity⟩)
          (hRoom : b.size + request.additional ≤ capacity)
          (hCapacity : capacity = 0 ∨ Grown capacity) (hLe : b.capacity ≤ capacity)
          (hSame : b.size + request.additional ≤ b.capacity → capacity = b.capacity) :
          request.Respects b (request.perform heap b) := by
        rw [Request.perform_eq hRelease]
        simp only [bind, EStateM.bind, hReserve]
        refine ⟨rfl, ⟨?_, hCapacity⟩, ?_⟩
        · refine Nat.le_trans ?_ hRoom
          change (b.items ++ request.elements.toArray).size ≤ b.items.size + request.additional
          rw [Array.size_append]
          exact Nat.add_le_add_left request.length_elements_le b.items.size
        · rw [hRelease]
          exact ⟨Array.toList_append, hLe, hSame⟩
      rcases reserve_growth heap request.additional h.capacity with
        ⟨hRoom, hKept⟩ | ⟨hShort, ⟨capacity, hGrown, hSnug⟩ | ⟨requested, hRefused⟩⟩
      · exact hStored hKept hRoom h.capacity (Nat.le_refl _) fun _ => rfl
      · exact hStored hGrown hSnug.le hSnug.zero_or_grown
          (Nat.le_of_lt (Nat.lt_of_lt_of_le hShort hSnug.le))
          fun hRoom => absurd hShort (Nat.not_lt_of_le hRoom)
      · rw [Request.perform_eq hRelease]
        simp only [bind, EStateM.bind, hRefused]
        exact ⟨rfl, hRelease, hShort⟩

structure Answered (α : Type) where
  request : Request α
  answer : Except BuildError (Option Nat)
  capacity : Nat

/-- The elements that a request has brought, which are none if it has failed. -/
def Answered.brought (a : Answered α) : List α :=
  match a.answer with
  | .ok _ => a.request.elements
  | .error _ => []

/-- The elements of the successful appends since the last release. -/
def appended (log : List (Answered α)) : List α :=
  (log.rtakeWhile fun a => !a.request.isRelease).flatMap Answered.brought

theorem appended_concat (log : List (Answered α)) (a : Answered α) :
    appended (log ++ [a]) = if a.request.isRelease then [] else appended log ++ a.brought := by
  unfold appended
  rw [List.rtakeWhile_concat]
  cases a.request.isRelease with
  | true => rfl
  | false =>
      change (List.rtakeWhile _ log ++ [a]).flatMap Answered.brought = _
      rw [List.flatMap_append, List.flatMap_singleton]
      rfl

/-- An answer stands: the capacity has not become smaller since, and the index that was returned
for an element still leads to it. -/
def Answered.Stands (a : Answered α) (past : List (Answered α)) (b : Buffer α) : Prop :=
  a.capacity ≤ b.capacity ∧ ∀ x index, a.request = .append x → a.answer = .ok index →
    index = some (appended past).length ∧ b.get? (appended past).length = some x

/-- An answer given once stays true while the buffer only grows. -/
theorem Answered.Stands.mono {a : Answered α} {past : List (Answered α)} {b next : Buffer α}
    (h : a.Stands past b) (hItems : b.toList <+: next.toList)
    (hCapacity : b.capacity ≤ next.capacity) : a.Stands past next := by
  refine ⟨Nat.le_trans h.1 hCapacity, fun x index hRequest hAnswer => ?_⟩
  obtain ⟨hIndex, hAt⟩ := h.2 x index hRequest hAnswer
  refine ⟨hIndex, ?_⟩
  rw [get?, ← Array.getElem?_toList] at hAt ⊢
  obtain ⟨more, hMore⟩ := hItems
  change next.toList[_]? = _
  rw [← hMore]
  exact (List.getElem?_append_left (List.getElem?_eq_some_iff.mp hAt).1).trans hAt

structure Kept (α : Type) where
  buffer : Buffer α
  log : List (Answered α)

namespace Kept

def ask [SlotSize α] (heap : Allocator) (request : Request α) (kept : Kept α) : Kept α :=
  match request.perform heap kept.buffer with
  | .ok answer next => ⟨next, kept.log ++ [⟨request, .ok answer, next.capacity⟩]⟩
  | .error error next => ⟨next, kept.log ++ [⟨request, .error error, next.capacity⟩]⟩

/-- The record accounts for the elements, and every answer since the last release stands. -/
structure Sound (kept : Kept α) : Prop where
  regular : kept.buffer.Regular
  elements : kept.buffer.toList = appended kept.log
  stands : ∀ past a later, kept.log = past ++ a :: later →
    (∀ since ∈ later, since.request.isRelease = false) → a.Stands past kept.buffer

theorem sound_empty : (⟨empty, []⟩ : Kept α).Sound :=
  ⟨regular_empty, rfl, fun _ _ _ hLog => absurd hLog (by simp)⟩

/-- One answer more. The older ones stand if the buffer keeps what it has. -/
theorem Sound.answered {kept : Kept α} (h : kept.Sound) {a : Answered α} {next : Buffer α}
    (hRegular : next.Regular) (hElements : next.toList = appended (kept.log ++ [a]))
    (hStands : a.Stands kept.log next)
    (hKeeps : a.request.isRelease = false →
      kept.buffer.toList <+: next.toList ∧ kept.buffer.capacity ≤ next.capacity) :
    (⟨next, kept.log ++ [a]⟩ : Kept α).Sound := by
  refine ⟨hRegular, hElements, fun past older later hLog hLater => ?_⟩
  rcases List.eq_nil_or_concat later with rfl | ⟨between, last, rfl⟩
  · obtain ⟨rfl, hLast⟩ := List.append_inj' hLog rfl
    cases hLast
    exact hStands
  · rw [List.concat_eq_append, ← List.cons_append, ← List.append_assoc] at hLog
    obtain ⟨hPast, hLast⟩ := List.append_inj' hLog rfl
    cases hLast
    obtain ⟨hItems, hCapacity⟩ := hKeeps (hLater a (by simp))
    have hBetween : ∀ since ∈ between, since.request.isRelease = false :=
      fun since hSince => hLater since (by simp [hSince])
    exact (h.stands past older between hPast hBetween).mono hItems hCapacity

/-- One more request keeps the record true of the buffer, granted or refused. -/
theorem Sound.ask [SlotSize α] {kept : Kept α} (h : kept.Sound) (heap : Allocator)
    (request : Request α) : (kept.ask heap request).Sound := by
  have hRespects := h.regular.respects heap request
  have hSize : kept.buffer.size = (appended kept.log).length := congrArg List.length h.elements
  unfold Kept.ask
  cases hPerform : request.perform heap kept.buffer with
  | ok answer next =>
      rw [hPerform] at hRespects
      obtain ⟨rfl, hRegular, hNext⟩ := hRespects
      cases hRelease : request.isRelease with
      | true =>
          rw [hRelease, if_pos rfl] at hNext
          refine h.answered hRegular ?_ ⟨Nat.le_refl _, fun x index hRequest _ => ?_⟩ ?_
          · rw [appended_concat, if_pos hRelease]
            exact hNext.1
          · rw [show request = .append x from hRequest] at hRelease
            cases hRelease
          · exact fun hOther => absurd (hRelease.symm.trans hOther) (by decide)
      | false =>
          rw [hRelease, if_neg (by decide)] at hNext
          obtain ⟨hItems, hCapacity, -⟩ := hNext
          refine h.answered hRegular ?_ ⟨Nat.le_refl _, fun x index hRequest hAnswer => ?_⟩
            fun _ => ⟨⟨_, hItems.symm⟩, hCapacity⟩
          · rw [appended_concat, hRelease, if_neg (by decide), ← h.elements]
            exact hItems
          · cases show request = .append x from hRequest
            cases hAnswer
            refine ⟨congrArg some hSize, ?_⟩
            rw [get?, ← Array.getElem?_toList, ← hSize]
            change next.toList[_]? = _
            rw [hItems]
            exact List.getElem?_concat_length
  | error error next =>
      rw [hPerform] at hRespects
      obtain ⟨rfl, hRelease, -⟩ := hRespects
      refine h.answered h.regular ?_ ⟨Nat.le_refl _, fun x index _ hAnswer => nomatch hAnswer⟩
        fun _ => ⟨List.prefix_rfl, Nat.le_refl _⟩
      rw [appended_concat, hRelease, if_neg (by decide), h.elements]
      exact (List.append_nil _).symm

end Kept

structure Desk (α : Type) where
  inHand : Kept α
  aside : Kept α

inductive Move (α : Type) where
  | ask (heap : Allocator) (request : Request α)
  /-- Set a copy of the buffer in hand aside. -/
  | save
  /-- Exchange the two buffers. -/
  | swap

namespace Desk

def start : Desk α := ⟨⟨empty, []⟩, ⟨empty, []⟩⟩

variable [SlotSize α]

/-- A copy comes with the elements, the capacity and the record of its model. -/
def move (desk : Desk α) : Move α → Desk α
  | .ask heap request => { desk with inHand := desk.inHand.ask heap request }
  | .save => { desk with aside := desk.inHand }
  | .swap => ⟨desk.aside, desk.inHand⟩

def after (moves : List (Move α)) : Desk α := moves.foldl move start

theorem sound_move {desk : Desk α} (h : desk.inHand.Sound ∧ desk.aside.Sound) (m : Move α) :
    (desk.move m).inHand.Sound ∧ (desk.move m).aside.Sound := by
  cases m with
  | ask heap request => exact ⟨h.1.ask heap request, h.2⟩
  | save => exact ⟨h.1, h.1⟩
  | swap => exact ⟨h.2, h.1⟩

/-- After any moves both buffers are what their records say. -/
theorem sound_after (moves : List (Move α)) :
    (after moves).inHand.Sound ∧ (after moves).aside.Sound := by
  induction moves using List.reverseRecOn with
  | nil => exact ⟨Kept.sound_empty, Kept.sound_empty⟩
  | append_singleton moves m ih =>
      rw [after, List.foldl_append]
      exact sound_move ih m

end Desk

/-- Every way to read a buffer shows the same elements. -/
structure Shows (b : Buffer α) (xs : List α) : Prop where
  toList : b.toList = xs
  toArray : b.toArray = xs.toArray
  size : b.size = xs.length
  isEmpty : b.isEmpty = xs.isEmpty
  get? : ∀ index, b.get? index = xs[index]?
  get?_eq_none : ∀ index, b.get? index = none ↔ b.size ≤ index
  getElem : ∀ index (h : index < b.size), xs[index]? = some b[index]
  forIn : ∀ {m : Type → Type} [Monad m] {σ : Type} (init : σ) (f : α → σ → m (ForInStep σ)),
    forIn b init f = forIn xs init f

/-- A buffer shows its own elements through every accessor. -/
theorem shows_toList (b : Buffer α) : b.Shows b.toList where
  toList := rfl
  toArray := rfl
  size := rfl
  isEmpty := Array.isEmpty_toList.symm
  get? := fun _ => Array.getElem?_toList.symm
  get?_eq_none := fun _ => Array.getElem?_eq_none_iff
  getElem := fun _ h => Array.getElem?_toList.trans (Array.getElem?_eq_getElem h)
  forIn := fun _ _ => Array.forIn_toList.symm

/-- Whatever is asked of a buffer, of a copy and of the two exchanged, the elements of a buffer
are those of its successful appends since its last release. The capacity has room for them and
comes from doubling. Since the last release it has not become smaller, each append has returned
the number of elements before it, and the element is still there. Every further request is
answered accordingly, and a request that fails changes nothing. -/
theorem buffer_matches_record [SlotSize α] (moves : List (Move α)) (kept : Kept α)
    (hKept : kept = (Desk.after moves).inHand ∨ kept = (Desk.after moves).aside) :
    kept.buffer.Shows (appended kept.log) ∧
    kept.buffer.size ≤ kept.buffer.capacity ∧
    (kept.buffer.capacity = 0 ∨ ∃ k, kept.buffer.capacity = 8 * 2 ^ k) ∧
    (∀ past a later, kept.log = past ++ a :: later →
      (∀ since ∈ later, since.request.isRelease = false) →
      a.capacity ≤ kept.buffer.capacity ∧
      ∀ x index, a.request = .append x → a.answer = .ok index →
        index = some (appended past).length ∧
        kept.buffer.get? (appended past).length = some x) ∧
    ∀ heap (request : Request α), request.Respects kept.buffer (request.perform heap kept.buffer) := by
  have hSound : kept.Sound := by
    rcases hKept with rfl | rfl
    · exact (Desk.sound_after moves).1
    · exact (Desk.sound_after moves).2
  refine ⟨?_, hSound.regular.size_le, hSound.regular.capacity, hSound.stands,
    hSound.regular.respects⟩
  rw [← hSound.elements]
  exact kept.buffer.shows_toList

/-- Between two appends a reservation is refused and a copy is set aside. The copy is appended to
as well. -/
def parting : List (Move UInt8) :=
  [.ask .standard (.append 1), .ask .standard (.reserve maxWord), .save,
    .ask .standard (.append 2), .swap, .ask .standard (.append 3), .swap,
    .ask .standard (.reserve 8)]

/-- The element that was appended first is still there in the buffer and in the copy, which then
go separate ways. -/
theorem buffer_matches_record_of_parting :
    (Desk.after parting).inHand.buffer.toList = [1, 2] ∧
    (Desk.after parting).inHand.buffer.capacity = 16 ∧
    (Desk.after parting).aside.buffer.toList = [1, 3] ∧
    (Desk.after parting).aside.buffer.get? 0 = some 1 := by
  obtain ⟨hInHand, -⟩ := buffer_matches_record parting _ (.inl rfl)
  obtain ⟨hAside, -, -, hStands, -⟩ := buffer_matches_record parting _ (.inr rfl)
  have hFirst : (Desk.after parting).aside.log = [] ++ ⟨.append 1, .ok (some 0), 8⟩ ::
      [⟨.reserve maxWord, .error (.outOfMemory maxWord), 8⟩, ⟨.append 3, .ok (some 1), 8⟩] := by
    with_unfolding_all rfl
  have hLater : ∀ since ∈ [⟨.reserve maxWord, .error (.outOfMemory maxWord), 8⟩,
      (⟨.append 3, .ok (some 1), 8⟩ : Answered UInt8)], since.request.isRelease = false := by
    decide
  refine ⟨hInHand.toList.trans (by decide +kernel), by decide +kernel,
    hAside.toList.trans (by decide +kernel), ?_⟩
  exact ((hStands _ _ _ hFirst hLater).2 1 (some 0) rfl rfl).2

end StackMachine.Buffer
