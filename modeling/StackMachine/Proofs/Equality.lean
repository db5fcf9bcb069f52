import StackMachine.Proofs.Capacity
import StackMachine.Proofs.Construction

/-! Equality of chunks compares capacities too. They make no difference as long as memory does
not run out: whatever is written in whatever order, each buffer ends up with the least capacity
that holds its elements. -/
namespace StackMachine

open Buffer (Snug)

namespace Value

/-- Not-a-number differs from every number. -/
theorem beq_of_isNaN {x : Float} (h : x.isNaN = true) (y : Float) : (x == y) = false := by
  change (x.toModel.unpack.compare y.toModel.unpack == some .eq) = false
  change x.toModel.unpack.isNaN = true at h
  cases hUnpack : x.toModel.unpack with
  | notANumber => rfl
  | _ =>
      rw [hUnpack] at h
      cases h

/-- Nothing equals a NaN, not even another one. -/
theorem beq_isNaN {y : Float} (h : y.isNaN = true) (x : Float) : (x == y) = false := by
  change (x.toModel.unpack.compare y.toModel.unpack == some .eq) = false
  change y.toModel.unpack.isNaN = true at h
  cases hUnpack : y.toModel.unpack with
  | notANumber => cases x.toModel.unpack <;> rfl
  | _ =>
      rw [hUnpack] at h
      cases h

/-- Every other number equals itself. -/
theorem beq_self {x : Float} (h : x.isNaN = false) : (x == x) = true := by
  change (x.toModel.unpack.compare x.toModel.unpack == some .eq) = true
  change x.toModel.unpack.isNaN = false at h
  cases hUnpack : x.toModel.unpack with
  | infinity sign => cases sign <;> rfl
  | notANumber =>
      rw [hUnpack] at h
      cases h
  | zero sign => rfl
  | finite sign mantissa exponent hPositive =>
      have hEqual : (compare exponent exponent).then (compare mantissa mantissa) = .eq := by simp
      cases sign with
      | positive => exact congrArg (some · == some .eq) hEqual
      | negative => exact congrArg (some ·.swap == some .eq) hEqual

end Value

namespace Chunk

/-- The capacities are the least ones with room for the contents, for so many bytes more with
their lines, and for so many constants more. -/
structure Fits (chunk : Chunk) (bytes values : Nat) : Prop where
  code : Snug (chunk.code.size + bytes) chunk.code.capacity
  lines : Snug (chunk.lines.size + bytes) chunk.lines.capacity
  constants : Snug (chunk.constants.size + values) chunk.constants.capacity

/-- No buffer has more capacity than its elements account for. -/
def Tight (chunk : Chunk) : Prop := chunk.Fits 0 0

theorem tight_empty : empty.Tight := ⟨rfl, rfl, rfl⟩

variable {chunk : Chunk} {bytes values : Nat}

/-- Making room leaves three buffers that fit what is to be appended. -/
theorem makeRoom_fits (h : chunk.Fits 0 values) (forCode forLines : Allocator) (bytes : Nat) :
    Builds (makeRoom forCode forLines bytes chunk) (fun _ room => room.Fits bytes values)
      (fun _ => True) := by
  obtain ⟨code, lines, constants⟩ := chunk
  obtain ⟨hCode, hLines, hConstants⟩ := h
  simp only [makeRoom, Bind.bind, EStateM.bind, onCode, onLines]
  rcases Buffer.reserve_tight forCode bytes hCode with ⟨room, hReserve, hRoom⟩ | ⟨n, hReserve⟩
  · rcases Buffer.reserve_tight forLines bytes hLines with
      ⟨lineRoom, hReserveLines, hLineRoom⟩ | ⟨n, hReserveLines⟩
    · simp only [hReserve, hReserveLines]
      exact .inl ⟨(), _, rfl, hRoom, hLineRoom, hConstants⟩
    · simp only [hReserve, hReserveLines]
      exact .inr ⟨n, _, rfl, trivial⟩
  · simp only [hReserve]
    exact .inr ⟨n, _, rfl, trivial⟩

/-- Appending a byte uses up room and leaves the capacities alone. -/
theorem append_fits (h : chunk.Fits (bytes + 1) values) (heap : Allocator) (line : Nat)
    (byte : UInt8) :
    ∃ next, append heap line byte chunk = .ok () next ∧ next.Fits bytes values := by
  obtain ⟨code, lines, constants⟩ := chunk
  obtain ⟨hCode, hLines, hConstants⟩ := h
  have hCodeRoom : code.items.size + 1 ≤ code.capacity :=
    Nat.le_trans (Nat.add_le_add_left (Nat.le_add_left 1 bytes) _) hCode.le
  have hLineRoom : lines.items.size + 1 ≤ lines.capacity :=
    Nat.le_trans (Nat.add_le_add_left (Nat.le_add_left 1 bytes) _) hLines.le
  refine ⟨⟨⟨code.items.push byte, code.capacity⟩, ⟨lines.items.push line, lines.capacity⟩,
    constants⟩, ?_, ?_, ?_, hConstants⟩
  · simp only [append, Bind.bind, EStateM.bind, onCode, onLines,
      Buffer.append_of_room hCodeRoom, Buffer.append_of_room hLineRoom]
    rfl
  · change Snug ((code.items.push byte).size + bytes) code.capacity
    rw [Array.size_push, Nat.add_right_comm]
    exact hCode
  · change Snug ((lines.items.push line).size + bytes) lines.capacity
    rw [Array.size_push, Nat.add_right_comm]
    exact hLines

/-- Appends into room made before cannot fail and use it up. -/
theorem forM_append_fits {written : List UInt8} (h : chunk.Fits written.length values)
    (heap : Allocator) (line : Nat) :
    ∃ next, written.forM (append heap line) chunk = .ok () next ∧ next.Fits 0 values := by
  induction written generalizing chunk with
  | nil => exact ⟨chunk, rfl, h⟩
  | cons byte rest ih =>
      obtain ⟨middle, hFirst, hMiddle⟩ := append_fits h heap line byte
      obtain ⟨next, hRest, hNext⟩ := ih hMiddle
      refine ⟨next, ?_, hNext⟩
      change (append heap line byte >>= fun _ => rest.forM (append heap line)) chunk = _
      simp only [Bind.bind, EStateM.bind, hFirst]
      exact hRest

theorem reserveConstant_fits (h : chunk.Fits bytes 0) (heap : Allocator) :
    Builds (onConstants (Buffer.reserveOne heap) chunk) (fun _ room => room.Fits bytes 1)
      (fun _ => True) := by
  obtain ⟨code, lines, constants⟩ := chunk
  obtain ⟨hCode, hLines, hConstants⟩ := h
  simp only [onConstants, Buffer.reserveOne]
  rcases Buffer.reserve_tight heap 1 hConstants with ⟨room, hReserve, hRoom⟩ | ⟨n, hReserve⟩
  · simp only [hReserve]
    exact .inl ⟨(), _, rfl, hCode, hLines, hRoom⟩
  · simp only [hReserve]
    exact .inr ⟨n, _, rfl, trivial⟩

/-- With room in the pool, a constant is added without asking for more. -/
theorem addConstant_fits (h : chunk.Fits bytes (values + 1)) (heap : Allocator)
    (value : Value) :
    ∃ index next, addConstant heap value chunk = .ok index next ∧ next.Fits bytes values := by
  obtain ⟨code, lines, constants⟩ := chunk
  obtain ⟨hCode, hLines, hConstants⟩ := h
  have hRoom : constants.items.size + 1 ≤ constants.capacity :=
    Nat.le_trans (Nat.add_le_add_left (Nat.le_add_left 1 values) _) hConstants.le
  refine ⟨constants.items.size, ⟨code, lines, ⟨constants.items.push value, constants.capacity⟩⟩,
    ?_, hCode, hLines, ?_⟩
  · simp only [addConstant, onConstants, Buffer.append_of_room hRoom]
  · change Snug ((constants.items.push value).size + values) constants.capacity
    rw [Array.size_push, Nat.add_right_comm]
    exact hConstants

/-- A write either keeps the canonical capacities or runs out of memory. -/
theorem write_tight (h : chunk.Tight) (heap : Allocator) (byte : UInt8) (line : Nat) :
    Builds (write heap byte line chunk) (fun _ next => next.Tight) (fun _ => True) := by
  rw [write_eq]
  apply (makeRoom_fits h heap heap 1).bind
  intro _ room hRoom
  obtain ⟨next, hAppend, hNext⟩ := append_fits hRoom heap line byte
  exact .inl ⟨(), next, hAppend, hNext⟩

theorem addConstant_tight (h : chunk.Tight) (heap : Allocator) (value : Value) :
    Builds (addConstant heap value chunk) (fun _ next => next.Tight) (fun _ => True) := by
  rw [addConstant_eq]
  apply (reserveConstant_fits h heap).bind
  intro _ room hRoom
  refine .inl ⟨_, _, rfl, hRoom.code, hRoom.lines, ?_⟩
  change Snug (room.constants.items.push value).size room.constants.capacity
  rw [Array.size_push]
  exact hRoom.constants

/-- A constant that is written too: the pool is enlarged before the other two buffers. -/
theorem writeConstant_tight (h : chunk.Tight) (hRoom : chunk.constants.size < constantLimit)
    (heap : Allocator) (value : Value) (line : Nat) :
    Builds (writeConstant heap value line chunk) (fun _ next => next.Tight)
      (fun _ => True) := by
  rw [writeConstant_of_not_full hRoom]
  have hReserved : Builds (makeRoomForLoad heap heap heap
      (Instruction.load chunk.constants.size).encode.length chunk)
      (fun _ room => room.Fits (Instruction.load chunk.constants.size).encode.length 1)
      (fun _ => True) := by
    apply (reserveConstant_fits h heap).bind
    intro _ room hPool
    exact makeRoom_fits hPool heap heap _
  apply hReserved.bind
  intro _ room hFits
  obtain ⟨index, middle, hAdd, hMiddle⟩ := addConstant_fits hFits heap value
  obtain ⟨next, hAppend, hNext⟩ := forM_append_fits hMiddle heap line
  refine .inl ⟨chunk.constants.size, next, ?_, hNext⟩
  simp only [appendLoad, Bind.bind, EStateM.bind, hAdd, hAppend]
  rfl

/-- A chunk that can be built without running out of memory. A constant that finds the pool full
may have been refused on the way. -/
inductive Granted : Chunk → Prop where
  | start : Granted empty
  | step {chunk : Chunk} (prior : Granted chunk) (heap : Allocator) (step : BuildStep)
      (hMemory : ¬RanOutOfMemory (step.perform heap chunk)) : Granted (step.leave heap chunk)

def NeverShort (heap : Allocator) : List BuildStep → Chunk → Prop
  | [], _ => True
  | step :: rest, chunk =>
    ¬RanOutOfMemory (step.perform heap chunk) ∧ NeverShort heap rest (step.leave heap chunk)

instance decidableNeverShort (heap : Allocator) :
    (steps : List BuildStep) → (chunk : Chunk) → Decidable (NeverShort heap steps chunk)
  | [], _ => inferInstanceAs (Decidable True)
  | step :: rest, chunk =>
    have := decidableNeverShort heap rest (step.leave heap chunk)
    inferInstanceAs (Decidable (_ ∧ _))

/-- More calls that are never short of memory keep a chunk granted. -/
theorem Granted.afterSteps (h : chunk.Granted) {heap : Allocator} {steps : List BuildStep}
    (hMemory : NeverShort heap steps chunk) : (chunk.afterSteps heap steps).Granted := by
  induction steps generalizing chunk with
  | nil => exact h
  | cons step rest ih => exact ih (h.step heap step hMemory.1) hMemory.2

theorem tight_leave (h : chunk.Tight) {heap : Allocator} {step : BuildStep}
    (hMemory : ¬RanOutOfMemory (step.perform heap chunk)) : (step.leave heap chunk).Tight := by
  have hOfBuilds (hBuilds : Builds (step.perform heap chunk) (fun _ next => next.Tight)
      (fun _ => True)) : (step.leave heap chunk).Tight := by
    obtain ⟨_, next, hOk, hNext⟩ := hBuilds.of_memory hMemory
    rw [BuildStep.leave, hOk]
    exact hNext
  cases step with
  | write byte line => exact hOfBuilds (write_tight h heap byte line)
  | writeOpcode opcode line => exact hOfBuilds (write_tight h heap opcode.byte line)
  | addConstant value =>
      apply hOfBuilds
      apply (addConstant_tight h heap value).bind
      intro _ next hNext
      exact .inl ⟨(), next, rfl, hNext⟩
  | writeConstant value line =>
      rcases Nat.lt_or_ge chunk.constants.size constantLimit with hRoom | hFull
      · apply hOfBuilds
        apply (writeConstant_tight h hRoom heap value line).bind
        intro _ next hNext
        exact .inl ⟨(), next, rfl, hNext⟩
      · simp only [BuildStep.leave, BuildStep.perform, Bind.bind, EStateM.bind,
          writeConstant_of_full hFull]
        exact h
  | release => exact tight_empty
  | copy => exact h

/-- The capacities of a granted chunk depend on its contents only. -/
theorem Granted.tight (h : chunk.Granted) : chunk.Tight := by
  induction h with
  | start => exact tight_empty
  | step prior heap step hMemory ih => exact tight_leave ih hMemory

/-- Add a constant, and then write the opcode and the operand bytes of its load one by one. -/
def writeLoadByHand (heap : Allocator) (value : Value) (line : Nat) : Build Chunk Nat := do
  let index ← addConstant heap value
  let i := Instruction.load index
  writeOpcode heap i.opcode line
  (Operand.write i.opcode.operandWidth (i.operand.getD 0)).forM fun byte => write heap byte line
  return index

theorem forM_write_tight (h : chunk.Tight) (heap : Allocator) (line : Nat)
    (written : List UInt8) :
    Builds (written.forM (fun byte => write heap byte line) chunk)
      (fun _ next => next.Tight ∧ next.contents = chunk.contents.emit line written)
      (fun _ => True) := by
  induction written generalizing chunk with
  | nil => exact .inl ⟨(), chunk, rfl, h, (chunk.contents.emit_nil line).symm⟩
  | cons byte rest ih =>
      apply ((write_tight h heap byte line).and (write_allOrNothing heap byte line chunk)).bind
      rintro _ middle ⟨hMiddle, hByte⟩
      refine (ih hMiddle).imp ?_ (fun _ => id)
      rintro _ next ⟨hNext, hRest⟩
      rw [hRest, hByte, Contents.emit_emit]
      exact ⟨hNext, rfl⟩

/-- A load written by hand leaves what `writeConstant` leaves. -/
theorem writeLoadByHand_builds (h : chunk.Tight) (heap : Allocator) (value : Value)
    (line : Nat) :
    Builds (writeLoadByHand heap value line chunk)
      (fun index next => next.Tight ∧ index = chunk.constants.size ∧
        next.contents = (chunk.contents.learn value).emit line
          (Instruction.load chunk.constants.size).encode)
      (fun _ => True) := by
  apply ((addConstant_tight h heap value).and (addConstant_allOrNothing heap value chunk)).bind
  rintro _ first ⟨hFirst, rfl, hLearned⟩
  apply ((write_tight hFirst heap _ line).and (write_allOrNothing heap _ line first)).bind
  rintro _ second ⟨hSecond, hOpcode⟩
  apply (forM_write_tight hSecond heap line _).bind
  rintro _ next ⟨hNext, hOperand⟩
  refine .inl ⟨_, next, rfl, hNext, rfl, ?_⟩
  rw [hOperand, hOpcode, hLearned, Contents.emit_emit]
  rfl

/-- The pools have equally many constants, and those of the same index are equal as numbers. -/
def SameNumbers (first second : ConstantPool) : Prop :=
  first.size = second.size ∧ ∀ (k : Nat) (x y : Float),
    first.get? k = some (.number x) → second.get? k = some (.number y) → (x == y) = true

/-- Pools compare equal when their numbers do, place by place. -/
theorem items_beq_iff_sameNumbers {first second : ConstantPool} :
    (first.items == second.items) = true ↔ SameNumbers first second := by
  rw [Array.beq_eq_decide]
  constructor
  · intro h
    split at h
    · rename_i hSize
      refine ⟨hSize, fun k x y hFirst hSecond => ?_⟩
      obtain ⟨hInside, hX⟩ := Array.getElem?_eq_some_iff.mp hFirst
      obtain ⟨_, hY⟩ := Array.getElem?_eq_some_iff.mp hSecond
      have hSame := of_decide_eq_true h k hInside
      rw [hX, hY] at hSame
      exact hSame
    · cases h
  · rintro ⟨hSize, hNumbers⟩
    have hSizes : first.items.size = second.items.size := hSize
    rw [dif_pos hSizes]
    refine decide_eq_true fun k hInside => ?_
    have hSecond : k < second.items.size := hSizes ▸ hInside
    exact hNumbers k first.items[k].toFloat second.items[k].toFloat
      (Array.getElem?_eq_getElem hInside) (Array.getElem?_eq_getElem hSecond)

end Chunk

namespace Buffer

variable {α : Type} [BEq α] {first second : Buffer α}

theorem items_of_beq (h : (first == second) = true) : (first.items == second.items) = true :=
  (Bool.and_eq_true_iff.mp h).1

/-- Equally many elements are held in the same capacity. -/
theorem Tight.beq_iff (hFirst : first.Tight) (hSecond : second.Tight)
    (hSize : (first.items == second.items) = true → first.size = second.size) :
    (first == second) = true ↔ (first.items == second.items) = true := by
  refine ⟨items_of_beq, fun hItems => ?_⟩
  have hSnug : Snug second.size first.capacity := hSize hItems ▸ hFirst
  exact Bool.and_eq_true_iff.mpr ⟨hItems, beq_iff_eq.mpr (hSnug.unique hSecond)⟩

/-- Tight buffers are equal when their elements are. -/
theorem Tight.beq_iff_toList [LawfulBEq α] (hFirst : first.Tight) (hSecond : second.Tight) :
    (first == second) = true ↔ first.toList = second.toList := by
  rw [hFirst.beq_iff hSecond (fun h => congrArg Array.size (eq_of_beq h)), beq_iff_eq]
  exact Array.toList_inj.symm

end Buffer

namespace Chunk

theorem constants_of_beq {a b : Chunk} (h : (a == b) = true) :
    SameNumbers a.constants b.constants :=
  items_beq_iff_sameNumbers.mp (Buffer.items_of_beq (Bool.and_eq_true_iff.mp h).2)

/-- Where the capacities are tight, equality is equality of the contents. -/
theorem Tight.beq_iff {a b : Chunk} (hA : a.Tight) (hB : b.Tight) :
    (a == b) = true ↔ a.code.toList = b.code.toList ∧ a.lines.toList = b.lines.toList ∧
      SameNumbers a.constants b.constants := by
  change (a.code == b.code && a.lines == b.lines && a.constants == b.constants) = true ↔ _
  have hPool : (a.constants == b.constants) = true ↔ SameNumbers a.constants b.constants :=
    (Buffer.Tight.beq_iff hA.constants hB.constants fun h =>
      (items_beq_iff_sameNumbers.mp h).1).trans items_beq_iff_sameNumbers
  rw [Bool.and_eq_true, Bool.and_eq_true, Buffer.Tight.beq_iff_toList hA.code hB.code,
    Buffer.Tight.beq_iff_toList hA.lines hB.lines, hPool, and_assoc]

/-- A pool with the same constants has the same numbers, unless one of them is not-a-number. -/
theorem sameNumbers_of_toList_eq {first second : ConstantPool}
    (hSame : first.toList = second.toList)
    (h : ∀ x : Float, .number x ∈ first.toList → x.isNaN = false) : SameNumbers first second := by
  refine ⟨congrArg List.length hSame, fun k x y hX hY => ?_⟩
  rw [Buffer.get?, ← Array.getElem?_toList] at hX hY
  cases hX.symm.trans ((congrArg (fun items => items[k]?) hSame).trans hY)
  exact Value.beq_self (h x (List.mem_of_getElem? hX))

/-- A pool with not-a-number has the numbers of no pool, its own included. -/
theorem not_sameNumbers_of_isNaN {pool : ConstantPool} {x : Float} (h : x.isNaN = true)
    (hMember : .number x ∈ pool.toList) (other : ConstantPool) :
    ¬SameNumbers pool other ∧ ¬SameNumbers other pool := by
  obtain ⟨k, hInside, hX⟩ := List.mem_iff_getElem.mp hMember
  have hAt : pool.get? k = some (.number x) :=
    Array.getElem?_toList.symm.trans (List.getElem?_eq_some_iff.mpr ⟨hInside, hX⟩)
  have hPartner (hSize : pool.size = other.size) :
      ∃ y, other.get? k = some (.number y) := by
    have hOther : k < other.items.size := Nat.lt_of_lt_of_eq hInside hSize
    exact ⟨other.items[k].toFloat, Array.getElem?_eq_getElem hOther⟩
  constructor
  · rintro ⟨hSize, hNumbers⟩
    obtain ⟨y, hY⟩ := hPartner hSize
    exact Bool.false_ne_true ((Value.beq_of_isNaN h y).symm.trans (hNumbers k x y hAt hY))
  · rintro ⟨hSize, hNumbers⟩
    obtain ⟨y, hY⟩ := hPartner hSize.symm
    exact Bool.false_ne_true ((Value.beq_isNaN h y).symm.trans (hNumbers k y x hY hAt))

/-- Equality of chunks is equality of their contents, in whatever order they were built, as long as
memory has not run out. Every capacity is then the least one for its elements, so capacities
make no difference. Constants are compared as numbers: not-a-number makes a chunk differ from
every chunk, and the two zeros are equal. A constant with its load, and the same constant and
bytes written one by one, give equal chunks, and a released chunk equals the empty one. -/
theorem equality_ignores_build_order {a b : Chunk} (hA : a.Granted) (hB : b.Granted) :
    (a.code.Tight ∧ a.lines.Tight ∧ a.constants.Tight) ∧
    ((a == b) = true ↔ a.code.toList = b.code.toList ∧ a.lines.toList = b.lines.toList ∧
      SameNumbers a.constants b.constants) ∧
    (∀ x : Float, x.isNaN = true → .number x ∈ a.constants.toList → ∀ other : Chunk,
      (a == other) = false ∧ (other == a) = false) ∧
    (∀ (heap heapByHand : Allocator) (value : Value) (line : Nat),
      a.constants.size < constantLimit →
      ¬RanOutOfMemory (writeConstant heap value line a) →
      ¬RanOutOfMemory (writeLoadByHand heapByHand value line a) →
      ∃ atOnce byHand, writeConstant heap value line a = .ok a.constants.size atOnce ∧
        writeLoadByHand heapByHand value line a = .ok a.constants.size byHand ∧
        ((∀ x : Float, .number x ∈ atOnce.constants.toList → x.isNaN = false) →
          (atOnce == byHand) = true)) ∧
    ∃ released, release a = .ok () released ∧ (released == empty) = true := by
  have hTight := hA.tight
  refine ⟨⟨hTight.code, hTight.lines, hTight.constants⟩, hTight.beq_iff hB.tight,
    fun x hX hMember other => ?_, fun heap heapByHand value line hRoom hMemory hByHand => ?_,
    empty, rfl, rfl⟩
  · obtain ⟨hLeft, hRight⟩ := not_sameNumbers_of_isNaN hX hMember other.constants
    exact ⟨Bool.eq_false_iff.mpr fun h => hLeft (constants_of_beq h),
      Bool.eq_false_iff.mpr fun h => hRight (constants_of_beq h)⟩
  · obtain ⟨_, atOnce, hOk, hAtOnce, rfl, hContents⟩ :=
      ((writeConstant_tight hTight hRoom heap value line).and
        (writeConstant_allOrNothing hRoom heap value line)).of_memory hMemory
    obtain ⟨_, byHand, hOkByHand, hTightByHand, rfl, hContentsByHand⟩ :=
      (writeLoadByHand_builds hTight heapByHand value line).of_memory hByHand
    have hSame : atOnce.contents = byHand.contents := hContents.trans hContentsByHand.symm
    refine ⟨atOnce, byHand, hOk, hOkByHand, fun hNumbers => ?_⟩
    exact (hAtOnce.beq_iff hTightByHand).mpr ⟨congrArg Contents.code hSame,
      congrArg Contents.lines hSame,
      sameNumbers_of_toList_eq (congrArg Contents.constants hSame) hNumbers⟩

/-- Five constants, each with its load. -/
def loaded : Chunk :=
  empty.afterSteps .standard
    ([0, 1, 2, 3, 4].map fun x => .writeConstant (.number x) 7)

/-- First the constants, and then all the bytes. The first constant is the negative zero. -/
def loadedByHand : Chunk :=
  empty.afterSteps .standard
    (([-0, 1, 2, 3, 4].map fun x => .addConstant (.number x)) ++
      [0, 0, 0, 1, 0, 2, 0, 3, 0, 4].map fun byte => .write byte 7)

/-- The constant of which no chunk has an equal one. -/
def undefined : Chunk := empty.afterSteps .standard [.addConstant (.number (0 / 0))]

/-- The ten bytes are written in steps of two and of one, and need the same capacity. A chunk with
not-a-number differs from itself. -/
theorem equality_of_loaded :
    (loaded == loadedByHand) = true ∧ loaded.code.capacity = 16 ∧
      (undefined == undefined) = false := by
  have hLoaded : loaded.Granted := Granted.start.afterSteps (by decide +kernel)
  have hByHand : loadedByHand.Granted := Granted.start.afterSteps (by decide +kernel)
  have hUndefined : undefined.Granted := Granted.start.afterSteps (by decide +kernel)
  refine ⟨?_, by decide +kernel, ?_⟩
  · exact (equality_ignores_build_order hLoaded hByHand).2.1.mpr
      ⟨by decide +kernel, by decide +kernel, items_beq_iff_sameNumbers.mp (by decide +kernel)⟩
  · have hPool : undefined.constants.toList = [.number (0 / 0)] := by with_unfolding_all rfl
    obtain ⟨-, -, hDiffers, -⟩ := equality_ignores_build_order hUndefined hUndefined
    refine (hDiffers (0 / 0) (by decide +kernel) ?_ undefined).1
    rw [hPool]
    exact List.mem_singleton.mpr rfl

end Chunk

end StackMachine
