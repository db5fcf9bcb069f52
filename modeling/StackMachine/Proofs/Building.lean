import StackMachine.Chunk

/-! Building steps seen through the contents of a chunk, which are all that a run or a listing
reads. Every step either has its whole effect on the contents or runs out of memory and has
none; capacities may grow in both cases. -/
namespace StackMachine

namespace Buffer

variable {α : Type}

/-- The capacity found for a number of elements holds them. -/
theorem le_capacityFor {needed capacity larger : Nat}
    (h : capacityFor needed capacity = some larger) : needed ≤ larger := by
  fun_induction capacityFor needed capacity with
  | case1 capacity hRoom =>
      cases h
      exact hRoom
  | case2 capacity hShort next hGrow ih => exact ih h
  | case3 capacity hShort hGrow => cases h

variable [SlotSize α]

/-- A reservation makes room and leaves the elements alone, or changes nothing at all. -/
theorem reserve_cases (heap : Allocator) (additional : Nat) (b : Buffer α) :
    (∃ capacity, reserve heap additional b = .ok () ⟨b.items, capacity⟩ ∧
      b.items.size + additional ≤ capacity) ∨
    ∃ requested, reserve heap additional b = .error (.outOfMemory requested) b := by
  unfold reserve
  by_cases hRoom : b.items.size + additional ≤ b.capacity
  · simp only [hRoom, if_true]
    exact .inl ⟨b.capacity, rfl, hRoom⟩
  · simp only [hRoom, if_false]
    cases hCapacity : capacityFor (b.items.size + additional) b.capacity with
    | none => exact .inr ⟨maxWord, rfl⟩
    | some requested =>
        by_cases hGranted : heap.grants (requested * SlotSize.bytes α) = true
        · simp only [if_pos hGranted]
          exact .inl ⟨requested, rfl, le_capacityFor hCapacity⟩
        · simp only [if_neg hGranted]
          exact .inr ⟨requested, rfl⟩

/-- Where the room is there already, nothing is asked of the heap. -/
theorem reserve_of_room {additional : Nat} {b : Buffer α}
    (h : b.items.size + additional ≤ b.capacity) (heap : Allocator) :
    reserve heap additional b = .ok () b := by
  simp only [reserve, h, if_true]

/-- An element that there is room for is appended without asking for storage. -/
theorem append_of_room {b : Buffer α} (h : b.items.size + 1 ≤ b.capacity) (heap : Allocator)
    (x : α) : append heap x b = .ok b.items.size ⟨b.items.push x, b.capacity⟩ := by
  simp only [append, reserveOne, bind, EStateM.bind, reserve_of_room h]
  rfl

end Buffer

namespace Chunk

/-- The elements of the three buffers, without their capacities. -/
structure Contents where
  code : List UInt8
  lines : List Nat
  constants : List Value

def contents (chunk : Chunk) : Contents :=
  ⟨chunk.code.toList, chunk.lines.toList, chunk.constants.toList⟩

def Contents.emit (contents : Contents) (line : Nat) (bytes : List UInt8) : Contents :=
  { contents with
    code := contents.code ++ bytes
    lines := contents.lines ++ List.replicate bytes.length line }

def Contents.learn (contents : Contents) (value : Value) : Contents :=
  { contents with constants := contents.constants ++ [value] }

/-- A building step has succeeded, or it has run out of memory. Both results are described. -/
def Builds {α : Type} (result : EStateM.Result BuildError Chunk α)
    (success : α → Chunk → Prop) (failure : Chunk → Prop) : Prop :=
  (∃ a next, result = .ok a next ∧ success a next) ∨
    ∃ requested next, result = .error (.outOfMemory requested) next ∧ failure next

/-- A first step and whatever may follow it are judged one behind the other. -/
theorem Builds.bind {α β : Type} {chunk : Chunk} {first : Build Chunk α}
    {second : α → Build Chunk β} {middle : α → Chunk → Prop} {success : β → Chunk → Prop}
    {failure : Chunk → Prop} (hFirst : Builds (first chunk) middle failure)
    (hSecond : ∀ a next, middle a next → Builds (second a next) success failure) :
    Builds ((first >>= second) chunk) success failure := by
  rcases hFirst with ⟨a, next, hOk, hMiddle⟩ | ⟨requested, next, hError, hFailure⟩
  · have hBind : (first >>= second) chunk = second a next := by
      simp only [Bind.bind, EStateM.bind, hOk]
    rw [hBind]
    exact hSecond a next hMiddle
  · refine .inr ⟨requested, next, ?_, hFailure⟩
    simp only [Bind.bind, EStateM.bind, hError]

theorem Builds.imp {α : Type} {result : EStateM.Result BuildError Chunk α}
    {success success' : α → Chunk → Prop} {failure failure' : Chunk → Prop}
    (h : Builds result success failure)
    (hSuccess : ∀ a next, success a next → success' a next)
    (hFailure : ∀ next, failure next → failure' next) :
    Builds result success' failure' := by
  rcases h with ⟨a, next, hOk, hNext⟩ | ⟨requested, next, hError, hNext⟩
  · exact .inl ⟨a, next, hOk, hSuccess a next hNext⟩
  · exact .inr ⟨requested, next, hError, hFailure next hNext⟩

theorem Builds.success {α : Type} {result : EStateM.Result BuildError Chunk α}
    {success : α → Chunk → Prop} {failure : Chunk → Prop} {a : α} {next : Chunk}
    (h : Builds result success failure) (hOk : result = .ok a next) : success a next := by
  rcases h with ⟨b, other, hOther, hSuccess⟩ | ⟨requested, left, hError, -⟩
  · cases hOk.symm.trans hOther
    exact hSuccess
  · cases hOk.symm.trans hError

theorem Builds.and {α : Type} {result : EStateM.Result BuildError Chunk α}
    {success success' : α → Chunk → Prop} {failure failure' : Chunk → Prop}
    (h : Builds result success failure) (h' : Builds result success' failure') :
    Builds result (fun a next => success a next ∧ success' a next) failure := by
  rcases h with ⟨a, next, hOk, hNext⟩ | hFailure
  · exact .inl ⟨a, next, hOk, hNext, h'.success hOk⟩
  · exact .inr hFailure

def RanOutOfMemory {α : Type} (result : EStateM.Result BuildError Chunk α) : Prop :=
  ∃ requested next, result = .error (.outOfMemory requested) next

instance {α : Type} (result : EStateM.Result BuildError Chunk α) :
    Decidable (RanOutOfMemory result) :=
  match result with
  | .ok _ _ => isFalse nofun
  | .error (.outOfMemory requested) next => isTrue ⟨requested, next, rfl⟩
  | .error (.tooManyConstants _) _ => isFalse nofun

/-- A step that did not run out of memory succeeds. -/
theorem Builds.of_memory {α : Type} {result : EStateM.Result BuildError Chunk α}
    {success : α → Chunk → Prop} {failure : Chunk → Prop}
    (h : Builds result success failure) (hMemory : ¬RanOutOfMemory result) :
    ∃ a next, result = .ok a next ∧ success a next := by
  rcases h with hSuccess | ⟨requested, next, hError, -⟩
  · exact hSuccess
  · exact absurd ⟨requested, next, hError⟩ hMemory

/-- A building step that changes nothing when it runs out of memory. -/
def AllOrNothing {α : Type} (before : Contents) (result : EStateM.Result BuildError Chunk α)
    (success : α → Chunk → Prop) : Prop :=
  Builds result success (fun next => next.contents = before)

/-- All or nothing is kept by composition, as the first step changes no contents. -/
theorem AllOrNothing.bind {α β : Type} {before : Contents} {chunk : Chunk}
    {first : Build Chunk α} {second : α → Build Chunk β} {middle : α → Chunk → Prop}
    {success : β → Chunk → Prop} (hFirst : AllOrNothing before (first chunk) middle)
    (hSecond : ∀ a next, middle a next → AllOrNothing before (second a next) success) :
    AllOrNothing before ((first >>= second) chunk) success :=
  Builds.bind hFirst hSecond

/-- The reservations at the beginning of a step decide about it. The step succeeds if they are
granted. Otherwise it fails as they do, and the contents stay as they were. -/
def DecidedBy {α : Type} (reservations : Build Chunk Unit) (step : Build Chunk α) (chunk : Chunk)
    (success : α → Chunk → Prop) : Prop :=
  (∃ room a next, reservations chunk = .ok () room ∧ step chunk = .ok a next ∧ success a next) ∨
    ∃ requested left, reservations chunk = .error (.outOfMemory requested) left ∧
      step chunk = .error (.outOfMemory requested) left ∧ left.contents = chunk.contents

/-- A step whose reservations decide its success either happens as a whole or not at all. -/
theorem DecidedBy.allOrNothing {α : Type} {reservations : Build Chunk Unit} {step : Build Chunk α}
    {chunk : Chunk} {success : α → Chunk → Prop}
    (h : DecidedBy reservations step chunk success) :
    AllOrNothing chunk.contents (step chunk) success := by
  rcases h with ⟨room, a, next, -, hOk, hNext⟩ | ⟨requested, left, -, hError, hLeft⟩
  · exact .inl ⟨a, next, hOk, hNext⟩
  · exact .inr ⟨requested, left, hError, hLeft⟩

/-- What follows the reservations must succeed wherever they have been granted. -/
theorem AllOrNothing.decides {α : Type} {chunk : Chunk} {reservations : Build Chunk Unit}
    {rest : Build Chunk α} {granted : Chunk → Prop} {success : α → Chunk → Prop}
    (hReserve : AllOrNothing chunk.contents (reservations chunk) (fun _ room => granted room))
    (hRest : ∀ room, granted room → ∃ a next, rest room = .ok a next ∧ success a next) :
    DecidedBy reservations (reservations >>= fun _ => rest) chunk success := by
  rcases hReserve with ⟨_, room, hOk, hRoom⟩ | ⟨requested, left, hError, hLeft⟩
  · obtain ⟨a, next, hStep, hNext⟩ := hRest room hRoom
    refine .inl ⟨room, a, next, hOk, ?_, hNext⟩
    simp only [Bind.bind, EStateM.bind, hOk]
    exact hStep
  · refine .inr ⟨requested, left, hError, ?_, hLeft⟩
    simp only [Bind.bind, EStateM.bind, hError]

structure Prepared (chunk : Chunk) (before : Contents) (bytes : Nat) : Prop where
  contents : chunk.contents = before
  code : chunk.code.items.size + bytes ≤ chunk.code.capacity
  lines : chunk.lines.items.size + bytes ≤ chunk.lines.capacity

/-- The reservations that come before any byte is written. Either buffer may have an allocator
of its own. -/
def makeRoom (forCode forLines : Allocator) (bytes : Nat) : Build Chunk Unit := do
  onCode (Buffer.reserve forCode bytes)
  onLines (Buffer.reserve forLines bytes)

/-- A byte is written by making room for it and its line, then appending both. -/
theorem write_eq (heap : Allocator) (byte : UInt8) (line : Nat) :
    write heap byte line = makeRoom heap heap 1 >>= fun _ => append heap line byte := by
  rw [makeRoom, bind_assoc]
  rfl

/-- Making room changes no contents, also when the second reservation is refused. -/
theorem makeRoom_allOrNothing (forCode forLines : Allocator) (bytes : Nat) (chunk : Chunk) :
    AllOrNothing chunk.contents (makeRoom forCode forLines bytes chunk)
      (fun _ next => next.Prepared chunk.contents bytes ∧ next.constants = chunk.constants) := by
  obtain ⟨code, lines, constants⟩ := chunk
  simp only [makeRoom, Bind.bind, EStateM.bind, onCode, onLines]
  rcases Buffer.reserve_cases forCode bytes code with ⟨room, hCode, hRoom⟩ | ⟨requested, hCode⟩
  · rcases Buffer.reserve_cases forLines bytes lines with
      ⟨lineRoom, hLines, hLineRoom⟩ | ⟨requested, hLines⟩
    · simp only [hCode, hLines]
      exact .inl ⟨(), _, rfl, ⟨rfl, hRoom, hLineRoom⟩, rfl⟩
    · simp only [hCode, hLines]
      exact .inr ⟨requested, _, rfl, rfl⟩
  · simp only [hCode]
    exact .inr ⟨requested, _, rfl, rfl⟩

theorem Contents.emit_nil (contents : Contents) (line : Nat) :
    contents.emit line [] = contents := by
  simp [emit]

theorem Contents.emit_emit (contents : Contents) (line : Nat) (first second : List UInt8) :
    (contents.emit line first).emit line second = contents.emit line (first ++ second) := by
  simp [emit]

/-- In a prepared chunk a byte is appended without asking for storage, and the room for the
bytes after it remains. -/
theorem append_of_prepared {chunk : Chunk} {before : Contents} {bytes : Nat}
    (h : chunk.Prepared before (bytes + 1)) (heap : Allocator) (line : Nat) (byte : UInt8) :
    ∃ next, append heap line byte chunk = .ok () next ∧
      next.Prepared (before.emit line [byte]) bytes ∧ next.constants = chunk.constants := by
  obtain ⟨code, lines, constants⟩ := chunk
  obtain ⟨rfl, hCode, hLines⟩ := h
  have hCodeRoom : code.items.size + 1 ≤ code.capacity := by
    simp only at hCode
    omega
  have hLineRoom : lines.items.size + 1 ≤ lines.capacity := by
    simp only at hLines
    omega
  refine ⟨⟨⟨code.items.push byte, code.capacity⟩, ⟨lines.items.push line, lines.capacity⟩,
    constants⟩, ?_, ⟨?_, ?_, ?_⟩, rfl⟩
  · simp only [append, Bind.bind, EStateM.bind, onCode, onLines,
      Buffer.append_of_room hCodeRoom, Buffer.append_of_room hLineRoom]
    rfl
  · simp [contents, Contents.emit, Buffer.toList]
  · simp only [Array.size_push] at hCode ⊢
    omega
  · simp only [Array.size_push] at hLines ⊢
    omega

/-- The bytes of an instruction are written into a prepared chunk without a failure. -/
theorem forM_append_of_prepared {chunk : Chunk} {before : Contents} {bytes : List UInt8}
    (h : chunk.Prepared before bytes.length) (heap : Allocator) (line : Nat) :
    ∃ next, bytes.forM (append heap line) chunk = .ok () next ∧
      next.contents = before.emit line bytes := by
  induction bytes generalizing chunk before with
  | nil => exact ⟨chunk, rfl, h.contents.trans (before.emit_nil line).symm⟩
  | cons byte rest ih =>
      obtain ⟨middle, hFirst, hMiddle, -⟩ := append_of_prepared h heap line byte
      obtain ⟨next, hRest, hNext⟩ := ih hMiddle
      refine ⟨next, ?_, ?_⟩
      · change (append heap line byte >>= fun _ => rest.forM (append heap line)) chunk = _
        simp only [Bind.bind, EStateM.bind, hFirst]
        exact hRest
      · rw [hNext, Contents.emit_emit]
        rfl

/-- Writing a byte appends it and its line as soon as there is room for both. -/
theorem write_decided (heap : Allocator) (byte : UInt8) (line : Nat) (chunk : Chunk) :
    DecidedBy (makeRoom heap heap 1) (write heap byte line) chunk
      (fun _ next => next.contents = chunk.contents.emit line [byte]) := by
  rw [write_eq]
  apply (makeRoom_allOrNothing heap heap 1 chunk).decides
  rintro room ⟨hPrepared, -⟩
  have hByte : room.Prepared chunk.contents (0 + 1) := hPrepared
  obtain ⟨next, hAppend, hNext, -⟩ := append_of_prepared hByte heap line byte
  exact ⟨(), next, hAppend, hNext.contents⟩

/-- Writing a byte appends it and its line, or fails for want of memory. -/
theorem write_allOrNothing (heap : Allocator) (byte : UInt8) (line : Nat) (chunk : Chunk) :
    AllOrNothing chunk.contents (write heap byte line chunk)
      (fun _ next => next.contents = chunk.contents.emit line [byte]) :=
  (write_decided heap byte line chunk).allOrNothing

/-- Room for one more constant is made without touching the contents. -/
theorem reserveConstant_allOrNothing (heap : Allocator) (chunk : Chunk) :
    AllOrNothing chunk.contents (onConstants (Buffer.reserveOne heap) chunk)
      (fun _ next => next.contents = chunk.contents ∧
        next.constants.items.size + 1 ≤ next.constants.capacity) := by
  obtain ⟨code, lines, constants⟩ := chunk
  simp only [onConstants, Buffer.reserveOne]
  rcases Buffer.reserve_cases heap 1 constants with ⟨room, hReserve, hRoom⟩ | ⟨requested, hReserve⟩
  · simp only [hReserve]
    exact .inl ⟨(), _, rfl, rfl, hRoom⟩
  · simp only [hReserve]
    exact .inr ⟨requested, _, rfl, rfl⟩

theorem addConstant_eq (heap : Allocator) (value : Value) :
    addConstant heap value =
      onConstants (Buffer.reserveOne heap) >>= fun _ => onConstants (Buffer.push value) := by
  funext ⟨code, lines, constants⟩
  simp only [addConstant, onConstants, Buffer.append, Bind.bind, EStateM.bind]
  cases Buffer.reserveOne heap constants <;> rfl

theorem constants_size_of_contents {chunk other : Chunk} (h : chunk.contents = other.contents) :
    chunk.constants.size = other.constants.size :=
  congrArg (fun contents => contents.constants.length) h

/-- Adding a constant appends it and returns its index as soon as there is room for it. -/
theorem addConstant_decided (heap : Allocator) (value : Value) (chunk : Chunk) :
    DecidedBy (onConstants (Buffer.reserveOne heap)) (addConstant heap value) chunk
      (fun index next => index = chunk.constants.size ∧
        next.contents = chunk.contents.learn value) := by
  rw [addConstant_eq]
  apply (reserveConstant_allOrNothing heap chunk).decides
  rintro room ⟨hContents, -⟩
  rw [← constants_size_of_contents hContents, ← hContents]
  exact ⟨_, _, rfl, rfl, by simp [contents, Contents.learn, Buffer.toList]⟩

/-- Adding a constant appends it and returns its index, or fails for want of memory. -/
theorem addConstant_allOrNothing (heap : Allocator) (value : Value) (chunk : Chunk) :
    AllOrNothing chunk.contents (addConstant heap value chunk)
      (fun index next => index = chunk.constants.size ∧
        next.contents = chunk.contents.learn value) :=
  (addConstant_decided heap value chunk).allOrNothing

/-- A constant that there is room for is added without touching the room for the code. -/
theorem addConstant_of_room {chunk : Chunk} {before : Contents} {bytes : Nat}
    (hPool : chunk.constants.items.size + 1 ≤ chunk.constants.capacity)
    (h : chunk.Prepared before bytes) (heap : Allocator) (value : Value) :
    ∃ next, addConstant heap value chunk = .ok chunk.constants.size next ∧
      next.Prepared (before.learn value) bytes := by
  obtain ⟨code, lines, constants⟩ := chunk
  obtain ⟨rfl, hCode, hLines⟩ := h
  refine ⟨⟨code, lines, ⟨constants.items.push value, constants.capacity⟩⟩, ?_,
    ⟨?_, hCode, hLines⟩⟩
  · simp only [addConstant, onConstants, Buffer.append_of_room hPool]
    rfl
  · simp [contents, Contents.learn, Buffer.toList]

/-- The reservations that come before a constant is added and its load is written. Every buffer
may have an allocator of its own. -/
def makeRoomForLoad (forPool forCode forLines : Allocator) (bytes : Nat) : Build Chunk Unit := do
  onConstants (Buffer.reserveOne forPool)
  makeRoom forCode forLines bytes

/-- A constant and the bytes of its load, appended after the reservations. -/
def appendLoad (heap : Allocator) (value : Value) (line : Nat) (bytes : List UInt8) :
    Build Chunk Unit := do
  let _ ← addConstant heap value
  bytes.forM (append heap line)

/-- All three buffers are enlarged before the first of them changes. -/
theorem makeRoomForLoad_allOrNothing (forPool forCode forLines : Allocator) (bytes : Nat)
    (chunk : Chunk) :
    AllOrNothing chunk.contents (makeRoomForLoad forPool forCode forLines bytes chunk)
      (fun _ room => room.Prepared chunk.contents bytes ∧
        room.constants.items.size + 1 ≤ room.constants.capacity) := by
  apply (reserveConstant_allOrNothing forPool chunk).bind
  rintro _ first ⟨hFirst, hPool⟩
  rw [← hFirst]
  refine (makeRoom_allOrNothing forCode forLines bytes first).imp ?_ (fun _ => id)
  rintro _ second ⟨hPrepared, hConstants⟩
  rw [hConstants]
  exact ⟨hPrepared, hPool⟩

/-- After the reservations no append asks for storage, whatever the allocator would say. -/
theorem appendLoad_of_room {room : Chunk} {before : Contents} {bytes : List UInt8}
    (hPrepared : room.Prepared before bytes.length)
    (hPool : room.constants.items.size + 1 ≤ room.constants.capacity) (heap : Allocator)
    (value : Value) (line : Nat) :
    ∃ next, appendLoad heap value line bytes room = .ok () next ∧
      next.contents = (before.learn value).emit line bytes := by
  obtain ⟨middle, hAdd, hAdded⟩ := addConstant_of_room hPool hPrepared heap value
  obtain ⟨next, hAppend, hNext⟩ := forM_append_of_prepared hAdded heap line
  refine ⟨next, ?_, hNext⟩
  simp only [appendLoad, Bind.bind, EStateM.bind, hAdd]
  exact hAppend

/-- However each of the reservations is answered, either one of them is refused and the contents
stay, or the constant and all the bytes are appended. -/
theorem appendLoad_decided (forPool forCode forLines later : Allocator) (value : Value)
    (line : Nat) (bytes : List UInt8) (chunk : Chunk) :
    DecidedBy (makeRoomForLoad forPool forCode forLines bytes.length)
      (makeRoomForLoad forPool forCode forLines bytes.length >>= fun _ =>
        appendLoad later value line bytes) chunk
      (fun _ next => next.contents = (chunk.contents.learn value).emit line bytes) := by
  apply (makeRoomForLoad_allOrNothing forPool forCode forLines bytes.length chunk).decides
  rintro room ⟨hPrepared, hPool⟩
  obtain ⟨next, hAppend, hNext⟩ := appendLoad_of_room hPrepared hPool later value line
  exact ⟨(), next, hAppend, hNext⟩

/-- A full pool refuses a constant before any memory is asked for. -/
theorem writeConstant_of_full {chunk : Chunk} (h : constantLimit ≤ chunk.constants.size)
    (heap : Allocator) (value : Value) (line : Nat) :
    writeConstant heap value line chunk =
      .error (.tooManyConstants constantLimit) chunk := by
  change (if constantLimit ≤ chunk.constants.size then _ else _ : Build Chunk Nat) chunk = _
  rw [if_pos h]
  rfl

/-- A pool with room: a constant is written by its reservations and the appends behind them. -/
theorem writeConstant_of_not_full {chunk : Chunk} (h : chunk.constants.size < constantLimit)
    (heap : Allocator) (value : Value) (line : Nat) :
    writeConstant heap value line chunk =
      (makeRoomForLoad heap heap heap (Instruction.load chunk.constants.size).encode.length >>=
        fun _ => appendLoad heap value line (Instruction.load chunk.constants.size).encode >>=
        fun _ => pure chunk.constants.size) chunk := by
  simp only [makeRoomForLoad, makeRoom, appendLoad, bind_assoc]
  change (if constantLimit ≤ chunk.constants.size then _ else _ : Build Chunk Nat) chunk = _
  rw [if_neg (Nat.not_le_of_lt h)]

/-- Writing a constant adds it and appends the load of its index as soon as there is room for
everything. -/
theorem writeConstant_decided {chunk : Chunk} (h : chunk.constants.size < constantLimit)
    (heap : Allocator) (value : Value) (line : Nat) :
    DecidedBy
      (makeRoomForLoad heap heap heap (Instruction.load chunk.constants.size).encode.length)
      (writeConstant heap value line) chunk
      (fun index next => index = chunk.constants.size ∧
        next.contents = (chunk.contents.learn value).emit line
          (Instruction.load chunk.constants.size).encode) := by
  unfold DecidedBy
  rw [writeConstant_of_not_full h]
  apply (makeRoomForLoad_allOrNothing heap heap heap _ chunk).decides
  rintro room ⟨hPrepared, hPool⟩
  obtain ⟨next, hAppend, hNext⟩ := appendLoad_of_room hPrepared hPool heap value line
  refine ⟨chunk.constants.size, next, ?_, rfl, hNext⟩
  simp only [Bind.bind, EStateM.bind, hAppend]
  rfl

/-- Writing a constant adds it and appends the load of its index, or fails for want of memory. -/
theorem writeConstant_allOrNothing {chunk : Chunk}
    (h : chunk.constants.size < constantLimit) (heap : Allocator) (value : Value) (line : Nat) :
    AllOrNothing chunk.contents (writeConstant heap value line chunk)
      (fun index next => index = chunk.constants.size ∧
        next.contents = (chunk.contents.learn value).emit line
          (Instruction.load chunk.constants.size).encode) :=
  (writeConstant_decided h heap value line).allOrNothing

end Chunk

end StackMachine
