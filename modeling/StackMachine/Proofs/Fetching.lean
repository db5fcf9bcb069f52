import StackMachine.Proofs.Stepping

/-! A step beside a decoding. The machine reads the code through its moving pointer, decoding
looks at an offset and keeps no state. They agree on every code and at every offset, and the
pointer is moved by fetching alone, however the execution of the fetched opcode ends. -/
namespace StackMachine

namespace Machine

/-- A value that is popped makes room for the push of another one. -/
theorem size_pop_lt {values : Array Value} {value : Value} (h : values.back? = some value) :
    values.pop.size < values.size := by
  have hPositive : 0 < values.size := by
    rw [Array.back?] at h
    exact Nat.lt_of_le_of_lt (Nat.zero_le _) (Array.getElem?_eq_some_iff.mp h).1
  rw [Array.size_pop]
  exact Nat.sub_lt hPositive Nat.one_pos

/-- How the execution of an opcode with its operand can end, on a stack within its limit. The
pointer stays where it is. Only an underflow may have taken values from the stack, and a constant
is missing only for a load. -/
inductive Dispatched (constants : ConstantPool) (opcode : Opcode) (operand : UInt32)
    (m : Machine) : EStateM.Result FaultKind Machine Unit → Prop where
  | succeeds {next : Machine} (hIp : next.ip = m.ip) :
      Dispatched constants opcode operand m (.ok () next)
  | underflows {left : Machine} (hIp : left.ip = m.ip) :
      Dispatched constants opcode operand m (.error .stackUnderflow left)
  | overflows : Dispatched constants opcode operand m (.error .stackOverflow m)
  | missing (hLoad : opcode.operandWidth ≠ 0) (hPool : constants.size ≤ operand.toNat) :
      Dispatched constants opcode operand m (.error (.invalidConstant operand.toNat) m)

section Dispatched

variable {constants : ConstantPool} {opcode : Opcode} {operand : UInt32} {m : Machine}

/-- A push works, or overflows and changes nothing. -/
theorem dispatched_push (value : Value) :
    Dispatched constants opcode operand m (onStack (Stack.push value) m) := by
  rcases Nat.lt_or_ge m.stack.size m.stack.room with hRoom | hFull
  · obtain ⟨stack, hPush, -, -⟩ := onStack_push_of_room hRoom value
    rw [hPush]
    exact .succeeds rfl
  · rw [onStack_push_of_full hFull]
    exact .overflows

/-- A push succeeds where pops have left room. -/
theorem dispatched_push_of_room {popped : Machine} (hRoom : popped.stack.size < popped.stack.room)
    (hIp : popped.ip = m.ip) (value : Value) :
    Dispatched constants opcode operand m (onStack (Stack.push value) popped) := by
  obtain ⟨stack, hPush, -, -⟩ := onStack_push_of_room hRoom value
  rw [hPush]
  exact .succeeds hIp

theorem dispatched_unary (hStack : m.stack.size ≤ m.stack.limit) (op : Float → Float) :
    Dispatched constants opcode operand m (unary op m) := by
  simp only [unary, bind, EStateM.bind]
  cases hTop : m.stack.values.back? with
  | none =>
      rw [onStack_pop_of_none hTop]
      exact .underflows rfl
  | some x =>
      obtain ⟨popped, hPop, hValues, hBecomes⟩ := onStack_pop_of_some hTop
      have hRoom : popped.size < popped.room :=
        calc popped.size
            = m.stack.values.pop.size := congrArg Array.size hValues
          _ < m.stack.size := size_pop_lt hTop
          _ ≤ m.stack.room := Stack.size_le_room hStack
          _ = popped.room := hBecomes.room.symm
      rw [hPop]
      apply dispatched_push_of_room
      · exact hRoom
      · rfl

/-- An operator of two operands: the second pop can fail behind the first. -/
theorem dispatched_binary (hStack : m.stack.size ≤ m.stack.limit)
    (op : Float → Float → Float) : Dispatched constants opcode operand m (binary op m) := by
  simp only [binary, bind, EStateM.bind]
  cases hTop : m.stack.values.back? with
  | none =>
      rw [onStack_pop_of_none hTop]
      exact .underflows rfl
  | some y =>
      obtain ⟨middle, hRight, hMiddle, hFirst⟩ := onStack_pop_of_some hTop
      rw [hRight]
      simp only
      cases hBelow : middle.values.back? with
      | none =>
          rw [onStack_pop_of_none (m := { m with stack := middle }) hBelow]
          exact .underflows rfl
      | some x =>
          obtain ⟨popped, hLeft, hValues, hSecond⟩ :=
            onStack_pop_of_some (m := { m with stack := middle }) hBelow
          have hRoom : popped.size < popped.room :=
            calc popped.size
                = middle.values.pop.size := congrArg Array.size hValues
              _ < middle.size := size_pop_lt hBelow
              _ = m.stack.values.pop.size := congrArg Array.size hMiddle
              _ < m.stack.size := size_pop_lt hTop
              _ ≤ m.stack.room := Stack.size_le_room hStack
              _ = popped.room := (hFirst.trans hSecond).room.symm
          rw [hLeft]
          apply dispatched_push_of_room
          · exact hRoom
          · rfl

/-- A load fails on a missing constant before the stack is looked at. -/
theorem dispatched_load (hLoad : opcode.operandWidth ≠ 0) :
    Dispatched constants opcode operand m (load constants operand.toNat m) := by
  unfold load
  cases hConstant : constants.get? operand.toNat with
  | none => exact .missing hLoad (Array.getElem?_eq_none_iff.mp hConstant)
  | some value => exact dispatched_push value

/-- An instruction fails in these three ways only, whatever its opcode. -/
theorem dispatched_dispatch (hStack : m.stack.size ≤ m.stack.limit) :
    Dispatched constants opcode operand m (dispatch constants opcode operand m) := by
  cases opcode with
  | constant => exact dispatched_load (by decide)
  | constantLong => exact dispatched_load (by decide)
  | ret => exact .succeeds rfl
  | negate => exact dispatched_unary hStack _
  | add => exact dispatched_binary hStack _
  | subtract => exact dispatched_binary hStack _
  | multiply => exact dispatched_binary hStack _
  | divide => exact dispatched_binary hStack _

/-- A load of a constant that the pool does not have. -/
theorem dispatch_of_missing (hLoad : opcode.operandWidth ≠ 0)
    (hPool : constants.size ≤ operand.toNat) :
    dispatch constants opcode operand m = .error (.invalidConstant operand.toNat) m := by
  have hNone : constants.get? operand.toNat = none := Array.getElem?_eq_none_iff.mpr hPool
  cases opcode with
  | constant => simp only [dispatch, load, hNone]
  | constantLong => simp only [dispatch, load, hNone]
  | _ => exact absurd rfl hLoad

end Dispatched

/-- Where a step fails, by what is decoded there. -/
inductive Faulted (chunk : Chunk) (m : Machine) : FaultKind → Machine → Prop where
  | atEnd (hDecode : Instruction.decode chunk.code.toArray m.ip = .error .endOfCode) :
      Faulted chunk m .unexpectedEndOfCode m
  | unknown {byte : UInt8}
      (hDecode : Instruction.decode chunk.code.toArray m.ip = .error (.unknown byte)) :
      Faulted chunk m (.invalidOpcode byte) { m with ip := m.ip + 1 }
  | cutOff {opcode : Opcode}
      (hDecode : Instruction.decode chunk.code.toArray m.ip = .error (.truncated opcode)) :
      Faulted chunk m .truncatedInstruction { m with ip := m.ip + 1 }
  | missing {i : Instruction} {operand : UInt32}
      (hDecode : Instruction.decode chunk.code.toArray m.ip = .ok i)
      (hOperand : i.operand = some operand) (hPool : chunk.constants.size ≤ operand.toNat) :
      Faulted chunk m (.invalidConstant operand.toNat) { m with ip := m.ip + i.width }
  | overflows {i : Instruction} (hDecode : Instruction.decode chunk.code.toArray m.ip = .ok i) :
      Faulted chunk m .stackOverflow { m with ip := m.ip + i.width }
  | underflows {i : Instruction} {left : Machine}
      (hDecode : Instruction.decode chunk.code.toArray m.ip = .ok i)
      (hIp : left.ip = m.ip + i.width) : Faulted chunk m .stackUnderflow left

section Step

variable {chunk : Chunk} {m : Machine} {i : Instruction}

/-- A step executes what is decoded, with the pointer behind the instruction. -/
theorem step_of_decode (h : Instruction.decode chunk.code.toArray m.ip = .ok i) :
    step chunk m =
      dispatch chunk.constants i.opcode (i.operand.getD 0) { m with ip := m.ip + i.width } := by
  rw [step_eq, h]

/-- Where an instruction decodes, a step is its dispatch behind it. -/
theorem dispatched_of_decode (hStack : m.stack.size ≤ m.stack.limit)
    (h : Instruction.decode chunk.code.toArray m.ip = .ok i) :
    Dispatched chunk.constants i.opcode (i.operand.getD 0) { m with ip := m.ip + i.width }
      (step chunk m) := by
  rw [step_of_decode h]
  exact dispatched_dispatch hStack

/-- Only an instruction with operand bytes is decoded with an operand. -/
theorem exists_operand (h : Instruction.decode chunk.code.toArray m.ip = .ok i)
    (hWidth : i.opcode.operandWidth ≠ 0) : ∃ operand, i.operand = some operand := by
  have hForm := (Instruction.carries_of_decode h).1
  obtain ⟨opcode, _ | operand⟩ := i
  · exact absurd hForm hWidth
  · exact ⟨operand, rfl⟩

/-- A failed step says what it failed on and where the pointer was left. -/
theorem faulted_of_step (hStack : m.stack.size ≤ m.stack.limit) {kind : FaultKind}
    {left : Machine} (h : step chunk m = .error kind left) : Faulted chunk m kind left := by
  cases hDecode : Instruction.decode chunk.code.toArray m.ip with
  | ok i =>
      have hDispatched := dispatched_of_decode hStack hDecode
      rw [h] at hDispatched
      cases hDispatched with
      | underflows hIp => exact .underflows hDecode hIp
      | overflows => exact .overflows hDecode
      | missing hLoad hPool =>
          obtain ⟨operand, hOperand⟩ := exists_operand hDecode hLoad
          rw [hOperand] at hPool ⊢
          exact .missing hDecode hOperand hPool
  | error reason =>
      rw [step_eq, hDecode] at h
      cases reason with
      | unknown byte => cases h; exact .unknown hDecode
      | truncated opcode => cases h; exact .cutOff hDecode
      | endOfCode => cases h; exact .atEnd hDecode

/-- A decoded load of a constant that the pool does not have. -/
theorem step_of_missing {operand : UInt32}
    (hDecode : Instruction.decode chunk.code.toArray m.ip = .ok i)
    (hOperand : i.operand = some operand) (hPool : chunk.constants.size ≤ operand.toNat) :
    step chunk m = .error (.invalidConstant operand.toNat) { m with ip := m.ip + i.width } := by
  have hForm := (Instruction.carries_of_decode hDecode).1
  obtain ⟨opcode, _⟩ := i
  cases hOperand
  rw [step_of_decode hDecode]
  exact dispatch_of_missing hForm.1 hPool

/-- A step faults with a kind under this condition and no other, and then leaves the pointer at
this offset. -/
def FaultsIff (m : Machine) (chunk : Chunk) (condition : Prop) (kind : FaultKind) (ip : Nat) :
    Prop :=
  (condition ↔ ∃ left, step chunk m = .error kind left) ∧
    ∀ left, step chunk m = .error kind left → left.ip = ip

/-- A condition that causes a fault and follows from it is the condition for it. -/
theorem faultsIff (hStack : m.stack.size ≤ m.stack.limit) {condition : Prop} {kind : FaultKind}
    {ip : Nat} (hFaults : condition → ∃ left, step chunk m = .error kind left)
    (hFaulted : ∀ left, Faulted chunk m kind left → condition ∧ left.ip = ip) :
    m.FaultsIff chunk condition kind ip := by
  refine ⟨⟨hFaults, ?_⟩, fun left h => (hFaulted left (faulted_of_step hStack h)).2⟩
  rintro ⟨left, h⟩
  exact (hFaulted left (faulted_of_step hStack h)).1

/-- A step comes to the execution of an opcode with an operand, and ends as that ends. -/
def Executes (m : Machine) (chunk : Chunk) (opcode : Opcode) (operand : UInt32) : Prop :=
  ∃ fetched, fetch chunk.code.toArray m = .ok (opcode, operand) fetched ∧
    step chunk m = dispatch chunk.constants opcode operand fetched

theorem executes_iff {opcode : Opcode} {operand : UInt32} :
    m.Executes chunk opcode operand ↔
      ∃ i, Instruction.decode chunk.code.toArray m.ip = .ok i ∧ i.opcode = opcode ∧
        i.operand.getD 0 = operand := by
  constructor
  · rintro ⟨fetched, hFetch, -⟩
    rw [fetch_eq] at hFetch
    cases hDecode : Instruction.decode chunk.code.toArray m.ip with
    | ok i =>
        rw [hDecode] at hFetch
        cases hFetch
        exact ⟨i, rfl, rfl, rfl⟩
    | error reason =>
        rw [hDecode] at hFetch
        cases reason <;> cases hFetch
  · rintro ⟨i, hDecode, rfl, rfl⟩
    refine ⟨{ m with ip := m.ip + i.width }, ?_, step_of_decode hDecode⟩
    rw [fetch_eq, hDecode]

/-- Whatever the execution of a decoded instruction does, the pointer is left behind it. -/
theorem ip_of_decode (hStack : m.stack.size ≤ m.stack.limit)
    (h : Instruction.decode chunk.code.toArray m.ip = .ok i) :
    match step chunk m with
    | .ok () next => next.ip = m.ip + i.width
    | .error kind left => left.ip = m.ip + i.width ∧
      (kind = .stackOverflow ∨ kind = .stackUnderflow ∨
        ∃ operand, i.operand = some operand ∧ kind = .invalidConstant operand.toNat) := by
  have hDispatched := dispatched_of_decode hStack h
  revert hDispatched
  cases step chunk m with
  | ok _ next =>
      rintro ⟨hIp⟩
      exact hIp
  | error kind left =>
      intro hDispatched
      cases hDispatched with
      | underflows hIp => exact ⟨hIp, .inr (.inl rfl)⟩
      | overflows => exact ⟨rfl, .inl rfl⟩
      | missing hLoad hPool =>
          obtain ⟨operand, hOperand⟩ := exists_operand h hLoad
          rw [hOperand]
          exact ⟨rfl, .inr (.inr ⟨operand, rfl, rfl⟩)⟩

/-- A constant is missing exactly when a decoded operand reaches behind the pool. -/
theorem missing_iff (hStack : m.stack.size ≤ m.stack.limit) {index : Nat} :
    (∃ left, step chunk m = .error (.invalidConstant index) left) ↔
      ∃ i operand, Instruction.decode chunk.code.toArray m.ip = .ok i ∧
        i.operand = some operand ∧ operand.toNat = index ∧ chunk.constants.size ≤ index := by
  constructor
  · rintro ⟨left, h⟩
    cases faulted_of_step hStack h with
    | missing hDecode hOperand hPool => exact ⟨_, _, hDecode, hOperand, rfl, hPool⟩
  · rintro ⟨i, operand, hDecode, hOperand, rfl, hPool⟩
    exact ⟨_, step_of_missing hDecode hOperand hPool⟩

end Step

/-- A step fails at the end of the code, at a byte that is no opcode and at an operand that is cut
off exactly where decoding does, and otherwise executes the instruction that is decoded. The
pointer is then left behind the instruction, whether the execution succeeds or not. A constant is
missing exactly if the decoded operand names none. Nothing but an underflow touches the stack of a
step that fails. -/
theorem step_agrees_with_decode (chunk : Chunk) (m : Machine)
    (hStack : m.stack.size ≤ m.stack.limit) :
    m.FaultsIff chunk (Instruction.decode chunk.code.toArray m.ip = .error .endOfCode)
      .unexpectedEndOfCode m.ip ∧
    (∀ byte, m.FaultsIff chunk
      (Instruction.decode chunk.code.toArray m.ip = .error (.unknown byte))
      (.invalidOpcode byte) (m.ip + 1)) ∧
    m.FaultsIff chunk
      (∃ opcode, Instruction.decode chunk.code.toArray m.ip = .error (.truncated opcode))
      .truncatedInstruction (m.ip + 1) ∧
    (∀ opcode operand, m.Executes chunk opcode operand ↔
      ∃ i, Instruction.decode chunk.code.toArray m.ip = .ok i ∧ i.opcode = opcode ∧
        i.operand.getD 0 = operand) ∧
    (∀ i, Instruction.decode chunk.code.toArray m.ip = .ok i →
      match step chunk m with
      | .ok () next => next.ip = m.ip + i.width
      | .error kind left => left.ip = m.ip + i.width ∧
        (kind = .stackOverflow ∨ kind = .stackUnderflow ∨
          ∃ operand, i.operand = some operand ∧ kind = .invalidConstant operand.toNat)) ∧
    (∀ index, (∃ left, step chunk m = .error (.invalidConstant index) left) ↔
      ∃ i operand, Instruction.decode chunk.code.toArray m.ip = .ok i ∧
        i.operand = some operand ∧ operand.toNat = index ∧ chunk.constants.size ≤ index) ∧
    ∀ kind left, step chunk m = .error kind left → kind ≠ .stackUnderflow →
      left.stack = m.stack := by
  refine ⟨faultsIff hStack (fun h => ⟨m, by rw [step_eq, h]⟩) fun left h => ?_,
    fun byte => faultsIff hStack (fun h => ⟨_, by rw [step_eq, h]⟩) fun left h => ?_,
    faultsIff hStack (fun ⟨_, h⟩ => ⟨_, by rw [step_eq, h]⟩) fun left h => ?_,
    fun _ _ => executes_iff, fun _ => ip_of_decode hStack, fun _ => missing_iff hStack,
    fun kind left h hKind => ?_⟩
  · cases h with
    | atEnd hDecode => exact ⟨hDecode, rfl⟩
  · cases h with
    | unknown hDecode => exact ⟨hDecode, rfl⟩
  · cases h with
    | cutOff hDecode => exact ⟨⟨_, hDecode⟩, rfl⟩
  · cases faulted_of_step hStack h with
    | underflows hDecode hIp => exact absurd rfl hKind
    | _ => rfl

/-- After an addition, the load of a constant that the empty pool does not have. The bytes of its
index could be opcodes. -/
def unlisted : Chunk :=
  ⟨⟨#[4, 2, 3, 1, 0], 8⟩, ⟨#[1, 1, 1, 1, 1], 8⟩, .empty⟩

/-- In front of the load, with no room on the stack. -/
def beforeUnlisted : Machine := { new { stackLimit := 0 } with ip := 1 }

/-- The missing constant is found before the full stack, and behind the whole instruction. -/
theorem step_on_unlisted :
    beforeUnlisted.stack.size ≤ beforeUnlisted.stack.limit ∧
    ∃ left, step unlisted beforeUnlisted = .error (.invalidConstant 259) left ∧
      left.ip = unlisted.size ∧ left.stack = beforeUnlisted.stack := by
  have hDecode : Instruction.decode unlisted.code.toArray beforeUnlisted.ip =
      .ok ⟨.constantLong, some 259⟩ := rfl
  have hRoom : beforeUnlisted.stack.size ≤ beforeUnlisted.stack.limit := Nat.le_refl 0
  obtain ⟨-, -, -, -, hPointer, hMissing, hStack⟩ :=
    step_agrees_with_decode unlisted beforeUnlisted hRoom
  obtain ⟨left, hLeft⟩ := (hMissing 259).mpr ⟨_, 259, hDecode, rfl, rfl, by decide⟩
  have hIp := hPointer _ hDecode
  rw [hLeft] at hIp
  exact ⟨hRoom, left, hLeft, hIp.1, hStack _ left hLeft nofun⟩

end Machine

end StackMachine
