import StackMachine.Proofs.Addressing
import StackMachine.Proofs.Fetching
import StackMachine.Proofs.Runs

/-! The end of every run. A run is watched from one action of the machine to the next, also inside
a step, and instructions are counted as they are begun. Each turn of the loop moves the pointer
forward inside the code, so there is at most one turn more than there are bytes. At every moment
the stack is within its limit and holds no more values than instructions have been begun, because
each instruction pushes one value at most. -/
namespace StackMachine

namespace Machine

/-- A machine between two of its actions, and how many instructions have been begun so far. An
instruction is begun when its opcode is fetched. -/
structure Moment where
  machine : Machine
  begun : Nat

/-- A machine that is watched: the present moment and those before it, the latest first. -/
structure Watched where
  now : Moment
  past : List Moment

abbrev Watching (α : Type) := EStateM FaultKind Watched α

namespace Watched

def begin (m : Machine) : Watched := ⟨⟨m, 0⟩, []⟩

def machine (w : Watched) : Machine := w.now.machine

def moments (w : Watched) : List Moment := w.now :: w.past

def advance (w : Watched) (m : Machine) (begun : Nat) : Watched :=
  ⟨⟨m, w.now.begun + begun⟩, w.moments⟩

/-- Watch a single action, which begins so many instructions if it succeeds. -/
def watch {α : Type} (begun : Nat) (act : Action α) : Watching α := fun w =>
  match act w.machine with
  | .ok a m => .ok a (w.advance m begun)
  | .error kind m => .error kind (w.advance m 0)

/-- `Machine.unary`, watched before the push. -/
def unary (op : Float → Float) : Watching Unit := do
  let value ← watch 0 (onStack Stack.pop)
  watch 0 (onStack (Stack.push (.number (op value.toFloat))))

/-- `Machine.binary`, watched between the pops and before the push. -/
def binary (op : Float → Float → Float) : Watching Unit := do
  let right ← watch 0 (onStack Stack.pop)
  let left ← watch 0 (onStack Stack.pop)
  watch 0 (onStack (Stack.push (.number (op left.toFloat right.toFloat))))

def dispatch (constants : ConstantPool) (opcode : Opcode) (operand : UInt32) : Watching Unit :=
  match opcode with
  | .constant => watch 0 (load constants operand.toNat)
  | .constantLong => watch 0 (load constants operand.toNat)
  | .ret => watch 0 halt
  | .negate => unary fun x => -x
  | .add => binary fun x y => x + y
  | .subtract => binary fun x y => x - y
  | .multiply => binary fun x y => x * y
  | .divide => binary fun x y => x / y

def step (chunk : Chunk) : Watching Unit := do
  let opcode ← watch 1 (fetchOpcode chunk.code.toArray)
  let operand ← watch 0 (fetchOperand chunk.code.toArray opcode)
  dispatch chunk.constants opcode operand

structure Ended where
  watched : Watched
  fault : Option Fault
  /-- The offset at the beginning of each turn of the loop. -/
  starts : List Nat

/-- `Machine.execute`, watched for so many turns of the loop. There is no answer if it goes on
after them. -/
def execute (chunk : Chunk) (turns : Nat) (w : Watched) : Option Ended :=
  if w.machine.halted then some ⟨w, none, []⟩
  else
    match turns with
    | 0 => none
    | turns + 1 =>
      let start := w.machine.ip
      match step chunk w with
      | .ok () next =>
        (execute chunk turns next).map fun ended => { ended with starts := start :: ended.starts }
      | .error kind left => some ⟨left, some ⟨start, faultLine? chunk start, kind⟩, [start]⟩

/-- What is left of a result when nothing has been watched. -/
def erase {α : Type} : EStateM.Result FaultKind Watched α → EStateM.Result FaultKind Machine α
  | .ok a w => .ok a w.machine
  | .error kind w => .error kind w.machine

end Watched

/-- The bounds that a machine keeps in a run. -/
structure InBounds (chunk : Chunk) (limit : Nat) (m : Machine) : Prop where
  pointer : m.ip ≤ chunk.size
  limit_eq : m.stack.limit = limit
  room : m.stack.size ≤ limit

/-- How a single action of a machine in bounds ends. The machine is still in bounds. If `before`
values may be pushed for the instructions begun earlier, then `after` may be pushed when the action
has succeeded and begun so many instructions. A failure leaves no more values than there were. -/
inductive Paid {α : Type} (chunk : Chunk) (limit begun before after : Nat) (m : Machine) :
    EStateM.Result FaultKind Machine α → Prop where
  | ok {a : α} {next : Machine} (hBounds : next.InBounds chunk limit)
      (hSize : next.stack.size + after ≤ m.stack.size + before + begun) :
      Paid chunk limit begun before after m (.ok a next)
  | error {kind : FaultKind} {left : Machine} (hBounds : left.InBounds chunk limit)
      (hSize : left.stack.size ≤ m.stack.size) :
      Paid chunk limit begun before after m (.error kind left)

section Actions

variable {chunk : Chunk} {limit : Nat} {m : Machine} (h : m.InBounds chunk limit)

include h

/-- Fetching an opcode begins an instruction, which may push one value. -/
theorem paid_fetchOpcode : Paid chunk limit 1 0 1 m (fetchOpcode chunk.code.toArray m) := by
  unfold fetchOpcode
  cases hByte : chunk.code.toArray[m.ip]? with
  | none => exact .error h (Nat.le_refl _)
  | some byte =>
      have hInside : m.ip < chunk.size := (Array.getElem?_eq_some_iff.mp hByte).1
      have hMoved : InBounds chunk limit { m with ip := m.ip + 1 } :=
        ⟨hInside, h.limit_eq, h.room⟩
      simp only
      cases Opcode.ofByte? byte with
      | none => exact .error hMoved (Nat.le_refl _)
      | some opcode => exact .ok hMoved (Nat.le_refl _)

/-- An operand is passed over inside the code, and the value may still be pushed. -/
theorem paid_fetchOperand (opcode : Opcode) :
    Paid chunk limit 0 1 1 m (fetchOperand chunk.code.toArray opcode m) := by
  unfold fetchOperand
  cases hWindow : Operand.window? chunk.code.toArray m.ip opcode.operandWidth with
  | none => exact .error h (Nat.le_refl _)
  | some bytes =>
      have hInside := Operand.end_le_of_window? hWindow
      exact .ok ⟨hInside, h.limit_eq, h.room⟩ (Nat.le_refl _)

/-- A pop pushes nothing, so the value may still be pushed behind it. -/
theorem paid_pop : Paid chunk limit 0 1 1 m (onStack Stack.pop m) := by
  cases hTop : m.stack.values.back? with
  | none =>
      rw [onStack_pop_of_none hTop]
      exact .error h (Nat.le_refl _)
  | some value =>
      obtain ⟨stack, hPop, hValues, hBecomes⟩ := onStack_pop_of_some hTop
      have hPopped : stack.size ≤ m.stack.size := by
        rw [Stack.size, hValues]
        exact Nat.le_of_lt (size_pop_lt hTop)
      rw [hPop]
      exact .ok ⟨h.pointer, hBecomes.limit.trans h.limit_eq, hPopped.trans h.room⟩
        (Nat.succ_le_succ hPopped)

/-- A push uses up the value that its instruction may push. -/
theorem paid_push (value : Value) :
    Paid chunk limit 0 1 0 m (onStack (Stack.push value) m) := by
  rcases Nat.lt_or_ge m.stack.size m.stack.room with hRoom | hFull
  · obtain ⟨stack, hPush, hValues, hBecomes⟩ := onStack_push_of_room hRoom value
    have hPushed : stack.size = m.stack.size + 1 := by
      rw [Stack.size, hValues, Array.size_push, Stack.size]
    have hFits : stack.size ≤ limit := by
      rw [hPushed, ← h.limit_eq]
      exact hRoom.trans_le m.stack.room_le_limit
    rw [hPush]
    exact .ok ⟨h.pointer, hBecomes.limit.trans h.limit_eq, hFits⟩ hPushed.le
  · rw [onStack_push_of_full hFull]
    exact .error h (Nat.le_refl _)

theorem paid_load (constants : ConstantPool) (index : Nat) :
    Paid chunk limit 0 1 0 m (load constants index m) := by
  unfold load
  cases constants.get? index with
  | none => exact .error h (Nat.le_refl _)
  | some value => exact paid_push h value

theorem paid_halt : Paid chunk limit 0 1 0 m (halt m) :=
  .ok ⟨h.pointer, h.limit_eq, h.room⟩ (Nat.le_succ _)

end Actions

namespace Watched

/-- Every moment is in bounds and has no more values than instructions begun. For the instructions
begun now, `spare` more values may be pushed. -/
structure Keeps (chunk : Chunk) (limit spare : Nat) (w : Watched) : Prop where
  moments : ∀ moment ∈ w.moments,
    moment.machine.InBounds chunk limit ∧ moment.machine.stack.size ≤ moment.begun
  spare : w.machine.stack.size + spare ≤ w.now.begun

/-- A watched action does what an action does. If `before` values may be pushed, the bounds are
kept and `after` values may be pushed when it has succeeded. -/
structure Watches {α : Type} (chunk : Chunk) (limit before after : Nat) (watched : Watching α)
    (act : Action α) : Prop where
  erase_eq : ∀ w, erase (watched w) = act w.machine
  ok : ∀ {w next : Watched} {a : α}, w.Keeps chunk limit before → watched w = .ok a next →
    next.Keeps chunk limit after
  error : ∀ {w left : Watched} {kind : FaultKind}, w.Keeps chunk limit before →
    watched w = .error kind left → left.Keeps chunk limit 0

variable {chunk : Chunk} {limit before middle after begun spare : Nat} {α β : Type}

theorem Keeps.inBounds {w : Watched} (h : w.Keeps chunk limit spare) :
    w.machine.InBounds chunk limit :=
  (h.moments w.now List.mem_cons_self).1

/-- A moment within bounds is added to those kept. -/
theorem Keeps.advance {w : Watched} {m : Machine} (h : w.Keeps chunk limit before)
    (hBounds : m.InBounds chunk limit)
    (hSpare : m.stack.size + after ≤ w.machine.stack.size + before + begun) :
    (w.advance m begun).Keeps chunk limit after := by
  have hBegun : m.stack.size + after ≤ w.now.begun + begun :=
    hSpare.trans (Nat.add_le_add_right h.spare begun)
  refine ⟨fun moment hMoment => ?_, hBegun⟩
  rcases List.mem_cons.mp hMoment with rfl | hEarlier
  · exact ⟨hBounds, (Nat.le_add_right _ after).trans hBegun⟩
  · exact h.moments moment hEarlier

/-- An action that is paid for from every machine within bounds may be watched. -/
theorem watches_watch {act : Action α}
    (h : ∀ m : Machine, m.InBounds chunk limit → Paid chunk limit begun before after m (act m)) :
    Watches chunk limit before after (watch begun act) act where
  erase_eq w := by
    unfold watch
    cases act w.machine <;> rfl
  ok := by
    intro w next a hKeeps hOk
    have hPaid := h w.machine hKeeps.inBounds
    unfold watch at hOk
    generalize act w.machine = result at hPaid hOk
    cases hPaid with
    | ok hBounds hSize =>
        cases hOk
        exact hKeeps.advance hBounds hSize
    | error => cases hOk
  error := by
    intro w left kind hKeeps hError
    have hPaid := h w.machine hKeeps.inBounds
    unfold watch at hError
    generalize act w.machine = result at hPaid hError
    cases hPaid with
    | ok => cases hError
    | error hBounds hSize =>
        cases hError
        exact hKeeps.advance hBounds (hSize.trans (Nat.le_add_right _ before))

/-- What one action spares, the next may spend. -/
theorem Watches.bind {watched : Watching α} {act : Action α} {more : α → Watching β}
    {next : α → Action β} (h : Watches chunk limit before middle watched act)
    (hNext : ∀ a, Watches chunk limit middle after (more a) (next a)) :
    Watches chunk limit before after (watched >>= more) (act >>= next) where
  erase_eq w := by
    have hFirst := h.erase_eq w
    simp only [Bind.bind, EStateM.bind, ← hFirst]
    cases watched w with
    | ok a w' => exact (hNext a).erase_eq w'
    | error kind left => rfl
  ok := by
    intro w last b hKeeps hOk
    simp only [Bind.bind, EStateM.bind] at hOk
    split at hOk
    · rename_i hFirst
      exact (hNext _).ok (h.ok hKeeps hFirst) hOk
    · cases hOk
  error := by
    intro w left kind hKeeps hError
    simp only [Bind.bind, EStateM.bind] at hError
    split at hError
    · rename_i hFirst
      exact (hNext _).error (h.ok hKeeps hFirst) hError
    · rename_i hFirst
      cases hError
      exact h.error hKeeps hFirst

theorem watches_pop : Watches chunk limit 1 1 (watch 0 (onStack Stack.pop)) (onStack Stack.pop) :=
  watches_watch fun _ h => paid_pop h

theorem watches_push (value : Value) : Watches chunk limit 1 0
    (watch 0 (onStack (Stack.push value))) (onStack (Stack.push value)) :=
  watches_watch fun _ h => paid_push h value

theorem watches_load (constants : ConstantPool) (index : Nat) :
    Watches chunk limit 1 0 (watch 0 (load constants index)) (load constants index) :=
  watches_watch fun _ h => paid_load h constants index

theorem watches_unary (op : Float → Float) :
    Watches chunk limit 1 0 (unary op) (Machine.unary op) :=
  watches_pop.bind fun _ => watches_push _

theorem watches_binary (op : Float → Float → Float) :
    Watches chunk limit 1 0 (binary op) (Machine.binary op) :=
  watches_pop.bind fun _ => watches_pop.bind fun _ => watches_push _

/-- No instruction leaves the bounds while it is executed. -/
theorem watches_dispatch (constants : ConstantPool) (opcode : Opcode) (operand : UInt32) :
    Watches chunk limit 1 0 (dispatch constants opcode operand)
      (Machine.dispatch constants opcode operand) := by
  cases opcode with
  | constant => exact watches_load constants _
  | constantLong => exact watches_load constants _
  | ret => exact watches_watch fun _ h => paid_halt h
  | negate => exact watches_unary _
  | add => exact watches_binary _
  | subtract => exact watches_binary _
  | multiply => exact watches_binary _
  | divide => exact watches_binary _

/-- Watching a step changes nothing about it, and finds the bounds kept inside it. -/
theorem watches_step (chunk : Chunk) (limit : Nat) :
    Watches chunk limit 0 0 (step chunk) (Machine.step chunk) := by
  have hOpcode : Watches chunk limit 0 1 (watch 1 (fetchOpcode chunk.code.toArray))
      (fetchOpcode chunk.code.toArray) := watches_watch fun _ h => paid_fetchOpcode h
  have hOperand (opcode : Opcode) : Watches chunk limit 1 1
      (watch 0 (fetchOperand chunk.code.toArray opcode))
      (fetchOperand chunk.code.toArray opcode) :=
    watches_watch fun _ h => paid_fetchOperand h opcode
  exact hOpcode.bind fun opcode => (hOperand opcode).bind fun operand =>
    watches_dispatch chunk.constants opcode operand

/-- What the end of a watched run tells about its last turns, which begin at a moment. -/
structure Ended.Describes (chunk : Chunk) (limit turns : Nat) (w : Watched) (ended : Ended) :
    Prop where
  keeps : ended.watched.Keeps chunk limit 0
  increasing : ended.starts.Pairwise (· < ·)
  start_le : ∀ start ∈ ended.starts, w.machine.ip ≤ start
  length_le : ended.starts.length ≤ turns
  execute_eq : ∀ log, ∃ events,
    Machine.execute chunk w.machine log = ⟨ended.watched.machine, ended.fault, events⟩

/-- One more turn in front starts at the pointer it began with. -/
theorem Ended.Describes.cons {w next : Watched} {ended : Ended} {turns : Nat}
    (h : ended.Describes chunk limit turns next) (hRunning : w.machine.halted = false)
    (hStep : Machine.step chunk w.machine = .ok () next.machine) :
    Ended.Describes chunk limit (turns + 1) w
      { ended with starts := w.machine.ip :: ended.starts } where
  keeps := h.keeps
  increasing := by
    refine .cons (fun start hStart => ?_) h.increasing
    exact (ip_of_step hStep).1.trans_le (h.start_le start hStart)
  start_le := by
    refine List.forall_mem_cons.mpr ⟨Nat.le_refl _, fun start hStart => ?_⟩
    exact (ip_of_step hStep).1.le.trans (h.start_le start hStart)
  length_le := Nat.succ_le_succ h.length_le
  execute_eq log := by
    rw [execute_of_step hRunning hStep]
    exact h.execute_eq _

/-- If there is a turn for each byte that is left and one for the end of the code, the loop comes
to its end. -/
theorem exists_ended {turns : Nat} {w : Watched} (h : w.Keeps chunk limit 0)
    (hTurns : chunk.size < w.machine.ip + turns) :
    ∃ ended, execute chunk turns w = some ended ∧ ended.Describes chunk limit turns w := by
  induction turns generalizing w with
  | zero => exact absurd h.inBounds.pointer (Nat.not_le_of_lt hTurns)
  | succ turns ih =>
      unfold execute
      cases hHalted : w.machine.halted with
      | true =>
          refine ⟨_, if_pos rfl, h, .nil, nofun, Nat.zero_le _, fun log => ⟨log, ?_⟩⟩
          exact execute_of_halted hHalted log
      | false =>
          have hStep := (watches_step chunk limit).erase_eq w
          simp only [Bool.false_eq_true, if_false]
          cases hWatched : step chunk w with
          | ok _ next =>
              rw [hWatched] at hStep
              have hKeeps := (watches_step chunk limit).ok h hWatched
              have hMoved := (ip_of_step hStep.symm).1
              obtain ⟨ended, hEnded, hDescribes⟩ := ih hKeeps (by omega)
              simp only [hEnded, Option.map_some]
              exact ⟨_, rfl, hDescribes.cons hHalted hStep.symm⟩
          | error kind left =>
              rw [hWatched] at hStep
              have hKeeps := (watches_step chunk limit).error h hWatched
              refine ⟨_, rfl, hKeeps, List.pairwise_singleton _ _, ?_,
                Nat.succ_le_succ (Nat.zero_le _),
                fun log => ⟨_, execute_of_fault hHalted hStep.symm log⟩⟩
              exact List.forall_mem_singleton.mpr (Nat.le_refl _)

end Watched

/-- Every run comes to its end, whatever the machine has done before. The offsets at which the turns
of the loop begin increase, and there is at most one turn more than there are bytes. At every moment
between and inside the steps, the pointer is inside the code or at its end, the stack is within its
limit, and it holds no more values than instructions have been begun. If the size of the code is
less than half the range of a word, then the lookup of an operand at such a moment cannot wrap
around, and neither can decoding or a row at any word. Nothing is decoded and there is no row
exactly at the offsets from the end of the code on. -/
theorem run_ends_within_bounds (chunk : Chunk) (m : Machine) :
    (∃ ended, Watched.execute chunk (chunk.size + 1) (.begin m.reset) = some ended ∧
      (∀ log, ∃ events,
        execute chunk m.reset log = ⟨ended.watched.machine, ended.fault, events⟩) ∧
      ended.starts.Pairwise (· < ·) ∧ ended.starts.length ≤ chunk.size + 1 ∧
      ∀ moment ∈ ended.watched.moments,
        moment.machine.ip ≤ chunk.size ∧
        moment.machine.stack.size ≤ m.stack.limit ∧
        moment.machine.stack.size ≤ moment.begun ∧
        (chunk.size < 2 ^ 63 → ∀ opcode : Opcode,
          Operand.windowInWords? chunk.code.toArray (.ofNat moment.machine.ip)
              opcode.operandWidth =
            some (Operand.window? chunk.code.toArray moment.machine.ip opcode.operandWidth))) ∧
    (chunk.size < 2 ^ 63 → ∀ offset : UInt64,
      Instruction.decodeInWords? chunk.code.toArray offset =
          some (Instruction.decode chunk.code.toArray offset.toNat) ∧
        Row.atInWords? chunk offset = some (Row.at? chunk offset.toNat)) ∧
    ∀ offset,
      (Instruction.decode chunk.code.toArray offset = .error .endOfCode ↔ chunk.size ≤ offset) ∧
        (Row.at? chunk offset = none ↔ chunk.size ≤ offset) := by
  have hStart : (Watched.begin m.reset).Keeps chunk m.stack.limit 0 := by
    refine ⟨fun moment hMoment => ?_, Nat.le_refl 0⟩
    cases List.mem_singleton.mp hMoment
    exact ⟨⟨Nat.zero_le _, rfl, Nat.zero_le _⟩, Nat.le_refl 0⟩
  have hTurns : chunk.size < (Watched.begin m.reset).machine.ip + (chunk.size + 1) :=
    Nat.lt_of_lt_of_le (Nat.lt_succ_self _) (Nat.le_add_left _ _)
  obtain ⟨ended, hEnded, hDescribes⟩ := Watched.exists_ended hStart hTurns
  refine ⟨⟨ended, hEnded, hDescribes.execute_eq, hDescribes.increasing, hDescribes.length_le,
    fun moment hMoment => ?_⟩, fun hSize offset => ?_, fun offset => ?_⟩
  · obtain ⟨hBounds, hBegun⟩ := hDescribes.keeps.moments moment hMoment
    refine ⟨hBounds.pointer, hBounds.room, hBegun, fun hSize opcode => ?_⟩
    exact Operand.windowInWords?_ofNat hSize hBounds.pointer opcode
  · exact ⟨Instruction.decodeInWords?_eq hSize offset, Row.atInWords?_eq hSize offset⟩
  · rw [Row.at?_eq_none_iff]
    exact ⟨Instruction.decode_eq_endOfCode_iff, Instruction.decode_eq_endOfCode_iff⟩

/-- A load and a negation, and behind them a long load that is cut off. -/
def severed : Chunk :=
  ⟨⟨#[0, 0, 3, 2, 9], 8⟩, ⟨#[1, 1, 2, 3, 3], 8⟩, ⟨#[.number 1], 8⟩⟩

/-- The third turn is the last one. At the greatest word there is nothing to decode. -/
theorem run_of_severed :
    severed.size < 2 ^ 63 ∧
      (∃ ended, Watched.execute severed 6 (.begin (new { stackLimit := 1 }).reset) = some ended ∧
        ended.starts = [0, 2, 3] ∧
        ∀ moment ∈ ended.watched.moments, moment.machine.stack.size ≤ 1) ∧
      Instruction.decodeInWords? severed.code.toArray 18446744073709551615 =
          some (.error .endOfCode) ∧
        Row.atInWords? severed 18446744073709551615 = some none := by
  have hSize : severed.size < 2 ^ 63 := by decide
  have hTurns : (Watched.execute severed 6 (.begin (new { stackLimit := 1 }).reset)).map
      Watched.Ended.starts = some [0, 2, 3] := by
    decide +kernel
  obtain ⟨⟨ended, hEnded, -, -, -, hMoments⟩, hWords, hPast⟩ :=
    run_ends_within_bounds severed (new { stackLimit := 1 })
  obtain ⟨hDecode, hRow⟩ := hWords hSize 18446744073709551615
  have hFar : severed.size ≤ (18446744073709551615 : UInt64).toNat := by decide
  rw [(hPast _).1.mpr hFar] at hDecode
  rw [(hPast _).2.mpr hFar] at hRow
  rw [show severed.size + 1 = 6 from rfl] at hEnded
  rw [hEnded] at hTurns
  exact ⟨hSize, ⟨ended, hEnded, Option.some.inj hTurns, fun moment h => (hMoments moment h).2.1⟩,
    hDecode, hRow⟩

end Machine

end StackMachine
