import StackMachine.Expression
import StackMachine.Proofs.Runs

/-! The instructions that let a program go on, each with what it takes from the values and what
it leaves. A run advances exactly by such an instruction at its offset. -/
namespace StackMachine

/-- A load in its short or its long form. The index fits the operand of the form. -/
inductive Load where
  | short (index : UInt8)
  | long (index : Fin Chunk.constantLimit)
  deriving DecidableEq

namespace Load

def index : Load → Nat
  | .short index => index.toNat
  | .long index => index

def instruction : Load → Instruction
  | .short index => ⟨.constant, some index.toUInt32⟩
  | .long index => ⟨.constantLong, some (UInt32.ofNat index)⟩

/-- The long form for any index. Past the limit the indices begin again. -/
def wrapping (index : Nat) : Load :=
  .long ⟨index % Chunk.constantLimit, Nat.mod_lt index (by decide)⟩

theorem wrapping_of_lt {index : Nat} (h : index < Chunk.constantLimit) :
    wrapping index = .long ⟨index, h⟩ :=
  congrArg Load.long (Fin.ext (Nat.mod_eq_of_lt h))

/-- A load carries its index as its operand. -/
theorem operand_instruction (source : Load) :
    ∃ operand, source.instruction.operand = some operand ∧ operand.toNat = source.index := by
  cases source with
  | short index => exact ⟨_, rfl, UInt8.toNat_toUInt32 index⟩
  | long index =>
      refine ⟨_, rfl, ?_⟩
      rw [UInt32.toNat_ofNat']
      exact Nat.mod_eq_of_lt (Nat.lt_trans index.isLt (by decide))

theorem wellFormed_instruction (source : Load) : source.instruction.WellFormed := by
  obtain ⟨operand, hOperand, hIndex⟩ := source.operand_instruction
  cases source with
  | short index =>
      refine ⟨by decide, ?_⟩
      rw [UInt8.toNat_toUInt32]
      exact index.toNat_lt
  | long index =>
      cases hOperand
      refine ⟨by decide, ?_⟩
      rw [hIndex]
      exact index.isLt

end Load

/-- Every well-formed instruction with an operand is a load. -/
theorem exists_load {opcode : Opcode} {operand : UInt32}
    (h : Instruction.WellFormed ⟨opcode, some operand⟩) :
    ∃ source : Load, source.instruction = ⟨opcode, some operand⟩ ∧
      source.index = operand.toNat := by
  obtain ⟨hWidth, hFits⟩ := h
  cases opcode with
  | constant =>
      have hByte : operand.toUInt8.toUInt32 = operand := by
        apply UInt32.toNat_inj.mp
        rw [UInt8.toNat_toUInt32, UInt32.toNat_toUInt8]
        exact Nat.mod_eq_of_lt hFits
      refine ⟨.short operand.toUInt8, by rw [Load.instruction, hByte], ?_⟩
      rw [Load.index, UInt32.toNat_toUInt8]
      exact Nat.mod_eq_of_lt hFits
  | constantLong =>
      refine ⟨.long ⟨operand.toNat, hFits⟩, ?_, rfl⟩
      rw [Load.instruction, UInt32.ofNat_toNat]
  | _ => exact absurd rfl hWidth

/-- One instruction after which the program goes on. The values are listed from the top. Only
a load needs room for one more value than there was before. -/
inductive Executes (constants : ConstantPool) (limit : Nat) :
    Instruction → List Value → List Value → Prop where
  | load {source : Load} {value : Value} {values : List Value}
      (hValue : constants.get? source.index = some value) (hRoom : values.length < limit) :
      Executes constants limit source.instruction values (value :: values)
  | negate {x : Value} {rest : List Value} (hRoom : rest.length < limit) :
      Executes constants limit ⟨.negate, none⟩ (x :: rest) (.number (-x.toFloat) :: rest)
  | binary {operator : Operator} {x y : Value} {rest : List Value}
      (hRoom : rest.length < limit) :
      Executes constants limit ⟨operator.opcode, none⟩ (y :: x :: rest)
        (.number (operator.apply x.toFloat y.toFloat) :: rest)

namespace Effect

/-- A value is pushed exactly while there is room for it. -/
theorem push_eq_continues_iff {limit : Nat} {value : Value} {values after : List Value} :
    push limit value values = .continues after ↔
      values.length < limit ∧ after = value :: values := by
  unfold push
  by_cases hFull : limit ≤ values.length
  · rw [if_pos hFull]
    exact ⟨nofun, fun h => absurd h.1 (Nat.not_lt_of_le hFull)⟩
  · rw [if_neg hFull, Effect.continues.injEq]
    exact ⟨fun h => ⟨Nat.lt_of_not_le hFull, h.symm⟩, fun h => h.2.symm⟩

theorem unary_eq_continues_iff {limit : Nat} {op : Float → Float} {values after : List Value} :
    unary limit op values = .continues after ↔
      ∃ x rest, values = x :: rest ∧ rest.length < limit ∧
        after = .number (op x.toFloat) :: rest := by
  cases values with
  | nil => exact ⟨nofun, nofun⟩
  | cons x rest =>
      rw [unary, push_eq_continues_iff]
      constructor
      · rintro ⟨hRoom, rfl⟩
        exact ⟨x, rest, rfl, hRoom, rfl⟩
      · rintro ⟨_, _, hSame, hRoom, rfl⟩
        cases hSame
        exact ⟨hRoom, rfl⟩

/-- Two operands, the right one on top, are replaced by one result. -/
theorem binary_eq_continues_iff {limit : Nat} {op : Float → Float → Float}
    {values after : List Value} :
    binary limit op values = .continues after ↔
      ∃ x y rest, values = y :: x :: rest ∧ rest.length < limit ∧
        after = .number (op x.toFloat y.toFloat) :: rest := by
  match values with
  | [] => exact ⟨nofun, nofun⟩
  | [y] => exact ⟨nofun, nofun⟩
  | y :: x :: rest =>
      rw [binary, push_eq_continues_iff]
      constructor
      · rintro ⟨hRoom, rfl⟩
        exact ⟨x, y, rest, rfl, hRoom, rfl⟩
      · rintro ⟨_, _, _, hSame, hRoom, rfl⟩
        cases hSame
        exact ⟨hRoom, rfl⟩

/-- Only a full stack refuses a value. -/
theorem push_eq_faults_iff {limit : Nat} {value : Value} {values : List Value}
    {kind : FaultKind} :
    push limit value values = .faults kind ↔ limit ≤ values.length ∧ kind = .stackOverflow := by
  unfold push
  by_cases hFull : limit ≤ values.length
  · rw [if_pos hFull, Effect.faults.injEq]
    exact ⟨fun h => ⟨hFull, h.symm⟩, fun h => h.2.symm⟩
  · rw [if_neg hFull]
    exact ⟨nofun, fun h => absurd h.1 hFull⟩

/-- On a stack within its limit only a missing operand can fault. -/
theorem unary_eq_faults {limit : Nat} {op : Float → Float} {values : List Value}
    {kind : FaultKind} (h : unary limit op values = .faults kind) :
    kind = .stackUnderflow ∨ kind = .stackOverflow ∧ limit < values.length := by
  cases values with
  | nil =>
      cases h
      exact .inl rfl
  | cons x rest =>
      obtain ⟨hFull, rfl⟩ := push_eq_faults_iff.mp h
      exact .inr ⟨rfl, Nat.lt_succ_of_le hFull⟩

/-- With two operands, too, it is only a missing one on such a stack. -/
theorem binary_eq_faults {limit : Nat} {op : Float → Float → Float} {values : List Value}
    {kind : FaultKind} (h : binary limit op values = .faults kind) :
    kind = .stackUnderflow ∨ kind = .stackOverflow ∧ limit < values.length := by
  match values with
  | [] | [y] =>
      cases h
      exact .inl rfl
  | y :: x :: rest =>
      obtain ⟨hFull, rfl⟩ := push_eq_faults_iff.mp h
      exact .inr ⟨rfl, Nat.lt_succ_of_le (Nat.le_succ_of_le hFull)⟩

theorem push_ne_returns (limit : Nat) (value : Value) (values : List Value) :
    push limit value values ≠ .returns := by
  unfold push
  split <;> exact nofun

theorem unary_ne_returns (limit : Nat) (op : Float → Float) (values : List Value) :
    unary limit op values ≠ .returns := by
  cases values with
  | nil => exact nofun
  | cons x rest => exact push_ne_returns limit _ rest

theorem binary_ne_returns (limit : Nat) (op : Float → Float → Float) (values : List Value) :
    binary limit op values ≠ .returns := by
  match values with
  | [] => exact nofun
  | [y] => exact nofun
  | y :: x :: rest => exact push_ne_returns limit _ rest

end Effect

theorem RowContent.constant_effect_ne_returns (limit : Nat) (opcode : Opcode) (index : Nat)
    (value : Option Value) (values : List Value) :
    (RowContent.constant opcode index value).effect limit values ≠ .returns := by
  cases value with
  | none => exact nofun
  | some value => exact Effect.push_ne_returns limit value values

theorem effect_operator (limit : Nat) (operator : Operator) (values : List Value) :
    operator.opcode.effect limit values = .binary limit operator.apply values := by
  cases operator <;> rfl

/-- An operation faults for want of operands, and it never overflows a stack that keeps its
limit, because it takes its operands first. -/
theorem opcode_effect_eq_faults {limit : Nat} {opcode : Opcode} {values : List Value}
    {kind : FaultKind} (hWidth : opcode.operandWidth = 0)
    (h : opcode.effect limit values = .faults kind) :
    kind = .stackUnderflow ∨ kind = .stackOverflow ∧ limit < values.length := by
  cases opcode with
  | constant => cases hWidth
  | constantLong => cases hWidth
  | ret => cases h
  | negate => exact Effect.unary_eq_faults h
  | add => exact Effect.binary_eq_faults h
  | subtract => exact Effect.binary_eq_faults h
  | multiply => exact Effect.binary_eq_faults h
  | divide => exact Effect.binary_eq_faults h

/-- Without operand, the program goes on only after an operation on values that are there. -/
theorem executes_of_opcode_effect {constants : ConstantPool} {limit : Nat} {opcode : Opcode}
    {values after : List Value} (h : opcode.effect limit values = .continues after) :
    Executes constants limit ⟨opcode, none⟩ values after := by
  have hBinary (operator : Operator)
      (h : operator.opcode.effect limit values = .continues after) :
      Executes constants limit ⟨operator.opcode, none⟩ values after := by
    rw [effect_operator, Effect.binary_eq_continues_iff] at h
    obtain ⟨x, y, rest, rfl, hRoom, rfl⟩ := h
    exact .binary hRoom
  cases opcode with
  | constant => cases h
  | constantLong => cases h
  | ret => cases h
  | negate =>
      obtain ⟨x, rest, rfl, hRoom, rfl⟩ := Effect.unary_eq_continues_iff.mp h
      exact .negate hRoom
  | add => exact hBinary .add h
  | subtract => exact hBinary .subtract h
  | multiply => exact hBinary .multiply h
  | divide => exact hBinary .divide h

/-- Executing an instruction and continuing at the row that shows it are one thing. -/
theorem executes_iff_effect {chunk : Chunk} {limit : Nat} {i : Instruction}
    {values after : List Value} (hForm : i.WellFormed) :
    (Row.contentOf chunk i).effect limit values = .continues after ↔
      Executes chunk.constants limit i values after := by
  constructor
  · intro h
    obtain ⟨opcode, operand⟩ := i
    cases operand with
    | none => exact executes_of_opcode_effect h
    | some operand =>
        obtain ⟨source, hSource, hIndex⟩ := exists_load hForm
        rw [← hSource]
        simp only [Row.contentOf, Chunk.constant?, ← hIndex] at h
        cases hValue : chunk.constants.get? source.index with
        | none =>
            rw [hValue] at h
            cases h
        | some value =>
            rw [hValue] at h
            obtain ⟨hRoom, rfl⟩ := Effect.push_eq_continues_iff.mp h
            exact .load hValue hRoom
  · intro h
    cases h with
    | @load source value values hValue hRoom =>
        obtain ⟨operand, hOperand, hIndex⟩ := source.operand_instruction
        simp only [Row.contentOf, hOperand, Chunk.constant?, hIndex, hValue]
        exact Effect.push_eq_continues_iff.mpr ⟨hRoom, rfl⟩
    | negate hRoom => exact Effect.unary_eq_continues_iff.mpr ⟨_, _, rfl, hRoom, rfl⟩
    | binary hRoom =>
        exact (effect_operator limit _ _).trans
          (Effect.binary_eq_continues_iff.mpr ⟨_, _, _, rfl, hRoom, rfl⟩)

/-- A run advances by executing the instruction that is decoded at its offset. -/
theorem advances_iff {chunk : Chunk} {limit : Nat} {p q : Position} :
    Advances chunk limit p q ↔
      ∃ i, Instruction.decode chunk.code.toArray p.ip = .ok i ∧
        Executes chunk.constants limit i p.values q.values ∧ q.ip = p.ip + i.width := by
  constructor
  · rintro ⟨row, hRow, hEffect, hNext⟩
    rcases Row.at?_eq_some_iff.mp hRow with
      ⟨i, hDecode, rfl⟩ | ⟨byte, -, rfl⟩ | ⟨opcode, -, rfl⟩
    · have hForm := (Instruction.carries_of_decode hDecode).1
      exact ⟨i, hDecode, (executes_iff_effect hForm).mp hEffect, hNext⟩
    · cases hEffect
    · cases hEffect
  · rintro ⟨i, hDecode, hExecutes, hNext⟩
    have hForm := (Instruction.carries_of_decode hDecode).1
    exact ⟨_, Row.at?_eq_some_iff.mpr (.inl ⟨i, hDecode, rfl⟩),
      (executes_iff_effect hForm).mpr hExecutes, hNext⟩

/-- Without operand, only a return ends the program. -/
theorem opcode_effect_eq_returns_iff {limit : Nat} {opcode : Opcode} {values : List Value} :
    opcode.effect limit values = .returns ↔ opcode = .ret := by
  cases opcode with
  | constant => exact ⟨nofun, nofun⟩
  | constantLong => exact ⟨nofun, nofun⟩
  | ret => exact ⟨fun _ => rfl, fun _ => rfl⟩
  | negate => exact ⟨fun h => absurd h (Effect.unary_ne_returns _ _ _), nofun⟩
  | add => exact ⟨fun h => absurd h (Effect.binary_ne_returns _ _ _), nofun⟩
  | subtract => exact ⟨fun h => absurd h (Effect.binary_ne_returns _ _ _), nofun⟩
  | multiply => exact ⟨fun h => absurd h (Effect.binary_ne_returns _ _ _), nofun⟩
  | divide => exact ⟨fun h => absurd h (Effect.binary_ne_returns _ _ _), nofun⟩

/-- A program ends without a fault exactly at a return that is decoded at its offset. -/
theorem stops_without_fault_iff {chunk : Chunk} {limit : Nat} {p : Position} {ending : Ending} :
    Stops chunk limit p ending ∧ ending.fault = none ↔
      Instruction.decode chunk.code.toArray p.ip = .ok ⟨.ret, none⟩ ∧
        ending = ⟨none, p.ip + 1, p.values⟩ := by
  constructor
  · rintro ⟨hStops, hFault⟩
    cases hStops with
    | outOfCode => cases hFault
    | faulted => cases hFault
    | returned hRow hEffect =>
        rcases Row.at?_eq_some_iff.mp hRow with
          ⟨i, hDecode, rfl⟩ | ⟨byte, -, rfl⟩ | ⟨opcode, -, rfl⟩
        · obtain ⟨opcode, operand⟩ := i
          cases operand with
          | none =>
              cases opcode_effect_eq_returns_iff.mp hEffect
              exact ⟨hDecode, rfl⟩
          | some operand => exact absurd hEffect (RowContent.constant_effect_ne_returns _ _ _ _ _)
        · cases hEffect
        · cases hEffect
  · rintro ⟨hDecode, rfl⟩
    have hRow := Row.at?_eq_some_iff.mpr (.inl ⟨⟨.ret, none⟩, hDecode, rfl⟩)
    exact ⟨.returned hRow rfl, rfl⟩

/-- A run that comes to a return leaves its values and a pointer behind the return. -/
theorem ending_of_return {chunk : Chunk} {limit : Nat} {p : Position} {steps : Nat}
    (run : RunsFor chunk limit ⟨0, []⟩ p steps)
    (hReturn : Carries chunk.code.toArray p.ip [Opcode.ret.byte]) :
    chunk.ending limit = ⟨none, p.ip + 1, p.values⟩ := by
  have hDecode : Instruction.decode chunk.code.toArray p.ip = .ok ⟨.ret, none⟩ :=
    Instruction.decode_of_carries (i := ⟨.ret, none⟩) rfl hReturn
  exact ending_of_stops run (stops_without_fault_iff.mpr ⟨hDecode, rfl⟩).1

end StackMachine
