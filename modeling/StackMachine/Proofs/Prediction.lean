import StackMachine.Proofs.Overflows

/-! The outcome of a run is predicted from the declared stack effects alone. The prediction
counts values and never looks at one, so a run has no way to depend on the numbers in the
pool. -/
namespace StackMachine

/-- What the declarations say about a row below which a number of values lie. -/
inductive Forecast where
  | continues (depth : Nat)
  | returns
  | faults (kind : FaultKind)

/-- Take the declared number of values and leave the declared number instead. -/
def StackEffect.forecast (limit : Nat) (effect : StackEffect) (depth : Nat) : Forecast :=
  if depth < effect.pops then .faults .stackUnderflow
  else if limit < depth - effect.pops + effect.pushes then .faults .stackOverflow
  else .continues (depth - effect.pops + effect.pushes)

/-- The constant of a row is looked up by its index in a pool of a given size. -/
def RowContent.forecast (limit poolSize : Nat) : RowContent → Nat → Forecast
  | .unknown byte, _ => .faults (.invalidOpcode byte)
  | .truncated _, _ => .faults .truncatedInstruction
  | .constant opcode index _, depth =>
    if poolSize ≤ index then .faults (.invalidConstant index)
    else opcode.stackEffect.forecast limit depth
  | .simple .ret, _ => .returns
  | .simple opcode, depth => opcode.stackEffect.forecast limit depth

structure Prediction where
  fault : Option (Nat × FaultKind)
  pointer : Nat
  depth : Nat

/-- Fold the declared effects over rows, beginning with a number of values. -/
def predict (limit size poolSize : Nat) : List Row → Nat → Prediction
  | [], _ => ⟨some (size, .unexpectedEndOfCode), size, 0⟩
  | row :: rest, depth =>
    match row.content.forecast limit poolSize depth with
    | .continues depth => predict limit size poolSize rest depth
    | .returns => ⟨none, row.next, depth⟩
    | .faults kind => ⟨some (row.offset, kind), row.pointerAt kind, 0⟩

def Effect.forecast : Effect → Forecast
  | .continues values => .continues values.length
  | .returns => .returns
  | .faults kind => .faults kind

def Ending.prediction (ending : Ending) : Prediction :=
  ⟨ending.fault, ending.pointer, ending.values.length⟩

/-- A row that can stand in a listing: loads name a constant, which is there if its index is
in the pool, and no other row does. -/
def RowContent.Resolved (poolSize : Nat) : RowContent → Prop
  | .simple opcode => opcode.operandWidth = 0
  | .constant opcode index value =>
    opcode.operandWidth ≠ 0 ∧ (value = none ↔ poolSize ≤ index)
  | .truncated _ | .unknown _ => True

/-- A push counts one value up, or overflows. -/
theorem forecast_push {limit : Nat} (value : Value) (values : List Value) :
    (Effect.push limit value values).forecast =
      if limit < values.length + 1 then .faults .stackOverflow
      else .continues (values.length + 1) := by
  unfold Effect.push
  by_cases hFull : limit ≤ values.length
  · rw [if_pos hFull, if_pos (by omega)]
    rfl
  · rw [if_neg hFull, if_neg (by omega)]
    rfl

theorem forecast_unary (limit : Nat) (op : Float → Float) (values : List Value) :
    (Effect.unary limit op values).forecast =
      StackEffect.forecast limit ⟨1, 1⟩ values.length := by
  cases values with
  | nil => rfl
  | cons x rest => simp [Effect.unary, forecast_push, StackEffect.forecast]

/-- Two operands count as declared: two taken, one left. -/
theorem forecast_binary (limit : Nat) (op : Float → Float → Float) (values : List Value) :
    (Effect.binary limit op values).forecast =
      StackEffect.forecast limit ⟨2, 1⟩ values.length := by
  match values with
  | [] => rfl
  | [y] => rfl
  | y :: x :: rest =>
      have hTwo : ¬rest.length + 1 + 1 < 2 := by omega
      simp [Effect.binary, forecast_push, StackEffect.forecast, hTwo]

/-- What a row of a listing does to the values has the declared effect on their number. -/
theorem RowContent.forecast_effect {poolSize : Nat} {content : RowContent}
    (h : content.Resolved poolSize) (limit : Nat) (values : List Value) :
    (content.effect limit values).forecast = content.forecast limit poolSize values.length := by
  cases content with
  | simple opcode =>
      cases opcode with
      | constant => cases h
      | constantLong => cases h
      | ret => rfl
      | negate => exact forecast_unary limit _ values
      | add => exact forecast_binary limit _ values
      | subtract => exact forecast_binary limit _ values
      | multiply => exact forecast_binary limit _ values
      | divide => exact forecast_binary limit _ values
  | constant opcode index value =>
      obtain ⟨hLoad, hValue⟩ := h
      have hEffect : opcode.stackEffect = ⟨0, 1⟩ := by
        cases opcode with
        | constant => rfl
        | constantLong => rfl
        | _ => exact absurd rfl hLoad
      cases value with
      | none =>
          rw [RowContent.forecast, if_pos (hValue.mp rfl)]
          rfl
      | some value =>
          have hIndex : ¬poolSize ≤ index := fun hOutside => nomatch hValue.mpr hOutside
          rw [RowContent.forecast, if_neg hIndex, hEffect]
          exact forecast_push value values
  | truncated opcode => rfl
  | unknown byte => rfl

/-- Along any list of such rows the prediction counts what the interpreter computes. -/
theorem prediction_interpret {poolSize : Nat} {rows : List Row}
    (h : ∀ row ∈ rows, row.content.Resolved poolSize) (limit size : Nat)
    (values : List Value) :
    (interpret limit size rows values).prediction =
      predict limit size poolSize rows values.length := by
  induction rows generalizing values with
  | nil => rfl
  | cons row rest ih =>
      rw [List.forall_mem_cons] at h
      rw [interpret, predict, ← RowContent.forecast_effect h.1 limit values]
      cases row.content.effect limit values with
      | continues after => exact ih h.2 after
      | returns => rfl
      | faults kind => rfl

/-- A row names a value exactly where its index is in the pool. -/
theorem resolved_of_at? {chunk : Chunk} {offset : Nat} {row : Row}
    (h : Row.at? chunk offset = some row) : row.content.Resolved chunk.constants.size := by
  rcases Row.at?_eq_some_iff.mp h with ⟨i, hDecode, rfl⟩ | ⟨byte, -, rfl⟩ | ⟨opcode, -, rfl⟩
  · have hForm := (Instruction.carries_of_decode hDecode).1
    obtain ⟨opcode, operand⟩ := i
    cases operand with
    | none => exact hForm
    | some operand => exact ⟨hForm.1, Array.getElem?_eq_none_iff⟩
  · trivial
  · trivial

/-- The ending of a chunk, with its values counted, is the predicted one. -/
theorem prediction_ending (chunk : Chunk) (limit : Nat) :
    (chunk.ending limit).prediction =
      predict limit chunk.size chunk.constants.size (Listing.rows chunk).toList 0 := by
  refine prediction_interpret (fun row hRow => ?_) limit chunk.size []
  obtain ⟨mark, hPlain⟩ := Listing.at?_of_mem_rowsBelow hRow
  have hResolved := resolved_of_at? hPlain
  exact hResolved

/-! The prediction does not read the value of a constant, and nothing else in a listing depends
on the values of the pool. -/

def RowContent.withoutValue : RowContent → RowContent
  | .constant opcode index _ => .constant opcode index none
  | content => content

def Row.withoutValue (row : Row) : Row :=
  { row with content := row.content.withoutValue }

theorem RowContent.forecast_withoutValue (limit poolSize : Nat) (content : RowContent)
    (depth : Nat) :
    content.withoutValue.forecast limit poolSize depth =
      content.forecast limit poolSize depth := by
  cases content <;> rfl

/-- What is predicted never looks at a constant. -/
theorem predict_map_withoutValue (limit size poolSize : Nat) (rows : List Row) (depth : Nat) :
    predict limit size poolSize (rows.map Row.withoutValue) depth =
      predict limit size poolSize rows depth := by
  induction rows generalizing depth with
  | nil => rfl
  | cons row rest ih =>
      have hForecast := RowContent.forecast_withoutValue limit poolSize row.content depth
      rw [List.map_cons, predict, predict]
      simp only [Row.withoutValue, hForecast]
      cases row.content.forecast limit poolSize depth with
      | continues after => exact ih after
      | returns => rfl
      | faults kind => cases kind <;> rfl

section SameCode

variable {a b : Chunk}

theorem size_eq_of_code (h : a.code.items = b.code.items) : a.size = b.size := by
  simp only [Chunk.size, Buffer.size, h]

theorem lineAt?_eq_of_lines (h : a.lines.items = b.lines.items) (offset : Nat) :
    a.lineAt? offset = b.lineAt? offset := by
  simp only [Chunk.lineAt?, Buffer.get?, h]

theorem faultLine?_eq_of_lines (h : a.lines.items = b.lines.items) (offset : Nat) :
    Machine.faultLine? a offset = Machine.faultLine? b offset := by
  simp only [Machine.faultLine?, lineAt?_eq_of_lines h, Buffer.toArray, h]

variable (hCode : a.code.items = b.code.items)
  (hLines : a.lines.items = b.lines.items)

include hCode hLines

/-- Equal code and pools of one size show the same rows, up to the constants. -/
theorem at?_withoutValue_eq (offset : Nat) :
    (Row.at? a offset).map Row.withoutValue = (Row.at? b offset).map Row.withoutValue := by
  have hMark : Row.lineMark a offset = Row.lineMark b offset := by
    simp only [Row.lineMark, lineAt?_eq_of_lines hLines]
  unfold Row.at?
  simp only [Buffer.toArray, hCode, hMark, size_eq_of_code hCode]
  cases Instruction.decode b.code.items offset with
  | ok i =>
      obtain ⟨opcode, operand⟩ := i
      cases operand <;> rfl
  | error e => cases e <;> rfl

theorem rowBelow?_withoutValue_eq (previous : Option Nat) (offset : Nat) :
    (Listing.rowBelow? a previous offset).map Row.withoutValue =
      (Listing.rowBelow? b previous offset).map Row.withoutValue := by
  have hRow := at?_withoutValue_eq hCode hLines offset
  unfold Listing.rowBelow?
  rw [lineAt?_eq_of_lines hLines]
  by_cases hRepeated : (b.lineAt? offset).isSome && b.lineAt? offset == previous
  · simp only [hRepeated, if_true, Option.map_map]
    have hMarked := congrArg (Option.map fun row => { row with line := .continued }) hRow
    rw [Option.map_map, Option.map_map] at hMarked
    exact hMarked
  · simpa only [hRepeated, Bool.false_eq_true, if_false, Option.map_map, Function.comp_def]
      using hRow

/-- Chunks of the same code and lines have the same listing but for the values. -/
theorem rowsBelow_withoutValue_eq (previous : Option Nat) (offset : Nat) :
    (Listing.rowsBelow a previous offset).map Row.withoutValue =
      (Listing.rowsBelow b previous offset).map Row.withoutValue := by
  refine Listing.rowsBelow_induction (motive := fun previous offset rows =>
    rows.map Row.withoutValue =
      (Listing.rowsBelow b previous offset).map Row.withoutValue) ?_ ?_ previous offset
  · intro previous offset hEnd
    have hRow := at?_withoutValue_eq hCode hLines offset
    rw [hEnd, Option.map_none] at hRow
    rw [Listing.rowsBelow_of_none (Option.map_eq_none_iff.mp hRow.symm), List.map_nil]
  · intro previous offset row hFirst ih
    have hRow := rowBelow?_withoutValue_eq hCode hLines previous offset
    rw [hFirst, Option.map_some] at hRow
    obtain ⟨other, hOther, hSame⟩ := Option.map_eq_some_iff.mp hRow.symm
    have hNext := congrArg Row.next hSame
    simp only [Row.withoutValue] at hNext
    rw [Listing.rowsBelow_of_some hOther, List.map_cons, List.map_cons, hSame, ih,
      lineAt?_eq_of_lines hLines, hNext]

/-- With pools of the same size they have the same ending, up to the values that are left. -/
theorem prediction_ending_eq (hPool : a.constants.size = b.constants.size) (limit : Nat) :
    (a.ending limit).prediction = (b.ending limit).prediction := by
  rw [prediction_ending, prediction_ending, Listing.toList_rows, Listing.toList_rows,
    ← predict_map_withoutValue, rowsBelow_withoutValue_eq hCode hLines,
    predict_map_withoutValue, size_eq_of_code hCode, hPool]

end SameCode

/-- A run ends with the predicted fault at the predicted offset, or without a fault, and leaves the
predicted number of values. -/
structure Machine.Halted.Meets (ended : Halted) (prediction : Prediction) : Prop where
  fault : ended.fault.map (fun fault => (fault.offset, fault.kind)) = prediction.fault
  depth : ended.machine.stack.size = prediction.depth

/-- A run meets what is predicted from the ending of its rows. -/
theorem Machine.meets_run (m : Machine) (chunk : Chunk) :
    (m.run chunk).Meets (chunk.ending m.stack.room).prediction where
  fault := by
    rw [run_fault, Ending.report, Option.map_map]
    simp [Function.comp_def, Ending.prediction]
  depth := m.size_run chunk

/-- A run ends as the declared tables predict. If the stack is granted as many slots as the code can
fill, the prediction has the limit of the stack, and otherwise that of the room which is left to it.
Hence the values of the constants have no influence on the fault, on the pointer, or on the number
of values that are left. -/
theorem run_predicted_by_declarations :
    (∀ (chunk : Chunk) (m : Machine),
      let predicted := fun limit =>
        predict limit chunk.size chunk.constants.size (Listing.rows chunk).toList 0
      (m.stack.CanHold chunk.size → (m.run chunk).Meets (predicted m.stack.limit)) ∧
        (m.run chunk).Meets (predicted m.stack.room)) ∧
    ∀ (a b : Chunk) (m n : Machine), a.code.items = b.code.items →
      a.lines.items = b.lines.items → a.constants.size = b.constants.size →
      m.stack.limit = n.stack.limit → m.stack.CanHold a.size → n.stack.CanHold b.size →
      (m.run a).fault = (n.run b).fault ∧
        (m.run a).machine.ip = (n.run b).machine.ip ∧
        (m.run a).machine.stack.size = (n.run b).machine.stack.size := by
  constructor
  · intro chunk m predicted
    have hMeets := m.meets_run chunk
    constructor
    · intro hGranted
      rw [hGranted.indifferent.ending_eq, prediction_ending] at hMeets
      exact hMeets
    · rw [prediction_ending] at hMeets
      exact hMeets
  · intro a b m n hCode hLines hPool hLimit hFirst hSecond
    have hSame : (a.ending m.stack.room).prediction = (b.ending n.stack.room).prediction := by
      rw [hFirst.indifferent.ending_eq, hSecond.indifferent.ending_eq, ← hLimit]
      exact prediction_ending_eq hCode hLines hPool m.stack.limit
    have hFault : (a.ending m.stack.room).fault = (b.ending n.stack.room).fault :=
      congrArg Prediction.fault hSame
    rw [Machine.run_fault, Machine.run_fault, Machine.ip_run, Machine.ip_run, Machine.size_run,
      Machine.size_run]
    refine ⟨?_, congrArg Prediction.pointer hSame, congrArg Prediction.depth hSame⟩
    simp only [Ending.report, hFault, faultLine?_eq_of_lines hLines]

/-- Load a constant, divide it by itself and return. -/
def selfQuotient (x : Float) : Chunk :=
  ⟨⟨#[0, 0, 0, 0, 7, 1], 8⟩, ⟨#[1, 1, 1, 1, 1, 2], 8⟩, ⟨#[.number x], 8⟩⟩

/-- A quotient of zeros is no number, which makes no difference to the run. -/
theorem selfQuotient_runs_alike :
    ((Machine.new {}).run (selfQuotient 1)).fault =
        ((Machine.new {}).run (selfQuotient 0)).fault ∧
      ((Machine.new {}).run (selfQuotient 1)).machine.ip =
        ((Machine.new {}).run (selfQuotient 0)).machine.ip ∧
      ((Machine.new {}).run (selfQuotient 1)).machine.stack.size =
        ((Machine.new {}).run (selfQuotient 0)).machine.stack.size :=
  have hGranted (size : Nat) : (Machine.new {}).stack.CanHold size :=
    Stack.canHold_of_limit_le (Nat.le_refl 256) size
  run_predicted_by_declarations.2 (selfQuotient 1) (selfQuotient 0) (.new {}) (.new {})
    rfl rfl (by decide) rfl (hGranted _) (hGranted _)

end StackMachine
