import StackMachine.Listing
import StackMachine.Proofs.Decoding

/-! The rows of a listing as a list with a first row and a rest. The line of the row above is
passed along, but it decides nothing apart from the line column. -/
namespace StackMachine

namespace Row

/-- What stands at an offset is an instruction, a byte that is no opcode, or an opcode whose
operand is cut off. -/
theorem at?_eq_some_iff {chunk : Chunk} {offset : Nat} {row : Row} :
    at? chunk offset = some row ↔
      (∃ i, Instruction.decode chunk.code.toArray offset = .ok i ∧
        row = ⟨offset, lineMark chunk offset, contentOf chunk i, offset + i.width⟩) ∨
      (∃ byte, Instruction.decode chunk.code.toArray offset = .error (.unknown byte) ∧
        row = ⟨offset, lineMark chunk offset, .unknown byte, offset + 1⟩) ∨
      ∃ opcode, Instruction.decode chunk.code.toArray offset = .error (.truncated opcode) ∧
        row = ⟨offset, lineMark chunk offset, .truncated opcode, chunk.size⟩ := by
  unfold at?
  cases Instruction.decode chunk.code.toArray offset with
  | ok i => simp [eq_comm]
  | error e => cases e <;> simp [eq_comm]

/-- There is no row only where the code ends. -/
theorem at?_eq_none_iff {chunk : Chunk} {offset : Nat} :
    at? chunk offset = none ↔
      Instruction.decode chunk.code.toArray offset = .error .endOfCode := by
  unfold at?
  cases Instruction.decode chunk.code.toArray offset with
  | ok i => simp
  | error e => cases e <;> simp

theorem offset_of_at? {chunk : Chunk} {offset : Nat} {row : Row}
    (h : at? chunk offset = some row) : row.offset = offset := by
  rcases at?_eq_some_iff.mp h with ⟨i, -, rfl⟩ | ⟨byte, -, rfl⟩ | ⟨opcode, -, rfl⟩ <;> rfl

theorem line_of_at? {chunk : Chunk} {offset : Nat} {row : Row}
    (h : at? chunk offset = some row) : row.line = lineMark chunk offset := by
  rcases at?_eq_some_iff.mp h with ⟨i, -, rfl⟩ | ⟨byte, -, rfl⟩ | ⟨opcode, -, rfl⟩ <;> rfl

theorem size_le_of_at?_eq_none {chunk : Chunk} {offset : Nat} (h : at? chunk offset = none) :
    chunk.size ≤ offset :=
  Nat.le_of_not_lt fun hInside =>
    Instruction.decode_ne_endOfCode hInside (at?_eq_none_iff.mp h)

end Row

namespace Listing

theorem rowsFrom_of_none {chunk : Chunk} {previous : Option Nat} {offset : Nat}
    (h : rowBelow? chunk previous offset = none) (done : Array Row) :
    rowsFrom chunk previous offset done = done := by
  rw [rowsFrom]
  split
  · rfl
  · rename_i row hRow
    rw [h] at hRow
    cases hRow

/-- A listed row is put behind those done and the next one is sought under its line. -/
theorem rowsFrom_of_some {chunk : Chunk} {previous : Option Nat} {offset : Nat} {row : Row}
    (h : rowBelow? chunk previous offset = some row) (done : Array Row) :
    rowsFrom chunk previous offset done =
      rowsFrom chunk (chunk.lineAt? offset) row.next (done.push row) := by
  rw [rowsFrom]
  split
  · rename_i hNone
    rw [h] at hNone
    cases hNone
  · rename_i other hOther
    rw [h] at hOther
    cases hOther
    rfl

/-- The rows that are already there stay in front and do not influence the others. -/
theorem rowsFrom_append (front : Array Row) (chunk : Chunk) (previous : Option Nat)
    (offset : Nat) (done : Array Row) :
    rowsFrom chunk previous offset (front ++ done) =
      front ++ rowsFrom chunk previous offset done := by
  fun_induction rowsFrom chunk previous offset done with
  | case1 previous offset done hEnd =>
      exact rowsFrom_of_none hEnd _
  | case2 previous offset done row hRow ih =>
      rw [rowsFrom_of_some hRow, ← Array.append_push]
      exact ih

/-- The rows from an offset on, below a row of line `previous`. -/
def rowsBelow (chunk : Chunk) (previous : Option Nat) (offset : Nat) : List Row :=
  (rowsFrom chunk previous offset #[]).toList

theorem toList_rows (chunk : Chunk) : (rows chunk).toList = rowsBelow chunk none 0 := rfl

/-- The row at an offset keeps everything but its line column in a listing. -/
theorem rowBelow?_eq_none_iff {chunk : Chunk} {previous : Option Nat} {offset : Nat} :
    rowBelow? chunk previous offset = none ↔ Row.at? chunk offset = none :=
  Option.map_eq_none_iff

/-- The line above decides nothing but the mark. -/
theorem rowBelow?_of_at? {chunk : Chunk} {offset : Nat} {row : Row}
    (h : Row.at? chunk offset = some row) (previous : Option Nat) :
    ∃ mark, rowBelow? chunk previous offset = some { row with line := mark } := by
  unfold rowBelow?
  rw [h, Option.map_some]
  dsimp only
  split
  · exact ⟨.continued, rfl⟩
  · exact ⟨row.line, rfl⟩

theorem at?_of_rowBelow? {chunk : Chunk} {previous : Option Nat} {offset : Nat} {row : Row}
    (h : rowBelow? chunk previous offset = some row) :
    ∃ mark, Row.at? chunk row.offset = some { row with line := mark } := by
  obtain ⟨plain, hPlain, rfl⟩ := Option.map_eq_some_iff.mp h
  have hOffset := Row.offset_of_at? hPlain
  refine ⟨plain.line, ?_⟩
  dsimp only
  split
  · rw [← hOffset] at hPlain
    exact hPlain
  · rw [← hOffset] at hPlain
    exact hPlain

theorem rowsBelow_of_none {chunk : Chunk} {offset : Nat} (h : Row.at? chunk offset = none)
    (previous : Option Nat) : rowsBelow chunk previous offset = [] := by
  rw [rowsBelow, rowsFrom_of_none (rowBelow?_eq_none_iff.mpr h)]

/-- A first row, and the rows from its end on. -/
theorem rowsBelow_of_some {chunk : Chunk} {previous : Option Nat} {offset : Nat} {row : Row}
    (h : rowBelow? chunk previous offset = some row) :
    rowsBelow chunk previous offset =
      row :: rowsBelow chunk (chunk.lineAt? offset) row.next := by
  have hFront : (#[] : Array Row).push row = #[row] ++ #[] := rfl
  rw [rowsBelow, rowsFrom_of_some h, hFront, rowsFrom_append, Array.toList_append]
  rfl

/-- A listing begins with a row when that row is found and the rest is listed below it. -/
theorem rowsBelow_eq_cons_iff {chunk : Chunk} {previous : Option Nat} {offset : Nat} {row : Row}
    {rest : List Row} :
    rowsBelow chunk previous offset = row :: rest ↔
      rowBelow? chunk previous offset = some row ∧
        rowsBelow chunk (chunk.lineAt? offset) row.next = rest := by
  cases hRow : rowBelow? chunk previous offset with
  | none => simp [rowsBelow_of_none (rowBelow?_eq_none_iff.mp hRow)]
  | some first =>
      rw [rowsBelow_of_some hRow, List.cons.injEq, Option.some.injEq]
      constructor <;> rintro ⟨rfl, hRest⟩ <;> exact ⟨rfl, hRest⟩

/-- A listing is empty only where no row starts. -/
theorem rowsBelow_eq_nil_iff {chunk : Chunk} {previous : Option Nat} {offset : Nat} :
    rowsBelow chunk previous offset = [] ↔ Row.at? chunk offset = none := by
  refine ⟨fun hNil => ?_, fun hEnd => rowsBelow_of_none hEnd previous⟩
  cases hRow : rowBelow? chunk previous offset with
  | none => exact rowBelow?_eq_none_iff.mp hRow
  | some row => simp [rowsBelow_of_some hRow] at hNil

/-- Induction along a listing, from its end to its first row. -/
theorem rowsBelow_induction {chunk : Chunk} {motive : Option Nat → Nat → List Row → Prop}
    (nil : ∀ previous offset, Row.at? chunk offset = none → motive previous offset [])
    (cons : ∀ previous offset row, rowBelow? chunk previous offset = some row →
      motive (chunk.lineAt? offset) row.next
        (rowsBelow chunk (chunk.lineAt? offset) row.next) →
      motive previous offset
        (row :: rowsBelow chunk (chunk.lineAt? offset) row.next))
    (previous : Option Nat) (offset : Nat) :
    motive previous offset (rowsBelow chunk previous offset) := by
  induction hLeft : chunk.size - offset using Nat.strongRecOn generalizing previous offset with
  | ind left ih =>
      cases hRow : rowBelow? chunk previous offset with
      | none =>
          have hEnd := rowBelow?_eq_none_iff.mp hRow
          rw [rowsBelow_of_none hEnd]
          exact nil previous offset hEnd
      | some row =>
          have hMoved := next_of_rowBelow? hRow
          rw [rowsBelow_of_some hRow]
          exact cons previous offset row hRow
            (ih (chunk.size - row.next) (by omega) _ row.next rfl)

/-- The rows of a listing are the rows seen on their own, apart from the line column. -/
theorem at?_of_mem_rowsBelow {chunk : Chunk} {previous : Option Nat} {offset : Nat} {row : Row}
    (h : row ∈ rowsBelow chunk previous offset) :
    ∃ mark, Row.at? chunk row.offset = some { row with line := mark } := by
  refine rowsBelow_induction
    (motive := fun _ _ rows => ∀ row ∈ rows, ∃ mark,
      Row.at? chunk row.offset = some { row with line := mark }) ?_ ?_ previous offset row h
  · intro previous offset hEnd row hRow
    cases hRow
  · intro previous offset first hFirst ih row hRow
    rcases List.mem_cons.mp hRow with rfl | hRow
    · exact at?_of_rowBelow? hFirst
    · exact ih row hRow

end Listing

end StackMachine
