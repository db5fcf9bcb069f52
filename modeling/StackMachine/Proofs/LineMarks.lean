import StackMachine.Proofs.Construction
import StackMachine.Proofs.Tiling

/-! The column of line numbers in a listing. A number that repeats the one of the row above is only
marked as continued, and with the marks alone the line of every row can be told. -/
namespace StackMachine

/-- The lines that a column of marks tells, below the number `above`. A continued mark repeats the
last number that is written. -/
def LineMark.resolve : Option Nat → List LineMark → List (Option Nat)
  | _, [] => []
  | _, .line number :: below => some number :: resolve (some number) below
  | above, .continued :: below => above :: resolve above below
  | above, .unknown :: below => none :: resolve above below

namespace Listing

/-- The line that is recorded for the row above the row with an index. The first row is below a row
of line `previous`. -/
def lineAbove (chunk : Chunk) (previous : Option Nat) (rows : List Row) : Nat → Option Nat
  | 0 => previous
  | k + 1 => rows[k]?.bind fun above => chunk.lineAt? above.offset

/-- Of the rows above, a row knows the line of the nearest one and nothing else. -/
theorem rowBelow?_of_getElem? {chunk : Chunk} {previous : Option Nat} {offset k : Nat} {row : Row}
    (h : (rowsBelow chunk previous offset)[k]? = some row) :
    rowBelow? chunk (lineAbove chunk previous (rowsBelow chunk previous offset) k) row.offset =
      some row := by
  refine rowsBelow_induction
    (motive := fun previous _ rows => ∀ k, rows[k]? = some row →
      rowBelow? chunk (lineAbove chunk previous rows k) row.offset = some row)
    ?_ ?_ previous offset k h
  · intro previous offset _ k h
    cases h
  · intro previous offset first hFirst ih k h
    have hOffset := offset_of_rowBelow? hFirst
    cases k with
    | zero =>
        cases h
        rw [hOffset]
        exact hFirst
    | succ k =>
        have hRow := ih k h
        cases k with
        | zero =>
            subst hOffset
            exact hRow
        | succ k => exact hRow

section InStep

variable {chunk : Chunk} (hInStep : chunk.contents.InStep)

include hInStep

/-- A row shows the line that is recorded for its first byte, as a number or by repeating the line
above, and is otherwise the row that is seen on its own. -/
theorem line_of_rowBelow? {previous : Option Nat} {offset : Nat} {row : Row}
    (h : rowBelow? chunk previous offset = some row) :
    ∃ number, chunk.lineAt? offset = some number ∧
      Row.at? chunk offset = some { row with line := .line number } ∧
      row.line = if previous = some number then .continued else .line number := by
  obtain ⟨plain, hPlain, rfl⟩ := Option.map_eq_some_iff.mp h
  obtain ⟨number, hNumber⟩ := hInStep.exists_lineAt? (Row.lt_size_of_at? hPlain)
  have hLine : plain.line = .line number := by
    rw [Row.line_of_at? hPlain, Row.lineMark, hNumber]
  refine ⟨number, hNumber, ?_, ?_⟩
  · rw [hPlain, ← hLine]
    dsimp only
    split <;> rfl
  · by_cases hSame : previous = some number
    · simp [hNumber, hSame]
    · simp [hNumber, Ne.symm hSame, hSame, hLine]

/-- Marks that stand below a row of line `previous` tell the lines of the rows from there on. -/
theorem resolve_rowsBelow (previous : Option Nat) (offset : Nat) :
    LineMark.resolve previous ((rowsBelow chunk previous offset).map Row.line) =
      (rowsBelow chunk previous offset).map fun row => chunk.lineAt? row.offset := by
  refine rowsBelow_induction
    (motive := fun previous _ rows => LineMark.resolve previous (rows.map Row.line) =
      rows.map fun row => chunk.lineAt? row.offset)
    ?_ ?_ previous offset
  · intro previous offset _
    rfl
  · intro previous offset first hFirst ih
    obtain ⟨number, hNumber, -, hMark⟩ := line_of_rowBelow? hInStep hFirst
    rw [hNumber] at ih
    rw [hNumber, List.map_cons, List.map_cons, hMark, offset_of_rowBelow? hFirst, hNumber]
    by_cases hSame : previous = some number
    · rw [if_pos hSame, LineMark.resolve, hSame, ih]
    · rw [if_neg hSame, LineMark.resolve, ih]

end InStep

/-- The column of line numbers carries the line table without loss. Every row of a listing is the
row that is seen on its own at the same offset, apart from its mark. The mark is the number of the
line that is recorded for the first byte of the row, or continues the line above exactly if there
is a row above with the same line. So no line is unknown, no first row is continued, and the marks
alone tell the recorded line of every row. -/
theorem marks_carry_line_table {chunk : Chunk} (hBuilt : chunk.Reachable) :
    let listed := (rows chunk).toList
    (∀ (k : Nat) (row : Row), listed[k]? = some row →
      ∃ number, chunk.lineAt? row.offset = some number ∧
        Row.at? chunk row.offset = some { row with line := .line number } ∧
        (row.line = .continued ↔ 0 < k ∧ ∃ above, listed[k - 1]? = some above ∧
          chunk.lineAt? above.offset = chunk.lineAt? row.offset) ∧
        (row.line ≠ .continued → row.line = .line number)) ∧
    (∀ row ∈ listed, row.line ≠ .unknown) ∧
    (∀ row, listed.head? = some row → row.line ≠ .continued) ∧
    LineMark.resolve none (listed.map Row.line) =
      listed.map fun row => chunk.lineAt? row.offset := by
  intro listed
  have hMark : ∀ (k : Nat) (row : Row), listed[k]? = some row →
      ∃ number, chunk.lineAt? row.offset = some number ∧
        Row.at? chunk row.offset = some { row with line := .line number } ∧
        row.line = if lineAbove chunk none listed k = some number then .continued
          else .line number :=
    fun k row hRow => line_of_rowBelow? hBuilt.inStep (rowBelow?_of_getElem? hRow)
  refine ⟨fun k row hRow => ?_, fun row hRow => ?_, fun row hRow => ?_,
    resolve_rowsBelow hBuilt.inStep none 0⟩
  · obtain ⟨number, hNumber, hPlain, hLine⟩ := hMark k row hRow
    refine ⟨number, hNumber, hPlain, ?_, fun hNew => ?_⟩
    · rw [hLine, hNumber]
      cases k with
      | zero => simp [lineAbove]
      | succ k => simp [lineAbove, Option.bind_eq_some_iff]
    · rw [hLine] at hNew ⊢
      split at hNew
      · exact absurd rfl hNew
      · rename_i hOther
        exact if_neg hOther
  · obtain ⟨k, hIndex⟩ := List.getElem?_of_mem hRow
    obtain ⟨number, -, -, hLine⟩ := hMark k row hIndex
    rw [hLine]
    split <;> exact nofun
  · rw [List.head?_eq_getElem?] at hRow
    obtain ⟨number, -, -, hLine⟩ := hMark 0 row hRow
    rw [hLine]
    exact nofun

/-- A byte that is no opcode, a load whose operand comes from another line, and returns of which the
last one comes from the first line again. -/
def recurring : Chunk :=
  Chunk.empty.afterSteps .standard
    [.write 254 7, .writeOpcode .constant 7, .write 0 9, .writeOpcode .ret 7, .writeOpcode .ret 8,
      .writeOpcode .ret 7]

/-- The line of an operand is not shown, and a line that comes back is numbered again. -/
theorem marks_of_recurring :
    recurring.Reachable ∧
      (rows recurring).toList.map Row.line =
        [.line 7, .continued, .continued, .line 8, .line 7] ∧
      (rows recurring).toList.map (fun row => recurring.lineAt? row.offset) =
        [some 7, some 7, some 7, some 8, some 7] := by
  have hBuilt : recurring.Reachable :=
    Chunk.Reaches.afterSteps .start .standard fun _ _ => trivial
  have hMarks : (rows recurring).toList.map Row.line =
      [.line 7, .continued, .continued, .line 8, .line 7] := by cbv
  have hLines := (marks_carry_line_table hBuilt).2.2.2
  rw [hMarks] at hLines
  exact ⟨hBuilt, hMarks, hLines.symm⟩

end Listing

end StackMachine
