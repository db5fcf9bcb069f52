import StackMachine.Proofs.Growth
import StackMachine.Proofs.Tiling

/-! Listings of code that is put together from two parts. No row but a cut-off one looks past its
own bytes, so the rows of the first part stay as they are, and those of the second part are only
moved. Where the parts meet, the line of the last row decides about the next mark. -/
namespace StackMachine

/-- A chunk with the code and the lines of two others, one after the other. All three resolve their
constants in the same pool. -/
structure Chunk.Joins (front back whole : Chunk) : Prop where
  code : whole.code.toList = front.code.toList ++ back.code.toList
  lines : whole.lines.toList = front.lines.toList ++ back.lines.toList
  frontPool : whole.constants.toList = front.constants.toList
  backPool : whole.constants.toList = back.constants.toList

def Row.shift (distance : Nat) (row : Row) : Row :=
  { row with offset := row.offset + distance, next := row.next + distance }

namespace Listing

/-- The line that is recorded for the last of some rows. Without rows it is `previous`. -/
def lineAfter (chunk : Chunk) (previous : Option Nat) (rows : List Row) : Option Nat :=
  rows.getLast?.elim previous fun last => chunk.lineAt? last.offset

/-- The line above the rest is the line of the row before it. -/
theorem lineAfter_cons (chunk : Chunk) (previous : Option Nat) (row : Row) (rest : List Row) :
    lineAfter chunk previous (row :: rest) = lineAfter chunk (chunk.lineAt? row.offset) rest := by
  cases hLast : rest.getLast? <;> simp [lineAfter, List.getLast?_cons, hLast]

def lastLine? (chunk : Chunk) : Option Nat :=
  (rows chunk).toList.getLast?.bind fun last => chunk.lineAt? last.offset

/-- Rows of which the first one continues the line above. -/
def continueFirst : List Row → List Row
  | [] => []
  | first :: rest => { first with line := .continued } :: rest

theorem map_shift_continueFirst (distance : Nat) (rows : List Row) :
    (continueFirst rows).map (Row.shift distance) =
      continueFirst (rows.map (Row.shift distance)) := by
  cases rows <;> rfl

/-- With no line above it, a row is listed as it is found. -/
theorem rowBelow?_none (chunk : Chunk) (offset : Nat) :
    rowBelow? chunk none offset = Row.at? chunk offset := by
  cases hLine : chunk.lineAt? offset <;> simp [rowBelow?, hLine]

/-- There is nothing to continue without a row above. -/
theorem line_ne_continued_of_none {chunk : Chunk} {offset : Nat} {row : Row}
    (h : rowBelow? chunk none offset = some row) : row.line ≠ .continued := by
  rw [rowBelow?_none] at h
  rw [Row.line_of_at? h, Row.lineMark]
  cases chunk.lineAt? offset <;> simp

/-- The row above a listing can only change the first mark. -/
theorem rowsBelow_eq_ite (chunk : Chunk) (previous : Option Nat) (offset : Nat) :
    rowsBelow chunk previous offset =
      if previous.isSome ∧ chunk.lineAt? offset = previous then
        continueFirst (rowsBelow chunk none offset)
      else rowsBelow chunk none offset := by
  cases hPlain : Row.at? chunk offset with
  | none => simp [rowsBelow_of_none hPlain, continueFirst]
  | some plain =>
      rw [rowsBelow_of_some ((rowBelow?_none chunk offset).trans hPlain)]
      split
      · rename_i hSeam
        have hBelow : rowBelow? chunk previous offset = some { plain with line := .continued } := by
          simp [rowBelow?, hPlain, hSeam]
        rw [rowsBelow_of_some hBelow]
        rfl
      · rename_i hSeam
        have hBelow : rowBelow? chunk previous offset = some plain := by
          cases previous with
          | none => rw [rowBelow?_none, hPlain]
          | some number => simp_all [rowBelow?]
        rw [rowsBelow_of_some hBelow]

/-- Only the last row of a listing can be cut off. -/
theorem complete_of_rows {chunk : Chunk} {done rest : List Row}
    (hRows : (rows chunk).toList = done ++ rest) (hRest : rest ≠ []) :
    ∀ row ∈ done, ∀ opcode, row.content ≠ .truncated opcode := by
  intro row hRow opcode hCut
  obtain ⟨above, below, rfl⟩ := List.append_of_mem hRow
  have hMember : row ∈ (rows chunk).toList := by simp [hRows]
  obtain ⟨mark, hPlain⟩ := at?_of_mem_rowsBelow hMember
  have hTiles := tiles_rows chunk
  rw [hRows, List.append_assoc, List.cons_append] at hTiles
  have hLast := hTiles.last_of_next_eq (at?_truncated hPlain hCut).1
  exact hRest (List.append_eq_nil_iff.mp hLast).2

end Listing

/-- An operand is read from the same bytes after they have been moved. -/
theorem window?_append_right {front code : Array UInt8} (back : Array UInt8)
    (hCode : code = front ++ back) (start width : Nat) :
    Operand.window? code (start + front.size) width = Operand.window? back start width := by
  have hInside : start + front.size + width ≤ code.size ↔ start + width ≤ back.size := by
    rw [hCode, Array.size_append]
    omega
  have hBytes : (code.extract (start + front.size) (start + front.size + width)).toList =
      (back.extract start (start + width)).toList := by
    simp [hCode, Nat.add_comm _ front.size, Nat.add_assoc]
  simp only [Operand.window?, hInside, hBytes]

/-- Code decodes behind other code as it does on its own. -/
theorem decode_append_right {front code : Array UInt8} (back : Array UInt8)
    (hCode : code = front ++ back) (offset : Nat) :
    Instruction.decode code (offset + front.size) = Instruction.decode back offset := by
  have hByte : code[offset + front.size]? = back[offset]? := by
    rw [hCode, Array.getElem?_append_right (Nat.le_add_left _ _), Nat.add_sub_cancel]
  have hWindow (width : Nat) : Operand.window? code (offset + front.size + 1) width =
      Operand.window? back (offset + 1) width := by
    rw [Nat.add_right_comm]
    exact window?_append_right back hCode (offset + 1) width
  simp only [Instruction.decode, hByte, hWindow]

namespace Chunk.Joins

open Listing

variable {front back whole : Chunk} (hJoins : Joins front back whole)

include hJoins

theorem growsTo : front.contents.GrowsTo whole.contents where
  code := ⟨_, hJoins.code.symm⟩
  lines := ⟨_, hJoins.lines.symm⟩
  constants := ⟨[], (List.append_nil _).trans hJoins.frontPool.symm⟩

theorem code_eq : whole.code.toArray = front.code.toArray ++ back.code.toArray :=
  Array.toList_inj.mp (hJoins.code.trans Array.toList_append.symm)

theorem size_eq : whole.size = back.size + front.size := by
  have hSize := congrArg Array.size hJoins.code_eq
  rw [Array.size_append, Nat.add_comm] at hSize
  exact hSize

/-- The same constants are resolved, those that are missing included. -/
theorem contentOf_front (i : Instruction) : Row.contentOf whole i = Row.contentOf front i := by
  have hPool : whole.constants.items = front.constants.items := Array.toList_inj.mp hJoins.frontPool
  simp only [Row.contentOf, constant?, Buffer.get?, hPool]

/-- The back shares the whole pool, so its instructions show the same constants. -/
theorem contentOf_back (i : Instruction) : Row.contentOf whole i = Row.contentOf back i := by
  have hPool : whole.constants.items = back.constants.items := Array.toList_inj.mp hJoins.backPool
  simp only [Row.contentOf, constant?, Buffer.get?, hPool]

variable (hInStep : front.contents.InStep)

include hInStep

theorem lineAt?_front {offset : Nat} (hInside : offset < front.size) :
    whole.lineAt? offset = front.lineAt? offset := by
  obtain ⟨line, hFront, hWhole⟩ := hJoins.growsTo.lineAt?_eq hInStep hInside
  rw [hFront, hWhole]

theorem lineAt?_back (offset : Nat) :
    whole.lineAt? (offset + front.size) = back.lineAt? offset := by
  have hLines : whole.lines.items = front.lines.items ++ back.lines.items :=
    Array.toList_inj.mp (hJoins.lines.trans Array.toList_append.symm)
  have hSize : front.lines.items.size = front.size := hInStep
  rw [lineAt?, Buffer.get?, hLines, ← hSize, Array.getElem?_append_right (Nat.le_add_left _ _),
    Nat.add_sub_cancel]
  rfl

/-! The front. -/

/-- A whole row of the front is listed in the joined code as in the front. -/
theorem rowBelow?_front {previous : Option Nat} {offset : Nat} {row : Row}
    (h : rowBelow? front previous offset = some row)
    (hComplete : ∀ opcode, row.content ≠ .truncated opcode) :
    rowBelow? whole previous offset = some row := by
  obtain ⟨plain, hPlain, rfl⟩ := Option.map_eq_some_iff.mp h
  have hLine := hJoins.lineAt?_front hInStep (Row.lt_size_of_at? hPlain)
  have hContent : ∀ opcode, plain.content ≠ .truncated opcode := by
    dsimp only at hComplete
    split at hComplete <;> exact hComplete
  have hMark : Row.lineMark whole offset = Row.lineMark front offset := by
    simp only [Row.lineMark, hLine]
  have hWhole : Row.at? whole offset = some plain := by
    rcases Row.at?_eq_some_iff.mp hPlain with
      ⟨i, hDecode, rfl⟩ | ⟨byte, hDecode, rfl⟩ | ⟨opcode, -, rfl⟩
    · simp only [Row.at?, hJoins.growsTo.decode_eq_ok hDecode, hMark, hJoins.contentOf_front]
    · simp only [Row.at?, hJoins.growsTo.decode_eq_unknown hDecode, hMark]
    · exact absurd rfl (hContent opcode)
  rw [rowBelow?, hWhole, hLine]
  rfl

/-- Rows of the front that are not cut off come first in the whole. What follows is listed below
the last one of them, in the front as in the whole. -/
theorem rowsBelow_front {done rest : List Row} {previous : Option Nat} {offset : Nat}
    (hRows : rowsBelow front previous offset = done ++ rest)
    (hComplete : ∀ row ∈ done, ∀ opcode, row.content ≠ .truncated opcode)
    (hInside : offset ≤ front.size) :
    ∃ next, next ≤ front.size ∧ rowsBelow front (lineAfter front previous done) next = rest ∧
      rowsBelow whole previous offset =
        done ++ rowsBelow whole (lineAfter front previous done) next := by
  induction done generalizing previous offset with
  | nil => exact ⟨offset, hInside, hRows, rfl⟩
  | cons row done ih =>
      rw [List.forall_mem_cons] at hComplete
      obtain ⟨hRow, hBelow⟩ := rowsBelow_eq_cons_iff.mp hRows
      obtain ⟨next, hNext, hRest, hWhole⟩ :=
        ih hBelow hComplete.2 (next_of_rowBelow? hRow).2
      have hFirst := hJoins.rowBelow?_front hInStep hRow hComplete.1
      have hLine := hJoins.lineAt?_front hInStep (Nat.lt_of_lt_of_le
        (next_of_rowBelow? hRow).1 (next_of_rowBelow? hRow).2)
      refine ⟨next, hNext, ?_, ?_⟩
      · rw [lineAfter_cons, offset_of_rowBelow? hRow]
        exact hRest
      · rw [rowsBelow_of_some hFirst, hLine, hWhole, lineAfter_cons, offset_of_rowBelow? hRow]
        rfl

/-! The back. -/

/-- A row of the back is found in the joined code, moved by the size of the front. -/
theorem at?_back (offset : Nat) :
    Row.at? whole (offset + front.size) = (Row.at? back offset).map (Row.shift front.size) := by
  have hDecode : Instruction.decode whole.code.toArray (offset + front.size) =
      Instruction.decode back.code.toArray offset :=
    decode_append_right back.code.toArray hJoins.code_eq offset
  have hMark : Row.lineMark whole (offset + front.size) = Row.lineMark back offset := by
    simp only [Row.lineMark, hJoins.lineAt?_back hInStep]
  simp only [Row.at?, hDecode, hMark, hJoins.size_eq]
  cases Instruction.decode back.code.toArray offset with
  | ok i => simp [Row.shift, hJoins.contentOf_back, Nat.add_right_comm]
  | error reason => cases reason <;> simp [Row.shift, Nat.add_right_comm]

theorem rowBelow?_back (previous : Option Nat) (offset : Nat) :
    rowBelow? whole previous (offset + front.size) =
      (rowBelow? back previous offset).map (Row.shift front.size) := by
  simp only [rowBelow?, hJoins.at?_back hInStep, hJoins.lineAt?_back hInStep, Option.map_map]
  congr 1
  funext plain
  simp only [Function.comp_apply]
  split <;> rfl

theorem rowsBelow_back (previous : Option Nat) (offset : Nat) :
    rowsBelow whole previous (offset + front.size) =
      (rowsBelow back previous offset).map (Row.shift front.size) := by
  refine rowsBelow_induction
    (motive := fun previous offset rows => rowsBelow whole previous (offset + front.size) =
      rows.map (Row.shift front.size))
    ?_ ?_ previous offset
  · intro previous offset hEnd
    apply rowsBelow_of_none
    rw [hJoins.at?_back hInStep, hEnd, Option.map_none]
  · intro previous offset row hRow ih
    apply rowsBelow_eq_cons_iff.mpr
    rw [hJoins.rowBelow?_back hInStep, hRow, hJoins.lineAt?_back hInStep]
    exact ⟨rfl, ih⟩

omit hJoins in
/-- A listing with a last row has a line for it. -/
theorem isSome_lastLine? : (lastLine? front).isSome ↔ front.size ≠ 0 := by
  have hTiles := tiles_rows front
  cases hLast : (rows front).toList.getLast? with
  | none =>
      rw [List.getLast?_eq_none_iff.mp hLast] at hTiles
      simp [lastLine?, hLast, ← show 0 = front.size from hTiles]
  | some last =>
      obtain ⟨mark, hPlain⟩ := at?_of_mem_rowsBelow (List.mem_of_getLast? hLast)
      have hInside := Row.lt_size_of_at? hPlain
      obtain ⟨line, hLine⟩ := hInStep.exists_lineAt? hInside
      simp [lastLine?, hLast, hLine, Nat.ne_zero_of_lt hInside]

/-- Below the rows of the front the rows of the back are moved, and the first one continues the
line of the last row above it if it has the same. -/
theorem rowsBelow_seam :
    rowsBelow whole (lastLine? front) front.size =
      if front.size ≠ 0 ∧ back.lineAt? 0 = lastLine? front then
        continueFirst ((rows back).toList.map (Row.shift front.size))
      else (rows back).toList.map (Row.shift front.size) := by
  have hMoved := hJoins.rowsBelow_back hInStep (lastLine? front) 0
  rw [Nat.zero_add] at hMoved
  simp only [hMoved, rowsBelow_eq_ite back (lastLine? front), isSome_lastLine? hInStep,
    apply_ite (List.map _), map_shift_continueFirst]
  rfl

end Chunk.Joins

namespace Listing

/-- Listings are composed like the code that they show. Unless the rows of the first part end with
a cut-off one, the listing of the whole consists of these rows and of the rows of the second part,
moved by the size of the first part. Only the first mark at the seam may change. It continues the
line above exactly if there is a row above and both have the same line; in its own listing it
never does. The rows before a cut-off row come first in the whole in any case. -/
theorem rows_of_joined {front back whole : Chunk} (hJoins : Chunk.Joins front back whole)
    (hInStep : front.contents.InStep) :
    let moved := (rows back).toList.map (Row.shift front.size)
    ((∀ above last opcode, (rows front).toList = above ++ [last] →
        last.content ≠ .truncated opcode) →
      (rows whole).toList = (rows front).toList ++
        if front.size ≠ 0 ∧ back.lineAt? 0 = lastLine? front then continueFirst moved
        else moved) ∧
    (∀ first, moved.head? = some first → first.line ≠ .continued) ∧
    ∀ above cut opcode, (rows front).toList = above ++ [cut] → cut.content = .truncated opcode →
      above <+: (rows whole).toList := by
  have hSplit {done rest : List Row} (hRows : (rows front).toList = done ++ rest)
      (hComplete : ∀ row ∈ done, ∀ opcode, row.content ≠ .truncated opcode) :=
    hJoins.rowsBelow_front hInStep hRows hComplete (Nat.zero_le _)
  intro moved
  refine ⟨fun hUncut => ?_, fun first hFirst => ?_, fun above cut opcode hRows _ => ?_⟩
  · have hComplete : ∀ row ∈ (rows front).toList, ∀ opcode, row.content ≠ .truncated opcode := by
      rcases List.eq_nil_or_concat (rows front).toList with hNil | ⟨above, last, hRows⟩
      · simp [hNil]
      · rw [List.concat_eq_append] at hRows
        intro row hRow opcode
        rw [hRows, List.mem_append, List.mem_singleton] at hRow
        rcases hRow with hAbove | rfl
        · exact complete_of_rows hRows (List.cons_ne_nil _ _) row hAbove opcode
        · exact hUncut above row opcode hRows
    obtain ⟨next, hNext, hNone, hWhole⟩ := hSplit (List.append_nil _).symm hComplete
    have hEnd := Row.size_le_of_at?_eq_none (rowsBelow_eq_nil_iff.mp hNone)
    obtain rfl : next = front.size := Nat.le_antisymm hNext hEnd
    have hLine : lineAfter front none (rows front).toList = lastLine? front := by
      cases hLast : (rows front).toList.getLast? <;> simp [lineAfter, lastLine?, hLast]
    rw [toList_rows whole, hWhole, hLine, hJoins.rowsBelow_seam hInStep]
  · rw [List.head?_map] at hFirst
    obtain ⟨row, hHead, rfl⟩ := Option.map_eq_some_iff.mp hFirst
    obtain ⟨rest, hRows⟩ := List.head?_eq_some_iff.mp hHead
    have hMark := line_ne_continued_of_none (rowsBelow_eq_cons_iff.mp hRows).1
    exact hMark
  · obtain ⟨next, -, -, hWhole⟩ :=
      hSplit hRows (complete_of_rows hRows (List.cons_ne_nil _ _))
    exact ⟨_, hWhole.symm⟩

/-- A byte that is no opcode, and a return from another line. -/
def opening : Chunk := ⟨⟨#[254, 1], 8⟩, ⟨#[7, 8], 8⟩, ⟨#[.number 1], 8⟩⟩

/-- A load from the line of the return, followed by a load that is cut off. -/
def closing : Chunk := ⟨⟨#[0, 0, 2, 0], 8⟩, ⟨#[8, 9, 9, 9], 8⟩, ⟨#[.number 1], 8⟩⟩

def opened : Chunk := ⟨⟨#[254, 1, 0, 0, 2, 0], 8⟩, ⟨#[7, 8, 8, 9, 9, 9], 8⟩, ⟨#[.number 1], 8⟩⟩

/-- The other one first. The cut-off load takes up the bytes that follow. -/
def reopened : Chunk := ⟨⟨#[0, 0, 2, 0, 254, 1], 8⟩, ⟨#[8, 9, 9, 9, 7, 8], 8⟩, ⟨#[.number 1], 8⟩⟩

/-- In the one order the load continues the line of the return. In the other order its row comes
first, and nothing is said about the rows after it. -/
theorem rows_of_opened :
    Chunk.Joins opening closing opened ∧ opening.contents.InStep ∧
      (rows opened).toList =
        [⟨0, .line 7, .unknown 254, 1⟩, ⟨1, .line 8, .simple .ret, 2⟩,
          ⟨2, .continued, .constant .constant 0 (some (.number 1)), 4⟩,
          ⟨4, .line 9, .truncated .constantLong, 6⟩] ∧
      Chunk.Joins closing opening reopened ∧ closing.contents.InStep ∧
      [⟨0, .line 8, .constant .constant 0 (some (.number 1)), 2⟩] <+: (rows reopened).toList := by
  have hOpening : (rows opening).toList =
      [⟨0, .line 7, .unknown 254, 1⟩, ⟨1, .line 8, .simple .ret, 2⟩] := by cbv
  have hClosing : (rows closing).toList =
      [⟨0, .line 8, .constant .constant 0 (some (.number 1)), 2⟩,
        ⟨2, .line 9, .truncated .constantLong, 4⟩] := by cbv
  have hOpened : Chunk.Joins opening closing opened := ⟨rfl, rfl, rfl, rfl⟩
  have hReopened : Chunk.Joins closing opening reopened := ⟨rfl, rfl, rfl, rfl⟩
  refine ⟨hOpened, rfl, ?_, hReopened, rfl, ?_⟩
  · have hUncut : ∀ above last opcode, (rows opening).toList = above ++ [last] →
        last.content ≠ .truncated opcode := by
      intro above last opcode hRows
      have hLast := congrArg List.getLast? (hOpening.symm.trans hRows)
      rw [List.getLast?_concat] at hLast
      cases hLast
      simp
    have hSeam : opening.size ≠ 0 ∧ closing.lineAt? 0 = lastLine? opening := by
      rw [lastLine?, hOpening]
      decide
    rw [(rows_of_joined hOpened rfl).1 hUncut, if_pos hSeam, hOpening, hClosing]
    rfl
  · exact (rows_of_joined hReopened rfl).2.2 _ _ .constantLong hClosing rfl

end Listing

end StackMachine
