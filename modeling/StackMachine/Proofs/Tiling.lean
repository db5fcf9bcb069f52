import StackMachine.Proofs.Rows

/-! Listings lose nothing. Whatever the bytes are, the rows follow one another without a gap from
the first byte to the last, and the bytes can be written again from the rows. -/
namespace StackMachine

/-- Rows that follow one another without a gap, from an offset up to another. -/
def Tiles : Nat → List Row → Nat → Prop
  | start, [], stop => start = stop
  | start, row :: rest, stop => row.offset = start ∧ start < row.next ∧ Tiles row.next rest stop

/-- Tiles of at least one byte each are no more than the bytes. -/
theorem Tiles.add_length_le {rows : List Row} {start stop : Nat} (h : Tiles start rows stop) :
    start + rows.length ≤ stop := by
  induction rows generalizing start with
  | nil => exact Nat.le_of_eq h
  | cons row rest ih =>
      obtain ⟨-, hMoves, hRest⟩ := h
      have hLength := ih hRest
      rw [List.length_cons]
      omega

theorem Tiles.eq_nil_of_le {rows : List Row} {start stop : Nat} (h : Tiles start rows stop)
    (hEnd : stop ≤ start) : rows = [] := by
  have hLength := h.add_length_le
  exact List.eq_nil_of_length_eq_zero (by omega)

/-- The rest of a tiling tiles from where its front ends. -/
theorem Tiles.of_append {first second : List Row} {start stop : Nat}
    (h : Tiles start (first ++ second) stop) : ∃ middle, Tiles middle second stop := by
  induction first generalizing start with
  | nil => exact ⟨start, h⟩
  | cons row rest ih => exact ih h.2.2

/-- A row that reaches the end is the last one. -/
theorem Tiles.last_of_next_eq {front rest : List Row} {row : Row} {start stop : Nat}
    (h : Tiles start (front ++ row :: rest) stop) (hEnd : row.next = stop) : rest = [] := by
  obtain ⟨middle, -, -, hRest⟩ := h.of_append
  exact hRest.eq_nil_of_le (Nat.le_of_eq hEnd.symm)

namespace Row

/-- The bytes of a row, written again from its content. Of a cut-off instruction only the opcode
is in the row, and the code after it is taken as it stands. -/
def encode (code : List UInt8) (row : Row) : List UInt8 :=
  match row.content with
  | .simple opcode => [opcode.byte]
  | .constant opcode index _ =>
    opcode.byte :: Operand.write opcode.operandWidth (UInt32.ofNat index)
  | .truncated opcode => opcode.byte :: code.drop (row.offset + 1)
  | .unknown byte => [byte]

/-- The line column is not part of the code. -/
theorem encode_of_line (code : List UInt8) (row : Row) (mark : LineMark) :
    encode code { row with line := mark } = encode code row := rfl

/-- The row of an instruction is written like the instruction. -/
theorem encode_of_instruction {chunk : Chunk} {i : Instruction} (hForm : i.WellFormed)
    (code : List UInt8) (offset next : Nat) (mark : LineMark) :
    encode code ⟨offset, mark, contentOf chunk i, next⟩ = i.encode := by
  obtain ⟨opcode, operand⟩ := i
  cases operand with
  | none =>
      have hWidth : opcode.operandWidth = 0 := hForm
      simp only [encode, contentOf, Instruction.encode, hWidth, Operand.write]
  | some operand =>
      simp only [encode, contentOf, Instruction.encode, UInt32.ofNat_toNat, Option.getD_some]

theorem drop_eq_cons_of_getElem? {code : Array UInt8} {offset : Nat} {byte : UInt8}
    (h : code[offset]? = some byte) :
    code.toList.drop offset = byte :: code.toList.drop (offset + 1) := by
  rw [← Array.getElem?_toList] at h
  obtain ⟨hInside, hByte⟩ := List.getElem?_eq_some_iff.mp h
  rw [List.drop_eq_getElem_cons hInside, hByte]

/-- Between the offset of a row and the next one stand the bytes of the row. -/
theorem encode_of_at? {chunk : Chunk} {offset : Nat} {row : Row}
    (h : at? chunk offset = some row) :
    row.encode chunk.code.toList = (chunk.code.toList.drop offset).take (row.next - offset) := by
  rcases at?_eq_some_iff.mp h with ⟨i, hDecode, rfl⟩ | ⟨byte, hDecode, rfl⟩ | ⟨opcode, hDecode, rfl⟩
  · obtain ⟨hForm, hCarries⟩ := Instruction.carries_of_decode hDecode
    rw [encode_of_instruction hForm, Nat.add_sub_cancel_left, ← Instruction.length_encode]
    exact List.prefix_iff_eq_take.mp hCarries
  · obtain ⟨hByte, -⟩ := Instruction.decode_eq_unknown_iff.mp hDecode
    have hDrop := drop_eq_cons_of_getElem? hByte
    change [byte] = (chunk.code.toArray.toList.drop offset).take (offset + 1 - offset)
    rw [hDrop, Nat.add_sub_cancel_left]
    rfl
  · obtain ⟨hByte, -, -⟩ := Instruction.decode_eq_truncated_iff.mp hDecode
    have hDrop := drop_eq_cons_of_getElem? hByte
    have hRest : (chunk.code.toArray.toList.drop offset).length ≤ chunk.size - offset := by
      rw [List.length_drop]
      exact Nat.le_refl _
    change opcode.byte :: chunk.code.toArray.toList.drop (offset + 1) =
      (chunk.code.toArray.toList.drop offset).take (chunk.size - offset)
    rw [List.take_of_length_le hRest, hDrop]

end Row

namespace Listing

theorem offset_of_rowBelow? {chunk : Chunk} {previous : Option Nat} {offset : Nat} {row : Row}
    (h : rowBelow? chunk previous offset = some row) : row.offset = offset := by
  obtain ⟨plain, hPlain, rfl⟩ := Option.map_eq_some_iff.mp h
  have hOffset := Row.offset_of_at? hPlain
  dsimp only
  split <;> exact hOffset

/-- The rows from an offset on leave no gap up to the end of the code. -/
theorem tiles_rowsBelow {chunk : Chunk} {offset : Nat} (hInside : offset ≤ chunk.size)
    (previous : Option Nat) : Tiles offset (rowsBelow chunk previous offset) chunk.size := by
  refine rowsBelow_induction (motive := fun _ offset rows =>
    offset ≤ chunk.size → Tiles offset rows chunk.size) ?_ ?_ previous offset hInside
  · intro previous offset hEnd hInside
    exact Nat.le_antisymm hInside (Row.size_le_of_at?_eq_none hEnd)
  · intro previous offset row hRow ih _
    obtain ⟨hMoves, hNext⟩ := next_of_rowBelow? hRow
    exact ⟨offset_of_rowBelow? hRow, hMoves, ih hNext⟩

/-- The bytes of the rows from an offset on are the rest of the code. -/
theorem flatMap_encode_rowsBelow (chunk : Chunk) (previous : Option Nat) (offset : Nat) :
    (rowsBelow chunk previous offset).flatMap (Row.encode chunk.code.toList) =
      chunk.code.toList.drop offset := by
  refine rowsBelow_induction (motive := fun _ offset rows =>
    rows.flatMap (Row.encode chunk.code.toList) = chunk.code.toList.drop offset)
    ?_ ?_ previous offset
  · intro previous offset hEnd
    exact (List.drop_eq_nil_of_le (Row.size_le_of_at?_eq_none hEnd)).symm
  · intro previous offset row hRow ih
    obtain ⟨mark, hPlain⟩ := at?_of_rowBelow? hRow
    obtain ⟨hMoves, -⟩ := next_of_rowBelow? hRow
    have hBytes := Row.encode_of_at? hPlain
    rw [Row.encode_of_line, offset_of_rowBelow? hRow] at hBytes
    have hRest : chunk.code.toList.drop row.next =
        (chunk.code.toList.drop offset).drop (row.next - offset) := by
      rw [List.drop_drop, Nat.add_sub_cancel' (Nat.le_of_lt hMoves)]
    rw [List.flatMap_cons, ih, hBytes, hRest, List.take_append_drop]

/-- The listed rows cover the code without gap or overlap. -/
theorem tiles_rows (chunk : Chunk) : Tiles 0 (rows chunk).toList chunk.size :=
  tiles_rowsBelow (Nat.zero_le _) none

/-- A cut-off row takes all that is left, which is less than its operand. -/
theorem at?_truncated {chunk : Chunk} {offset : Nat} {row : Row} {opcode : Opcode}
    (h : Row.at? chunk offset = some row) (hContent : row.content = .truncated opcode) :
    row.next = chunk.size ∧ chunk.size - (offset + 1) < opcode.operandWidth := by
  rcases Row.at?_eq_some_iff.mp h with ⟨i, -, rfl⟩ | ⟨byte, -, rfl⟩ | ⟨cut, hDecode, rfl⟩
  · obtain ⟨_, operand⟩ := i
    cases operand <;> cases hContent
  · cases hContent
  · cases hContent
    obtain ⟨hByte, -, hEnd⟩ := Instruction.decode_eq_truncated_iff.mp hDecode
    have hInside : offset < chunk.code.toArray.size := (Array.getElem?_eq_some_iff.mp hByte).1
    have hSize : chunk.code.toArray.size = chunk.size := rfl
    exact ⟨rfl, by omega⟩

/-- A row of a load shows the constant that its index names. -/
theorem value_of_at? {chunk : Chunk} {offset : Nat} {row : Row} {opcode : Opcode} {index : Nat}
    {value : Option Value} (h : Row.at? chunk offset = some row)
    (hContent : row.content = .constant opcode index value) :
    value = chunk.constant? index := by
  rcases Row.at?_eq_some_iff.mp h with ⟨i, -, rfl⟩ | ⟨byte, -, rfl⟩ | ⟨cut, -, rfl⟩
  · obtain ⟨_, operand⟩ := i
    cases operand <;> cases hContent
    rfl
  · cases hContent
  · cases hContent

/-- The listing of any chunk is a lossless tiling of its code. The rows leave no gap, there are at
most as many as there are bytes, and none only if there are no bytes. Every row can be written
again as the bytes between its offset and the next one, so all rows together are the code. Only
the last row can be cut off, by less than its operand. A load shows its constant if the pool has
one for its index. -/
theorem rows_tile_code (chunk : Chunk) :
    Tiles 0 (rows chunk).toList chunk.size ∧
    (rows chunk).size ≤ chunk.size ∧
    ((rows chunk).size = 0 ↔ chunk.size = 0) ∧
    (rows chunk).toList.flatMap (Row.encode chunk.code.toList) = chunk.code.toList ∧
    (∀ row ∈ (rows chunk).toList,
      row.encode chunk.code.toList = (chunk.code.toArray.extract row.offset row.next).toList) ∧
    (∀ front row rest opcode, (rows chunk).toList = front ++ row :: rest →
      row.content = .truncated opcode →
      rest = [] ∧ chunk.size - (row.offset + 1) < opcode.operandWidth) ∧
    ∀ row ∈ (rows chunk).toList, ∀ opcode index value,
      row.content = .constant opcode index value →
      (∀ h : index < chunk.constants.size, value = some chunk.constants[index]) ∧
        (chunk.constants.size ≤ index → value = none) := by
  have hTiles := tiles_rows chunk
  have hLength := hTiles.add_length_le
  rw [Nat.zero_add] at hLength
  refine ⟨hTiles, hLength, ⟨fun hNone => ?_, fun hNone => ?_⟩,
    flatMap_encode_rowsBelow chunk none 0, fun row hRow => ?_,
    fun front row rest opcode hRows hContent => ?_,
    fun row hRow opcode index value hContent => ?_⟩
  · have hNil : (rows chunk).toList = [] := List.eq_nil_of_length_eq_zero hNone
    rw [hNil] at hTiles
    exact hTiles.symm
  · exact Nat.le_zero.mp (hNone ▸ hLength)
  · obtain ⟨mark, hPlain⟩ := at?_of_mem_rowsBelow hRow
    rw [Array.toList_extract, List.extract_eq_take_drop, ← Row.encode_of_line _ row mark]
    exact Row.encode_of_at? hPlain
  · have hRow : row ∈ (rows chunk).toList := by
      rw [hRows]
      exact List.mem_append_right front List.mem_cons_self
    obtain ⟨mark, hPlain⟩ := at?_of_mem_rowsBelow hRow
    obtain ⟨hNext, hCut⟩ := at?_truncated hPlain hContent
    rw [hRows] at hTiles
    exact ⟨hTiles.last_of_next_eq hNext, hCut⟩
  · obtain ⟨mark, hPlain⟩ := at?_of_mem_rowsBelow hRow
    rw [value_of_at? hPlain hContent]
    exact ⟨fun h => Array.getElem?_eq_getElem h, fun h => Array.getElem?_eq_none h⟩

/-- A byte that is no opcode, a load past the end of the pool, and a load that is cut off. -/
def garbled : Chunk :=
  ⟨⟨#[254, 0, 5, 2, 0], 8⟩, ⟨#[1, 2, 2, 2, 3], 8⟩, .empty⟩

/-- The rows of the garbled code, and what is known of each of them. -/
theorem rows_tile_garbled :
    ∃ unknown load cut : Row, (rows garbled).toList = [unknown, load, cut] ∧
      Tiles 0 [unknown, load, cut] 5 ∧
      unknown.encode garbled.code.toList = [254] ∧
      (∀ value, load.content = .constant .constant 5 value → value = none) ∧
      cut.encode garbled.code.toList = [2, 0] ∧ garbled.size - (cut.offset + 1) < 3 := by
  have hRows : (rows garbled).toList = [⟨0, .line 1, .unknown 254, 1⟩,
      ⟨1, .line 2, .constant .constant 5 none, 3⟩,
      ⟨3, .continued, .truncated .constantLong, 5⟩] := by cbv
  obtain ⟨hTiles, -, -, -, hBytes, hCut, hValue⟩ := rows_tile_code garbled
  rw [hRows] at hTiles hBytes hCut hValue
  obtain ⟨-, hShort⟩ := hCut [_, _] _ [] .constantLong rfl rfl
  exact ⟨_, _, _, hRows, hTiles, hBytes _ (.head _),
    fun value h => (hValue _ (.tail _ (.head _)) .constant 5 value h).2 (Nat.zero_le 5),
    hBytes _ (.tail _ (.tail _ (.head _))), hShort⟩

end Listing

end StackMachine
