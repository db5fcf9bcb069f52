import Mathlib.Data.List.Forall2
import StackMachine.Proofs.LineMarks
import StackMachine.Proofs.Separation

/-! What the text of a listing tells. The columns of a row are told apart piece by piece, though any
of them can be wider than its place, and no row contains a line break. So the text of a listing
tells all of its rows, up to the digits of a constant that are not shown, and with the rows
it tells the code and the lines of the instructions. -/
namespace StackMachine

namespace Decimal

variable {c : Char} (hDigit : c.isDigit = false)

include hDigit

theorem Numeral.not_mem_text (hPoint : c ≠ '.') (d : Numeral) : c ∉ d.text.toList := by
  have hWhole (n : Nat) : c ∉ (toString n).toList := Text.not_mem_toString hDigit n
  unfold text
  dsimp only
  split
  · exact hWhole d.coefficient
  · rename_i hPlaces
    have hFraction := Text.not_mem_zeroPadded hDigit (Nat.pos_of_ne_zero hPlaces)
      (d.coefficient % Nat.pow 10 d.places)
    simp only [String.toList_append, String.reduceToList, List.mem_append, List.mem_singleton,
      not_or]
    exact ⟨⟨hWhole _, hPoint⟩, hFraction⟩

/-- Numbers are written with digits, a point, and the marks of an exponent. -/
theorem GeneralNotation.not_mem_text (hMarks : c ∉ ['.', 'e', '+', '-']) {style : GeneralNotation}
    (hWidth : 0 < style.exponentDigits) (x : Fraction) : c ∉ (style.text x).toList := by
  simp only [List.mem_cons, List.not_mem_nil, or_false, not_or] at hMarks
  obtain ⟨hPoint, hLetter, hPlus, hMinus⟩ := hMarks
  have hExponent (exponent : ℤ) : c ∉ (style.exponentText exponent).toList := by
    have hMagnitude := Text.not_mem_zeroPadded hDigit hWidth exponent.natAbs
    unfold exponentText
    split <;> simp [hLetter, hPlus, hMinus, hMagnitude]
  unfold text
  dsimp only
  split
  · rw [String.toList_append, List.mem_append, not_or]
    exact ⟨Numeral.not_mem_text hDigit hPoint _, hExponent _⟩
  · exact Numeral.not_mem_text hDigit hPoint _

end Decimal

/-- A value is shown on one line. -/
theorem Value.lineBreak_not_mem_display (value : Value) : '\n' ∉ value.display.toList := by
  have hSign (negative : Bool) : '\n' ∉ (signText negative).toList := by
    cases negative <;> simp [signText]
  obtain ⟨x⟩ := value
  change '\n' ∉ (shortNumber x).toList
  unfold shortNumber
  split
  · simp
  · simp [hSign]
  · rw [String.toList_append, List.mem_append, not_or]
    exact ⟨hSign _, Decimal.GeneralNotation.not_mem_text rfl (by decide) (by decide) _⟩

namespace Opcode

theorem mnemonic_injective : Function.Injective mnemonic := by
  intro a b h
  cases a <;> cases b <;> simp [mnemonic] at h ⊢

theorem mnemonic_ne_unknown (opcode : Opcode) : opcode.mnemonic ≠ "Unknown" := by
  cases opcode <;> simp [mnemonic]

theorem blank_not_mem_mnemonic (opcode : Opcode) : ' ' ∉ opcode.mnemonic.toList := by
  cases opcode <;> simp [mnemonic]

theorem lineBreak_not_mem_mnemonic (opcode : Opcode) : '\n' ∉ opcode.mnemonic.toList := by
  cases opcode <;> simp [mnemonic]

end Opcode

namespace LineMark

def symbol : LineMark → String
  | .line number => toString number
  | .continued => "|"
  | .unknown => "?"

theorem text_eq (mark : LineMark) : mark.text = Text.alignRight 4 ' ' mark.symbol ++ " " := by
  cases mark with
  | line number => rfl
  | continued | unknown => decide

theorem symbol_injective : Function.Injective symbol := by
  have hContinued (number : Nat) : symbol (.line number) ≠ symbol .continued :=
    Text.toString_ne (by decide : '|'.isDigit = false) (by simp [symbol]) number
  have hUnknown (number : Nat) : symbol (.line number) ≠ symbol .unknown :=
    Text.toString_ne (by decide : '?'.isDigit = false) (by simp [symbol]) number
  intro a b h
  cases a with
  | line number =>
      cases b with
      | line other => rw [Text.toString_injective h]
      | continued => exact absurd h (hContinued number)
      | unknown => exact absurd h (hUnknown number)
  | continued =>
      cases b with
      | line other => exact absurd h.symm (hContinued other)
      | continued => rfl
      | unknown => simp [symbol] at h
  | unknown =>
      cases b with
      | line other => exact absurd h.symm (hUnknown other)
      | continued => simp [symbol] at h
      | unknown => rfl

/-- The column of line marks can be cut off whatever follows it. -/
theorem unambiguous_column : Text.Unambiguous fun mark => Text.alignRight 4 ' ' (symbol mark) := by
  refine Text.unambiguous_alignRight symbol_injective (fun mark => ?_) (fun mark => ?_) 4
  · cases mark with
    | line number => exact Text.not_mem_toString rfl number
    | continued | unknown => simp [symbol]
  · cases mark with
    | line number => exact Text.toList_toString_ne_nil number
    | continued | unknown => simp [symbol]

end LineMark

namespace RowContent

/-- Two contents are shown alike. They are of one kind, with the same opcode or byte and the same
index, and there is a constant in both or in none, with the same text. -/
inductive Agrees : RowContent → RowContent → Prop where
  | simple (opcode : Opcode) : Agrees (.simple opcode) (.simple opcode)
  | constant (opcode : Opcode) (index : Nat) {value other : Option Value}
    (hValue : value.map Value.display = other.map Value.display) :
    Agrees (.constant opcode index value) (.constant opcode index other)
  | truncated (opcode : Opcode) : Agrees (.truncated opcode) (.truncated opcode)
  | unknown (byte : UInt8) : Agrees (.unknown byte) (.unknown byte)

def opcode? : RowContent → Option Opcode
  | .simple opcode | .constant opcode _ _ | .truncated opcode => some opcode
  | .unknown _ => none

def head : Option Opcode → String
  | some opcode => opcode.mnemonic
  | none => "Unknown"

def tail : RowContent → String
  | .simple _ => ""
  | .constant opcode index value =>
    String.ofList (List.replicate (16 - opcode.mnemonic.toList.length + 1) ' ') ++
      Text.alignRight 4 ' ' (toString index) ++ " " ++ valueText value
  | .truncated _ => " <truncated>"
  | .unknown byte => " opcode 0x" ++ Text.hexByte byte

theorem text_eq (content : RowContent) : content.text = head content.opcode? ++ content.tail := by
  cases content with
  | simple opcode => exact String.append_empty.symm
  | constant opcode index value =>
      change Text.alignLeft 16 ' ' opcode.mnemonic ++ " " ++
        Text.alignRight 4 ' ' (toString index) ++ " " ++ valueText value = opcode.mnemonic ++ _
      apply String.toList_inj.mp
      simp only [tail, String.toList_append, Text.toList_alignLeft, List.rightpad,
        String.toList_ofList, List.replicate_succ', List.append_assoc, String.reduceToList]
  | truncated opcode => rfl
  | unknown byte =>
      have hWords : "Unknown opcode 0x" = "Unknown" ++ " opcode 0x" := by decide
      change "Unknown opcode 0x" ++ Text.hexByte byte = "Unknown" ++ (" opcode 0x" ++ _)
      rw [hWords, String.append_assoc]

/-- The opcode or its absence can be read off the start of a text. -/
theorem unambiguous_head : Text.Unambiguous head := by
  apply Text.unambiguous_of_injective
  · intro a b h
    cases a with
    | none =>
        cases b with
        | none => rfl
        | some opcode => exact absurd h.symm opcode.mnemonic_ne_unknown
    | some opcode =>
        cases b with
        | none => exact absurd h opcode.mnemonic_ne_unknown
        | some other => rw [Opcode.mnemonic_injective h]
  · intro opcode?
    cases opcode? with
    | none => simp [head]
    | some opcode => exact opcode.blank_not_mem_mnemonic

/-- Constants are told apart as far as their display does. -/
theorem valueText_eq_iff {value other : Option Value} :
    valueText value = valueText other ↔ value.map Value.display = other.map Value.display := by
  cases value with
  | none =>
      cases other with
      | none => exact ⟨fun _ => rfl, fun _ => rfl⟩
      | some _ => exact ⟨fun h => absurd (congrArg String.toList h) (by simp [valueText]), nofun⟩
  | some _ =>
      cases other with
      | none => exact ⟨fun h => absurd (congrArg String.toList h) (by simp [valueText]), nofun⟩
      | some _ =>
          refine ⟨fun h => congrArg some (String.toList_inj.mp ?_), fun h => ?_⟩
          · have hTexts := congrArg String.toList h
            simp only [valueText, String.toList_append, List.append_assoc] at hTexts
            exact List.append_cancel_right (List.append_cancel_left hTexts)
          · rw [valueText, valueText, Option.some.inj h]

theorem unambiguous_index :
    Text.Unambiguous fun index : Nat => Text.alignRight 4 ' ' (toString index) :=
  Text.unambiguous_alignRight Text.toString_injective (Text.not_mem_toString rfl)
    Text.toList_toString_ne_nil 4

theorem toList_tail_constant (opcode : Opcode) (index : Nat) (value : Option Value) :
    (tail (.constant opcode index value)).toList =
      List.replicate (16 - opcode.mnemonic.toList.length + 1) ' ' ++
        ((Text.alignRight 4 ' ' (toString index)).toList ++ ' ' :: (valueText value).toList) := by
  simp only [tail, String.toList_append, String.toList_ofList, List.append_assoc,
    String.reduceToList, List.singleton_append]

theorem ends_tail (content : RowContent) : Text.Ends ' ' content.tail.toList := by
  cases content with
  | simple opcode => exact Text.ends_nil
  | constant opcode index value =>
      rw [toList_tail_constant, List.replicate_succ]
      exact Text.ends_cons _
  | truncated opcode | unknown byte =>
      simp only [tail, String.toList_append, String.reduceToList]
      exact Text.ends_cons _

/-- After its blanks a load shows a number, and an instruction that is cut off shows none. -/
theorem tail_constant_ne_truncated (opcode : Opcode) (index : Nat) (value : Option Value)
    (cut : Opcode) : tail (.constant opcode index value) ≠ tail (.truncated cut) := by
  intro h
  have hCut : (tail (.truncated cut)).toList =
      List.replicate 1 ' ' ++ ("<truncated>".toList ++ []) := by
    simp [tail]
  have hTails := congrArg String.toList h
  rw [toList_tail_constant, hCut, Text.toList_alignRight, List.leftpad, List.append_assoc,
    ← List.append_assoc, List.replicate_append_replicate] at hTails
  obtain ⟨hIndex, -⟩ := Text.columns_eq (Text.not_mem_toString rfl index) (by simp)
    (Text.toList_toString_ne_nil index) (by simp) (Text.ends_cons _) Text.ends_nil hTails
  exact Text.toString_ne (by decide : '<'.isDigit = false) (by simp) index
    (String.toList_inj.mp hIndex)

/-- The opcode is the same, or there is none; what follows it tells the kinds apart. -/
theorem agrees_of_text_eq {content other : RowContent} (h : content.text = other.text) :
    content.Agrees other := by
  have hTexts := congrArg String.toList h
  rw [text_eq, text_eq, String.toList_append, String.toList_append] at hTexts
  obtain ⟨hHead, hTails⟩ := unambiguous_head content.ends_tail other.ends_tail hTexts
  have hTail : content.tail = other.tail := String.toList_inj.mp hTails
  cases content with
  | simple opcode =>
      cases other with
      | simple other =>
          obtain rfl : opcode = other := Option.some.inj hHead
          exact .simple opcode
      | constant => simp [tail, List.replicate_succ] at hTails
      | truncated => simp [tail] at hTail
      | unknown => cases hHead
  | constant opcode index value =>
      cases other with
      | simple => simp [tail, List.replicate_succ] at hTails
      | constant other otherIndex otherValue =>
          obtain rfl : opcode = other := Option.some.inj hHead
          rw [toList_tail_constant, toList_tail_constant] at hTails
          obtain ⟨rfl, hValue⟩ := unambiguous_index (Text.ends_cons _) (Text.ends_cons _)
            (List.append_cancel_left hTails)
          have hShown := String.toList_inj.mp (List.cons.inj hValue).2
          exact .constant opcode index (valueText_eq_iff.mp hShown)
      | truncated => exact absurd hTail (tail_constant_ne_truncated _ _ _ _)
      | unknown => cases hHead
  | truncated opcode =>
      cases other with
      | simple => simp [tail] at hTail
      | constant => exact absurd hTail.symm (tail_constant_ne_truncated _ _ _ _)
      | truncated other =>
          obtain rfl : opcode = other := Option.some.inj hHead
          exact .truncated opcode
      | unknown => cases hHead
  | unknown byte =>
      cases other with
      | unknown other =>
          rw [tail, tail, String.toList_append, String.toList_append] at hTails
          have hByte := String.toList_inj.mp (List.append_cancel_left hTails)
          obtain rfl : byte = other := Text.hexByte_injective hByte
          exact .unknown byte
      | simple | constant | truncated => cases hHead

theorem text_eq_iff {content other : RowContent} :
    content.text = other.text ↔ content.Agrees other := by
  refine ⟨agrees_of_text_eq, fun h => ?_⟩
  cases h with
  | simple | truncated | unknown => rfl
  | constant opcode index hValue =>
      rw [text_eq, text_eq, tail, tail, valueText_eq_iff.mpr hValue]
      rfl

theorem lineBreak_not_mem_text (content : RowContent) : '\n' ∉ content.text.toList := by
  have hHead : '\n' ∉ (head content.opcode?).toList := by
    cases content.opcode? with
    | none => simp [head]
    | some opcode => exact opcode.lineBreak_not_mem_mnemonic
  have hTail : '\n' ∉ content.tail.toList := by
    cases content with
    | simple | truncated => simp [tail]
    | constant opcode index value =>
        have hIndex : '\n' ∉ (Text.alignRight 4 ' ' (toString index)).toList :=
          Text.not_mem_alignRight (by decide) (Text.not_mem_toString rfl index) 4
        have hValue : '\n' ∉ (valueText value).toList := by
          cases value with
          | none => simp [valueText]
          | some value => simp [valueText, value.lineBreak_not_mem_display]
        rw [toList_tail_constant]
        simp only [List.mem_append, List.mem_replicate, List.mem_cons, not_or]
        exact ⟨by simp, hIndex, by decide, hValue⟩
    | unknown byte => simp [tail, Text.not_mem_hexByte (c := '\n') (by decide) byte]
  rw [text_eq, String.toList_append, List.mem_append, not_or]
  exact ⟨hHead, hTail⟩

end RowContent

namespace Row

/-- Two rows are shown alike. Where the next row starts is not shown. -/
structure Agrees (row other : Row) : Prop where
  offset : row.offset = other.offset
  line : row.line = other.line
  content : row.content.Agrees other.content

/-- The columns of a row, with the blanks between them. -/
theorem toList_text (row : Row) :
    row.text.toList = (Text.zeroPadded 4 row.offset).toList ++
      ' ' :: ((Text.alignRight 4 ' ' row.line.symbol).toList ++ ' ' :: row.content.text.toList) := by
  simp only [text, LineMark.text_eq, String.toList_append, List.append_assoc, String.reduceToList,
    List.cons_append, List.nil_append]

theorem text_eq_iff {row other : Row} : row.text = other.text ↔ row.Agrees other := by
  constructor
  · intro h
    have hTexts := congrArg String.toList h
    rw [toList_text, toList_text] at hTexts
    obtain ⟨hOffset, hTexts⟩ := Text.unambiguous_zeroPadded (by decide) (Text.ends_cons _)
      (Text.ends_cons _) hTexts
    obtain ⟨hLine, hTexts⟩ := LineMark.unambiguous_column (Text.ends_cons _) (Text.ends_cons _)
      (List.cons.inj hTexts).2
    have hContent := String.toList_inj.mp (List.cons.inj hTexts).2
    exact ⟨hOffset, hLine, RowContent.text_eq_iff.mp hContent⟩
  · rintro ⟨hOffset, hLine, hContent⟩
    rw [text, text, hOffset, hLine, RowContent.text_eq_iff.mpr hContent]

theorem lineBreak_not_mem_text (row : Row) : '\n' ∉ row.text.toList := by
  have hOffset : '\n' ∉ (Text.zeroPadded 4 row.offset).toList :=
    Text.not_mem_zeroPadded rfl (by decide) row.offset
  have hLine : '\n' ∉ row.line.symbol.toList := by
    cases row.line with
    | line number => exact Text.not_mem_toString rfl number
    | continued | unknown => simp [LineMark.symbol]
  have hColumn : '\n' ∉ (Text.alignRight 4 ' ' row.line.symbol).toList :=
    Text.not_mem_alignRight (by decide) hLine 4
  rw [toList_text]
  simp only [List.mem_append, List.mem_cons, not_or]
  exact ⟨hOffset, by decide, hColumn, by decide, row.content.lineBreak_not_mem_text⟩

end Row

/-- The bytes of a row that is not cut off can be told from what is shown of it. -/
theorem Row.Agrees.encode_eq {row other : Row} (h : row.Agrees other)
    (hWhole : ∀ opcode, row.content ≠ .truncated opcode) (code otherCode : List UInt8) :
    row.encode code = other.encode otherCode := by
  have hContent := h.content
  unfold Row.encode
  cases hRow : row.content with
  | truncated opcode => exact absurd hRow (hWhole opcode)
  | simple | constant | unknown =>
      rw [hRow] at hContent
      generalize other.content = content at hContent
      cases hContent
      rfl

namespace Listing

/-- A listing is its heading and one line for each row. -/
theorem toList_text (chunk : Chunk) (name : String) :
    (text chunk name).toList = ("== " ++ name ++ " ==\n").toList ++
      ((rows chunk).toList.map fun row => row.text.toList).flatMap (· ++ ['\n']) := by
  have hRows (listed : List Row) (above : String) :
      (listed.foldl (fun above row => above ++ row.text ++ "\n") above).toList =
        above.toList ++ (listed.map fun row => row.text.toList).flatMap (· ++ ['\n']) := by
    induction listed generalizing above with
    | nil => simp
    | cons row rest ih => simp [ih]
  rw [text, ← Array.foldl_toList, hRows]

/-- The rows of a listing can be told from its text, up to what is not shown of them. -/
theorem text_eq_iff {first second : Chunk} {name : String} :
    text first name = text second name ↔
      List.Forall₂ Row.Agrees (rows first).toList (rows second).toList := by
  have hTexts : text first name = text second name ↔
      ((rows first).toList.map fun row => row.text.toList) =
        (rows second).toList.map fun row => row.text.toList := by
    have hLines (chunk : Chunk) : ∀ line ∈ (rows chunk).toList.map fun row => row.text.toList,
        '\n' ∉ line := by
      rw [List.forall_mem_map]
      exact fun row _ => row.lineBreak_not_mem_text
    rw [← String.toList_inj, toList_text, toList_text, List.append_cancel_left_eq]
    exact ⟨Text.lines_eq (hLines first) (hLines second), fun h => by rw [h]⟩
  rw [hTexts, ← List.forall₂_eq_eq_eq, List.forall₂_map_left_iff, List.forall₂_map_right_iff]
  simp only [String.toList_inj, Row.text_eq_iff]

/-- The listings of two chunks end with the same opcode at the same offset, cut off inside its
operand, and up to this opcode the codes are the same. -/
def CutAlike (first second : Chunk) : Prop :=
  ∃ (last other : Row) (opcode : Opcode),
    (rows first).toList.getLast? = some last ∧ (rows second).toList.getLast? = some other ∧
    last.content = .truncated opcode ∧ other.content = .truncated opcode ∧
    last.offset = other.offset ∧
    first.code.toList.take (last.offset + 1) = second.code.toList.take (last.offset + 1)

/-- Of an instruction that is cut off, the opcode follows the bytes of the rows above. -/
theorem take_of_last_cut {chunk : Chunk} {above : List Row} {last : Row} {opcode : Opcode}
    (hRows : (rows chunk).toList = above ++ [last]) (hCut : last.content = .truncated opcode) :
    chunk.code.toList.take (last.offset + 1) =
      above.flatMap (Row.encode chunk.code.toList) ++ [opcode.byte] := by
  have hMem : last ∈ (rows chunk).toList := by simp [hRows]
  obtain ⟨mark, hPlain⟩ := at?_of_mem_rowsBelow hMem
  have hInside : last.offset < chunk.code.toList.length := Row.lt_size_of_at? hPlain
  have hCode := flatMap_encode_rowsBelow chunk none 0
  have hLast : last.encode chunk.code.toList =
      opcode.byte :: chunk.code.toList.drop (last.offset + 1) := by
    rw [Row.encode, hCut]
  rw [← toList_rows, hRows, List.flatMap_append, List.flatMap_singleton, hLast, List.drop_zero]
    at hCode
  have hLength := congrArg List.length hCode
  rw [List.length_append, List.length_cons, List.length_drop] at hLength
  have hPrefix : above.flatMap (Row.encode chunk.code.toList) ++ [opcode.byte] <+:
      chunk.code.toList := by
    refine ⟨chunk.code.toList.drop (last.offset + 1), ?_⟩
    rw [List.append_assoc, List.singleton_append, hCode]
  have hOffset : (above.flatMap (Row.encode chunk.code.toList) ++ [opcode.byte]).length =
      last.offset + 1 := by
    rw [List.length_append, List.length_singleton]
    omega
  rw [← hOffset]
  exact (List.prefix_iff_eq_take.mp hPrefix).symm

/-- Agreeing rows without a cut operand stand for the same bytes. -/
theorem flatMap_encode_eq {above others : List Row} (h : List.Forall₂ Row.Agrees above others)
    (hWhole : ∀ row ∈ above, ∀ opcode, row.content ≠ .truncated opcode)
    (code otherCode : List UInt8) :
    above.flatMap (Row.encode code) = others.flatMap (Row.encode otherCode) := by
  induction h with
  | nil => rfl
  | cons hRow _ ih =>
      rw [List.forall_mem_cons] at hWhole
      rw [List.flatMap_cons, List.flatMap_cons, hRow.encode_eq hWhole.1 code otherCode,
        ih hWhole.2]

/-- Only the last row can be cut off. -/
theorem whole_of_rows {chunk : Chunk} {above : List Row} {last : Row}
    (hRows : (rows chunk).toList = above ++ [last]) :
    ∀ row ∈ above, ∀ opcode, row.content ≠ .truncated opcode := by
  intro row hRow opcode hCut
  obtain ⟨front, back, rfl⟩ := List.append_of_mem hRow
  have hMem : row ∈ (rows chunk).toList := by simp [hRows]
  obtain ⟨mark, hPlain⟩ := at?_of_mem_rowsBelow hMem
  have hTiles := tiles_rows chunk
  rw [hRows, List.append_assoc, List.cons_append] at hTiles
  have hNone := hTiles.last_of_next_eq (at?_truncated hPlain hCut).1
  simp at hNone

/-- Rows that are shown alike have the same bytes, but for what is left of a cut-off operand. -/
theorem code_eq_or_cutAlike {first second : Chunk}
    (h : List.Forall₂ Row.Agrees (rows first).toList (rows second).toList) :
    first.code.toList = second.code.toList ∨ CutAlike first second := by
  have hFirst := flatMap_encode_rowsBelow first none 0
  have hSecond := flatMap_encode_rowsBelow second none 0
  rw [← toList_rows, List.drop_zero] at hFirst hSecond
  rcases List.eq_nil_or_concat (rows first).toList with hNil | ⟨above, last, hRows⟩
  · rw [hNil, List.forall₂_nil_left_iff] at h
    rw [← hFirst, ← hSecond, hNil, h]
    exact .inl rfl
  · rw [List.concat_eq_append] at hRows
    have hReverse := List.forall₂_reverse_iff.mpr h
    rw [hRows, List.reverse_append, List.reverse_singleton, List.singleton_append,
      List.forall₂_cons_left_iff] at hReverse
    obtain ⟨other, others, hLast, hAbove, hOthers⟩ := hReverse
    have hOtherRows : (rows second).toList = others.reverse ++ [other] := by
      rw [← List.reverse_cons, ← hOthers, List.reverse_reverse]
    rw [← List.forall₂_reverse_iff, List.reverse_reverse] at hAbove
    have hBytes := flatMap_encode_eq hAbove (whole_of_rows hRows) first.code.toList
      second.code.toList
    by_cases hCut : ∃ opcode, last.content = .truncated opcode
    · obtain ⟨opcode, hCut⟩ := hCut
      have hOtherCut : other.content = .truncated opcode := by
        have hContent := hLast.content
        rw [hCut] at hContent
        generalize other.content = content at hContent
        cases hContent
        rfl
      refine .inr ⟨last, other, opcode, by simp [hRows], by simp [hOtherRows], hCut, hOtherCut,
        hLast.offset, ?_⟩
      rw [take_of_last_cut hRows hCut, hLast.offset, take_of_last_cut hOtherRows hOtherCut, hBytes]
    · left
      rw [← hFirst, ← hSecond, hRows, hOtherRows, List.flatMap_append, List.flatMap_append, hBytes,
        List.flatMap_singleton, List.flatMap_singleton,
        hLast.encode_eq (not_exists.mp hCut) first.code.toList second.code.toList]

/-- The marks of rows that are shown alike tell the same lines. -/
theorem lines_eq_of_agrees {first second : Chunk} (hFirst : first.Reachable)
    (hSecond : second.Reachable)
    (h : List.Forall₂ Row.Agrees (rows first).toList (rows second).toList) :
    ∀ row ∈ (rows first).toList, first.lineAt? row.offset = second.lineAt? row.offset := by
  have hMap {β : Type} (field : Row → β) (hField : ∀ row other : Row, row.Agrees other →
      field row = field other) :
      (rows first).toList.map field = (rows second).toList.map field := by
    rw [← List.forall₂_eq_eq_eq, List.forall₂_map_left_iff, List.forall₂_map_right_iff]
    exact h.imp hField
  have hMarks := resolve_rowsBelow hFirst.inStep none 0
  have hOtherMarks := resolve_rowsBelow hSecond.inStep none 0
  rw [← toList_rows, hMap Row.line fun _ _ => Row.Agrees.line] at hMarks
  rw [← toList_rows, hMarks] at hOtherMarks
  have hOffsets := congrArg (List.map second.lineAt?)
    (hMap Row.offset fun _ _ => Row.Agrees.offset)
  rw [List.map_map, List.map_map] at hOffsets
  exact List.map_inj_left.mp (hOtherMarks.trans hOffsets.symm)

/-- The text of a listing is unambiguous. The text of a row, whatever its columns are, tells
everything but where the next row starts, and of a constant it tells the text or that there is
none. A row is a single line, so the texts of two listings under one name are equal exactly if
the listings have as many rows and these are shown alike. The chunks then have the same code,
except for the bytes of an operand that is cut off at the end of both, and all their instructions
start in the same lines. -/
theorem text_tells_rows :
    (∀ row other : Row, row.text = other.text ↔ row.Agrees other) ∧
    (∀ row : Row, '\n' ∉ row.text.toList) ∧
    (∀ (first second : Chunk) (name : String), text first name = text second name ↔
      List.Forall₂ Row.Agrees (rows first).toList (rows second).toList) ∧
    ∀ (first second : Chunk) (name : String), text first name = text second name →
      (first.code.toList = second.code.toList ∨ CutAlike first second) ∧
      (first.Reachable → second.Reachable → ∀ row ∈ (rows first).toList,
        first.lineAt? row.offset = second.lineAt? row.offset) := by
  refine ⟨fun _ _ => Row.text_eq_iff, Row.lineBreak_not_mem_text, fun _ _ _ => text_eq_iff,
    fun first second name h => ?_⟩
  have hRows := text_eq_iff.mp h
  exact ⟨code_eq_or_cutAlike hRows, fun hFirst hSecond => lines_eq_of_agrees hFirst hSecond hRows⟩

/-- A constant is loaded in line 7, and in line 8 a load begins that is cut off. -/
def severedLoad (value : Value) (operand : List UInt8) : Chunk :=
  Chunk.empty.afterSteps .standard
    ([.addConstant value, .writeOpcode .constant 7, .write 0 7, .writeOpcode .constantLong 8] ++
      operand.map fun byte => .write byte 9)

/-- One and the next larger double have the same text, and of a cut-off operand nothing is shown. -/
theorem text_of_severed_loads :
    let first := severedLoad (.number (Float.ofBits 0x3ff0000000000000)) [5]
    let second := severedLoad (.number (Float.ofBits 0x3ff0000000000001)) [6, 7]
    first.Reachable ∧ second.Reachable ∧ text first "twins" = text second "twins" ∧
      first.code.toList ≠ second.code.toList ∧ CutAlike first second ∧
      ∀ row ∈ (rows first).toList, first.lineAt? row.offset = second.lineAt? row.offset := by
  intro first second
  have hFirst : first.Reachable := Chunk.Reaches.afterSteps .start .standard fun _ _ => trivial
  have hSecond : second.Reachable := Chunk.Reaches.afterSteps .start .standard fun _ _ => trivial
  have hRows (value : Value) : (rows (severedLoad value [5])).toList =
      [⟨0, .line 7, .constant .constant 0 (some value), 2⟩,
        ⟨2, .line 8, .truncated .constantLong, 4⟩] := by cbv
  have hOtherRows (value : Value) : (rows (severedLoad value [6, 7])).toList =
      [⟨0, .line 7, .constant .constant 0 (some value), 2⟩,
        ⟨2, .line 8, .truncated .constantLong, 5⟩] := by cbv
  have hCode (value other : Value) :
      (severedLoad value [5]).code.toList ≠ (severedLoad other [6, 7]).code.toList := by
    have hBytes : (severedLoad value [5]).code.toList = [0, 0, 2, 5] := by cbv
    have hOtherBytes : (severedLoad other [6, 7]).code.toList = [0, 0, 2, 6, 7] := by cbv
    rw [hBytes, hOtherBytes]
    decide
  have hDisplay : (Value.number (Float.ofBits 0x3ff0000000000000)).display =
      (Value.number (Float.ofBits 0x3ff0000000000001)).display := by
    decide +kernel
  obtain ⟨-, -, hTexts, hTold⟩ := text_tells_rows
  have hSame : text first "twins" = text second "twins" := by
    rw [hTexts, hRows, hOtherRows]
    exact .cons ⟨rfl, rfl, .constant _ _ (congrArg some hDisplay)⟩
      (.cons ⟨rfl, rfl, .truncated _⟩ .nil)
  obtain ⟨hCodes, hLines⟩ := hTold first second "twins" hSame
  exact ⟨hFirst, hSecond, hSame, hCode _ _, hCodes.resolve_left (hCode _ _),
    hLines hFirst hSecond⟩

end Listing

end StackMachine
