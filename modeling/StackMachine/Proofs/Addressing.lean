import StackMachine.Proofs.Reservations
import StackMachine.Proofs.Rows

/-! Offsets in machine words. A lookup at an offset adds to it without a check. No sum wraps around
if the code is small enough for a word, because nothing is added before a byte has been found, and
an offset without a byte is past the end. -/
namespace StackMachine

open Buffer.Words (sum? toNat_sum?)

/-- The bytes of an operand with the end of the window computed in a word, or `none` if the
computation wraps around. -/
def Operand.windowInWords? (code : Array UInt8) (start : UInt64) (width : Nat) :
    Option (Option (List UInt8)) :=
  (sum? start (.ofNat width)).map fun stop =>
    if stop.toNat ≤ code.size then some (code.extract start.toNat stop.toNat).toList else none

/-- An instruction at an offset that is a word, or `none` if the computation wraps around. -/
def Instruction.decodeInWords? (code : Array UInt8) (offset : UInt64) :
    Option (Except DecodeError Instruction) :=
  match code[offset.toNat]? with
  | none => some (.error .endOfCode)
  | some byte =>
    match Opcode.ofByte? byte with
    | none => some (.error (.unknown byte))
    | some opcode =>
      if opcode.operandWidth = 0 then some (.ok ⟨opcode, none⟩)
      else do
        let start ← sum? offset 1
        match ← Operand.windowInWords? code start opcode.operandWidth with
        | none => some (.error (.truncated opcode))
        | some bytes => some (.ok ⟨opcode, some (Operand.read bytes)⟩)

/-- A row at an offset that is a word, or `none` if the computation wraps around. -/
def Row.atInWords? (chunk : Chunk) (offset : UInt64) : Option (Option Row) :=
  let mark := lineMark chunk offset.toNat
  (Instruction.decodeInWords? chunk.code.toArray offset).bind fun
  | .ok i =>
    (sum? offset (.ofNat i.width)).map fun next =>
      some ⟨offset.toNat, mark, contentOf chunk i, next.toNat⟩
  | .error (.unknown byte) =>
    (sum? offset 1).map fun next => some ⟨offset.toNat, mark, .unknown byte, next.toNat⟩
  | .error (.truncated opcode) =>
    some (some ⟨offset.toNat, mark, .truncated opcode, chunk.size⟩)
  | .error .endOfCode => some none

/-- A size that fits a machine word survives the way through one. -/
theorem toNat_ofNat_of_le_maxWord {n : Nat} (h : n ≤ maxWord) : (UInt64.ofNat n).toNat = n :=
  UInt64.toNat_ofNat_of_lt (Nat.lt_succ_of_le h)

/-- A sum that a word can hold does not wrap around. -/
theorem exists_sum? {offset : UInt64} {n : Nat} (h : offset.toNat + n ≤ maxWord) :
    ∃ total, sum? offset (.ofNat n) = some total ∧ total.toNat = offset.toNat + n := by
  have hSum := toNat_sum? offset (.ofNat n)
  rw [toNat_ofNat_of_le_maxWord ((Nat.le_add_left n _).trans h), if_pos h] at hSum
  exact Option.map_eq_some_iff.mp hSum

/-- Where the end of a window fits a word, its word arithmetic finds the same bytes. -/
theorem Operand.windowInWords?_eq {start : UInt64} {width : Nat}
    (h : start.toNat + width ≤ maxWord) (code : Array UInt8) :
    windowInWords? code start width = some (window? code start.toNat width) := by
  obtain ⟨stop, hStop, hToNat⟩ := exists_sum? h
  rw [windowInWords?, hStop, Option.map_some, hToNat, window?]

/-- An operand is looked up by a pointer that is inside the code or at its end. -/
theorem Operand.windowInWords?_ofNat {code : Array UInt8} (hSize : code.size < 2 ^ 63) {ip : Nat}
    (hInside : ip ≤ code.size) (opcode : Opcode) :
    windowInWords? code (.ofNat ip) opcode.operandWidth =
      some (window? code ip opcode.operandWidth) := by
  have hWidth := Instruction.operandWidth_le opcode
  have hWord := Buffer.Words.maxWord_eq
  have hToNat : (UInt64.ofNat ip).toNat = ip := toNat_ofNat_of_le_maxWord (by omega)
  have hFits : (UInt64.ofNat ip).toNat + opcode.operandWidth ≤ maxWord := by omega
  rw [windowInWords?_eq hFits, hToNat]

namespace Instruction

section Small

variable {code : Array UInt8} (hSize : code.size < 2 ^ 63) {offset : UInt64}
  (hInside : offset.toNat < code.size)

include hSize hInside

/-- Behind a byte there is room for the operand of an opcode. -/
theorem end_le_maxWord (opcode : Opcode) :
    offset.toNat + 1 + opcode.operandWidth ≤ maxWord := by
  have hWidth := operandWidth_le opcode
  have hWord := Buffer.Words.maxWord_eq
  omega

theorem exists_next : ∃ next, sum? offset 1 = some next ∧ next.toNat = offset.toNat + 1 :=
  exists_sum? (end_le_maxWord hSize hInside .ret)

end Small

/-- Only past the end is there nothing to decode. -/
theorem decode_eq_endOfCode_iff {code : Array UInt8} {offset : Nat} :
    decode code offset = .error .endOfCode ↔ code.size ≤ offset := by
  constructor
  · intro hEnd
    exact Nat.le_of_not_lt fun hInside => decode_ne_endOfCode hInside hEnd
  · intro hPast
    by_contra hFound
    exact absurd (lt_size_of_decode_ne_endOfCode hFound) (Nat.not_lt_of_le hPast)

/-- Decoding at a word is decoding. -/
theorem decodeInWords?_eq {code : Array UInt8} (hSize : code.size < 2 ^ 63) (offset : UInt64) :
    decodeInWords? code offset = some (decode code offset.toNat) := by
  unfold decodeInWords? decode
  cases hByte : code[offset.toNat]? with
  | none => rfl
  | some byte =>
      have hInside : offset.toNat < code.size := (Array.getElem?_eq_some_iff.mp hByte).1
      simp only
      cases Opcode.ofByte? byte with
      | none => rfl
      | some opcode =>
          obtain ⟨start, hStart, hToNat⟩ := exists_next hSize hInside
          have hEnd : start.toNat + opcode.operandWidth ≤ maxWord := by
            rw [hToNat]
            exact end_le_maxWord hSize hInside opcode
          have hWindow := Operand.windowInWords?_eq hEnd code
          rw [hToNat] at hWindow
          simp only [Option.bind_eq_bind, hStart, Option.bind_some, hWindow]
          split
          · rfl
          · cases Operand.window? code (offset.toNat + 1) opcode.operandWidth <;> rfl

end Instruction

/-- A row at a word is the row at its offset. -/
theorem Row.atInWords?_eq {chunk : Chunk} (hSize : chunk.size < 2 ^ 63) (offset : UInt64) :
    atInWords? chunk offset = some (at? chunk offset.toNat) := by
  have hDecode : Instruction.decodeInWords? chunk.code.toArray offset =
      some (Instruction.decode chunk.code.toArray offset.toNat) :=
    Instruction.decodeInWords?_eq hSize offset
  simp only [atInWords?, at?, hDecode, Option.bind_some]
  cases hFound : Instruction.decode chunk.code.toArray offset.toNat with
  | ok i =>
      have hEnd : offset.toNat + i.width ≤ chunk.size := Instruction.end_le_of_decode hFound
      have hWord : chunk.size ≤ maxWord := hSize.le.trans (by decide)
      obtain ⟨next, hNext, hToNat⟩ := exists_sum? (hEnd.trans hWord)
      simp only [hNext, Option.map_some, hToNat]
  | error reason =>
      cases reason with
      | unknown byte =>
          have hFull : Instruction.decode chunk.code.toArray offset.toNat ≠
              .error .endOfCode := by
            rw [hFound]
            simp
          have hInside := Instruction.lt_size_of_decode_ne_endOfCode hFull
          obtain ⟨next, hNext, hToNat⟩ := Instruction.exists_next hSize hInside
          simp only [hNext, Option.map_some, hToNat]
      | truncated opcode => rfl
      | endOfCode => rfl

end StackMachine
