import Mathlib.Algebra.GroupWithZero.Nat
import StackMachine.Operand

/-! Operands are positional numbers in base 256, read modulo the 32-bit word. Reading and
writing undo each other at every width of at most four bytes. -/
namespace StackMachine.Operand

/-- The positional number, without the limit of a word. -/
def value : List UInt8 → Nat
  | [] => 0
  | byte :: rest => byte.toNat + 256 * value rest

/-- Bytes count below the power of their number. -/
theorem value_lt (bytes : List UInt8) : value bytes < 256 ^ bytes.length := by
  induction bytes with
  | nil => simp [value]
  | cons byte rest ih =>
      have hByte := byte.toNat_lt
      simp only [value, List.length_cons, Nat.pow_succ]
      omega

/-- One more low byte: the high part is shifted, and its lost bits are those beyond the word. -/
theorem toNat_shiftLeft_or (high : UInt32) (byte : UInt8) :
    ((high <<< 8) ||| byte.toUInt32).toNat = (byte.toNat + 256 * high.toNat) % 2 ^ 32 := by
  have hByte : byte.toNat < 2 ^ 8 := byte.toNat_lt
  have hShift : high.toNat <<< 8 % 2 ^ 32 = 2 ^ 8 * (high.toNat % 2 ^ 24) := by
    rw [Nat.shiftLeft_eq, Nat.mul_comm]
    exact Nat.mul_mod_mul_left (2 ^ 8) high.toNat (2 ^ 24)
  have hLow : (8 : UInt32).toNat % 32 = 8 := rfl
  rw [UInt32.toNat_or, UInt32.toNat_shiftLeft, UInt8.toNat_toUInt32, hLow, hShift,
    ← Nat.two_pow_add_eq_or_of_lt hByte]
  omega

/-- Reading counts up to the width of a word. -/
theorem toNat_read (bytes : List UInt8) : (read bytes).toNat = value bytes % 2 ^ 32 := by
  induction bytes with
  | nil => rfl
  | cons byte rest ih =>
      rw [read, List.foldr_cons, toNat_shiftLeft_or, ← read, ih, value]
      omega

theorem toNat_read_of_length_le {bytes : List UInt8} (hLength : bytes.length ≤ 4) :
    (read bytes).toNat = value bytes := by
  have hPower : 256 ^ bytes.length ≤ 256 ^ 4 := Nat.pow_le_pow_right (by decide) hLength
  rw [toNat_read, Nat.mod_eq_of_lt]
  exact Nat.lt_of_lt_of_le (value_lt bytes) hPower

theorem toNat_shiftRight (n : UInt32) : (n >>> 8).toNat = n.toNat / 256 := by
  rw [UInt32.toNat_shiftRight]
  exact Nat.shiftRight_eq_div_pow n.toNat 8

theorem value_write (width : Nat) (n : UInt32) :
    value (write width n) = n.toNat % 256 ^ width := by
  induction width generalizing n with
  | zero => simp [write, value, Nat.mod_one]
  | succ width ih =>
      rw [write, value, ih, toNat_shiftRight, UInt32.toNat_toUInt8, Nat.pow_succ' (m := 256)]
      exact Nat.mod_mul.symm

/-- An operand that fits its width is read back as it was written. -/
theorem read_write {width : Nat} {n : UInt32} (hWidth : width ≤ 4)
    (hFits : n.toNat < 256 ^ width) : read (write width n) = n := by
  apply UInt32.toNat_inj.mp
  rw [toNat_read_of_length_le (by simpa using hWidth), value_write, Nat.mod_eq_of_lt hFits]

theorem write_of_toNat_eq_value {bytes : List UInt8} {n : UInt32}
    (h : n.toNat = value bytes) : write bytes.length n = bytes := by
  induction bytes generalizing n with
  | nil => rfl
  | cons byte rest ih =>
      have hByte : byte.toNat < 256 := byte.toNat_lt
      rw [value] at h
      have hHead : n.toUInt8 = byte := by
        apply UInt8.toNat_inj.mp
        rw [UInt32.toNat_toUInt8]
        omega
      have hRest : (n >>> 8).toNat = value rest := by
        rw [toNat_shiftRight]
        omega
      rw [List.length_cons, write, hHead, ih hRest]

/-- The bytes of an operand are written again from what was read. -/
theorem write_read {bytes : List UInt8} (hLength : bytes.length ≤ 4) :
    write bytes.length (read bytes) = bytes :=
  write_of_toNat_eq_value (toNat_read_of_length_le hLength)

/-- The bytes behind count for as much as their place. -/
theorem value_append (low high : List UInt8) :
    value (low ++ high) = value low + 256 ^ low.length * value high := by
  induction low with
  | nil => simp [value]
  | cons byte rest ih =>
      simp only [List.cons_append, value, ih, List.length_cons, Nat.pow_succ', Nat.mul_assoc]
      omega

theorem value_replicate_zero (count : Nat) : value (List.replicate count 0) = 0 := by
  induction count with
  | zero => rfl
  | succ count ih =>
      rw [List.replicate_succ, value, ih]
      rfl

/-- The positional number as a sum over the bytes. The first of them may stand at any place. -/
theorem sum_mapIdx_eq_value (bytes : List UInt8) (place : Nat) :
    (bytes.mapIdx fun i byte => byte.toNat * 256 ^ (i + place)).sum =
      256 ^ place * value bytes := by
  induction bytes generalizing place with
  | nil => rfl
  | cons byte rest ih =>
      have hRest : (rest.mapIdx fun i byte => byte.toNat * 256 ^ (i + 1 + place)).sum =
          256 ^ place * (256 * value rest) := by
        rw [← Nat.mul_assoc, ← Nat.pow_succ, ← ih (place + 1)]
        simp only [Nat.add_assoc, Nat.add_comm 1 place]
      rw [List.mapIdx_cons, List.sum_cons, hRest, value, Nat.zero_add, Nat.mul_comm, Nat.mul_add]

/-- The byte at a place is the digit in base 256 there. -/
theorem write_eq_digits (width : Nat) (n : UInt32) :
    write width n = (List.range width).map fun i => UInt8.ofNat (n.toNat / 256 ^ i) := by
  induction width generalizing n with
  | zero => rfl
  | succ width ih =>
      rw [write, ih, List.range_succ_eq_map, List.map_cons, List.map_map, toNat_shiftRight]
      congr 1
      · simp
      · refine List.map_congr_left fun i _ => ?_
        simp only [Function.comp_apply, Nat.div_div_eq_div_mul, Nat.pow_succ']

/-- The first bytes of a wider form are the narrower one. -/
theorem take_write {width wider : Nat} (h : width ≤ wider) (n : UInt32) :
    (write wider n).take width = write width n := by
  rw [write_eq_digits, write_eq_digits, ← List.map_take, List.take_range, Nat.min_eq_left h]

/-- Bytes beyond a word are multiples of what a word can hold. -/
theorem read_take_four (bytes : List UInt8) : read (bytes.take 4) = read bytes := by
  apply UInt32.toNat_inj.mp
  rcases Nat.le_total bytes.length 4 with hShort | hLong
  · rw [List.take_of_length_le hShort]
  · have hValue := value_append (bytes.take 4) (bytes.drop 4)
    rw [List.take_append_drop, List.length_take_of_le hLong] at hValue
    rw [toNat_read, toNat_read, hValue]
    exact (Nat.add_mul_mod_self_left _ (256 ^ 4) _).symm

/-- Zeros at the most significant end are not seen. -/
theorem read_append_zeros (bytes : List UInt8) (count : Nat) :
    read (bytes ++ List.replicate count 0) = read bytes := by
  apply UInt32.toNat_inj.mp
  rw [toNat_read, toNat_read, value_append, value_replicate_zero, Nat.mul_zero, Nat.add_zero]

theorem toNat_read_write {width : Nat} (hWidth : width ≤ 4) (n : UInt32) :
    (read (write width n)).toNat = n.toNat % 256 ^ width := by
  rw [toNat_read_of_length_le (by rwa [length_write]), value_write]

/-- A window is the part of the code that follows its start, and is granted only if it is
complete. -/
theorem window?_eq_some_iff {code : Array UInt8} {start width : Nat} {bytes : List UInt8} :
    window? code start width = some bytes ↔
      start + width ≤ code.size ∧ bytes = (code.toList.drop start).take width := by
  have hBytes : (code.extract start (start + width)).toList =
      (code.toList.drop start).take width := by
    rw [Array.toList_extract, List.extract_eq_take_drop, Nat.add_sub_cancel_left]
  unfold window?
  by_cases hEnd : start + width ≤ code.size
  · rw [if_pos hEnd, hBytes, Option.some_inj]
    exact ⟨fun h => ⟨hEnd, h.symm⟩, fun h => h.2.symm⟩
  · rw [if_neg hEnd]
    exact ⟨nofun, fun h => absurd h.1 hEnd⟩

/-- A window is missing exactly when it reaches behind the code. -/
theorem window?_eq_none_iff {code : Array UInt8} {start width : Nat} :
    window? code start width = none ↔ code.size < start + width := by
  unfold window?
  by_cases hEnd : start + width ≤ code.size
  · simp [hEnd]
  · simp [hEnd, Nat.lt_of_not_le hEnd]

/-- Operands of any length are read as positional numbers in base 256, modulo the word. So the bytes
beyond the fourth do not matter, and neither do zeros at the end. The form that is written has the
digits of the number as its bytes, and the first bytes of the form of a whole word are read as the
number modulo their own range, which is the number itself if it lies in that range. -/
theorem read_is_positional :
    (∀ bytes : List UInt8, (read bytes).toNat =
      (bytes.mapIdx fun i byte => byte.toNat * 256 ^ i).sum % 2 ^ 32) ∧
    (∀ bytes, read (bytes.take 4) = read bytes) ∧
    (∀ bytes count, read (bytes ++ List.replicate count 0) = read bytes) ∧
    (∀ (n : UInt32) (width : Nat),
      write width n = (List.range width).map fun i => UInt8.ofNat (n.toNat / 256 ^ i)) ∧
    ∀ (n : UInt32) (width : Nat), width ≤ 4 →
      (read ((write 4 n).take width)).toNat = n.toNat % 256 ^ width ∧
        (n.toNat < 256 ^ width → read ((write 4 n).take width) = n) := by
  refine ⟨fun bytes => ?_, read_take_four, read_append_zeros,
    fun n width => write_eq_digits width n, fun n width hWidth => ?_⟩
  · have hSum := sum_mapIdx_eq_value bytes 0
    rw [Nat.pow_zero, Nat.one_mul] at hSum
    rw [toNat_read, ← hSum]
    rfl
  · rw [take_write hWidth]
    exact ⟨toNat_read_write hWidth n, read_write hWidth⟩

/-- A fifth byte is shifted out. Of a word in four bytes the lowest three are read as its rest, and
of a number that fits three bytes they are all of it. -/
theorem read_of_lowest_three :
    read [1, 2, 3, 4, 5] = read [1, 2, 3, 4] ∧
    (3 ≤ 4 ∧ (read ((write 4 0x04030201).take 3)).toNat = 0x030201) ∧
    (UInt32.toNat 0x030201 < 256 ^ 3 ∧ read [1, 2, 3] = 0x030201) := by
  obtain ⟨-, hFour, -, -, hLowest⟩ := read_is_positional
  exact ⟨(hFour [1, 2, 3, 4, 5]).symm, ⟨by decide, (hLowest 0x04030201 3 (by decide)).1⟩,
    ⟨by decide, (hLowest 0x030201 3 (by decide)).2 (by decide)⟩⟩

end StackMachine.Operand
