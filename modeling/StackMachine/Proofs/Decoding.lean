import StackMachine.Instruction
import StackMachine.Proofs.Operands

/-! Decoding undoes encoding. An instruction is decoded at an offset exactly when the code
carries its encoding there, so the bytes of an instruction list determine the list. -/
namespace StackMachine

section Carries

variable {α : Type} {items : Array α} {offset : Nat}

/-- The items continue with `expected` at an offset. Nothing is said about what follows. -/
def Carries (items : Array α) (offset : Nat) (expected : List α) : Prop :=
  expected <+: items.toList.drop offset

theorem carries_of_toList_eq {expected : List α} (h : items.toList = expected) :
    Carries items 0 expected := by
  rw [← h]
  exact List.prefix_rfl

/-- A text stands in the items when its first part does and its second behind it. -/
theorem carries_append_iff {first second : List α} :
    Carries items offset (first ++ second) ↔
      Carries items offset first ∧ Carries items (offset + first.length) second := by
  unfold Carries
  rw [← List.drop_drop]
  constructor
  · rintro ⟨tail, hTail⟩
    rw [← hTail, List.append_assoc]
    exact ⟨List.prefix_append _ _, by simp⟩
  · rintro ⟨⟨tail, hTail⟩, hSecond⟩
    rw [← hTail, List.drop_left] at hSecond
    rw [← hTail]
    exact (List.prefix_append_right_inj first).mpr hSecond

theorem carries_of_toList_eq_append {front back : List α} (h : items.toList = front ++ back) :
    Carries items front.length back := by
  rw [← Nat.zero_add front.length]
  exact (carries_append_iff.mp (carries_of_toList_eq h)).2

theorem carries_cons_iff {item : α} {rest : List α} :
    Carries items offset (item :: rest) ↔
      items[offset]? = some item ∧ Carries items (offset + 1) rest := by
  have hHead : Carries items offset [item] ↔ items[offset]? = some item := by
    unfold Carries
    rw [← Array.getElem?_toList, ← List.head?_drop]
    cases items.toList.drop offset with
    | nil => simp
    | cons first tail => simp [eq_comm]
  rw [← hHead]
  change Carries items offset ([item] ++ rest) ↔
    Carries items offset [item] ∧ Carries items (offset + [item].length) rest
  exact carries_append_iff

/-- What is carried from inside the items ends inside them. -/
theorem Carries.end_le {expected : List α} (h : Carries items offset expected)
    (hInside : offset ≤ items.size) : offset + expected.length ≤ items.size := by
  have hLength := h.length_le
  rw [List.length_drop, items.length_toList] at hLength
  omega

theorem Carries.getElem?_add {expected : List α} (h : Carries items offset expected) {k : Nat}
    (hInside : k < expected.length) : items[offset + k]? = expected[k]? := by
  rw [← Array.getElem?_toList, ← List.getElem?_drop, List.getElem?_eq_getElem hInside]
  exact List.prefix_iff_getElem?.mp h k hInside

/-- The items up to an offset, followed by those that are carried there. -/
theorem Carries.take_append {expected : List α} (h : Carries items offset expected) :
    items.toList.take (offset + expected.length) =
      items.toList.take offset ++ expected := by
  rw [List.take_add, List.prefix_iff_eq_take.mp h]
  simp

end Carries

/-- Carried bytes are what a window of their length shows. -/
theorem window?_of_carries {code : Array UInt8} {offset : Nat} {bytes : List UInt8}
    (h : Carries code offset bytes) (hInside : offset ≤ code.size) :
    Operand.window? code offset bytes.length = some bytes :=
  Operand.window?_eq_some_iff.mpr ⟨h.end_le hInside, List.prefix_iff_eq_take.mp h⟩

namespace Instruction

/-- An opcode has an operand exactly when operand bytes follow it, and the operand fits them. -/
def WellFormed : Instruction → Prop
  | ⟨opcode, none⟩ => opcode.operandWidth = 0
  | ⟨opcode, some operand⟩ =>
    opcode.operandWidth ≠ 0 ∧ operand.toNat < 256 ^ opcode.operandWidth

instance : DecidablePred WellFormed
  | ⟨opcode, none⟩ => inferInstanceAs (Decidable (opcode.operandWidth = 0))
  | ⟨opcode, some operand⟩ =>
    inferInstanceAs (Decidable (opcode.operandWidth ≠ 0 ∧
      operand.toNat < 256 ^ opcode.operandWidth))

theorem operandWidth_le (opcode : Opcode) : opcode.operandWidth ≤ 4 := by
  cases opcode <;> decide

/-- Whatever is decoded is well-formed, and its encoding stands in the code. -/
theorem carries_of_decode {code : Array UInt8} {offset : Nat} {i : Instruction}
    (h : decode code offset = .ok i) : i.WellFormed ∧ Carries code offset i.encode := by
  unfold decode at h
  cases hByte : code[offset]? with
  | none => simp [hByte] at h
  | some byte =>
      cases hOpcode : Opcode.ofByte? byte with
      | none => simp [hByte, hOpcode] at h
      | some opcode =>
          have hHead : code[offset]? = some opcode.byte := by
            rw [hByte, Opcode.byte_of_ofByte? hOpcode]
          by_cases hWidth : opcode.operandWidth = 0
          · simp only [hByte, hOpcode, hWidth, if_true] at h
            cases h
            refine ⟨hWidth, carries_cons_iff.mpr ⟨hHead, ?_⟩⟩
            rw [hWidth]
            exact List.nil_prefix
          · cases hWindow : Operand.window? code (offset + 1) opcode.operandWidth with
            | none => simp [hByte, hOpcode, hWidth, hWindow] at h
            | some bytes =>
                simp only [hByte, hOpcode, hWidth, hWindow, if_false] at h
                cases h
                obtain ⟨hEnd, hBytes⟩ := Operand.window?_eq_some_iff.mp hWindow
                have hLength : bytes.length = opcode.operandWidth := by
                  rw [hBytes, List.length_take, List.length_drop, code.length_toList]
                  omega
                have hSmall : bytes.length ≤ 4 := hLength ▸ operandWidth_le opcode
                refine ⟨⟨hWidth, ?_⟩, carries_cons_iff.mpr ⟨hHead, ?_⟩⟩
                · rw [Operand.toNat_read_of_length_le hSmall, ← hLength]
                  exact Operand.value_lt bytes
                · change Carries code (offset + 1) (Operand.write _ (Operand.read bytes))
                  rw [← hLength, Operand.write_read hSmall, hBytes]
                  exact List.take_prefix _ _

/-- A well-formed instruction is decoded wherever its encoding stands. -/
theorem decode_of_carries {code : Array UInt8} {offset : Nat} {i : Instruction}
    (hForm : i.WellFormed) (h : Carries code offset i.encode) : decode code offset = .ok i := by
  obtain ⟨opcode, operand⟩ := i
  obtain ⟨hHead, hRest⟩ := carries_cons_iff.mp h
  have hInside : offset < code.size := (Array.getElem?_eq_some_iff.mp hHead).1
  have hWindow := window?_of_carries hRest hInside
  rw [Operand.length_write] at hWindow
  cases operand with
  | none =>
      have hWidth : opcode.operandWidth = 0 := hForm
      simp [decode, hHead, hWidth]
  | some n =>
      have hRead : Operand.read (Operand.write opcode.operandWidth n) = n :=
        Operand.read_write (operandWidth_le opcode) hForm.2
      have hWidth : opcode.operandWidth ≠ 0 := hForm.1
      simp only [Option.getD_some] at hWindow
      simp [decode, hHead, hWidth, hWindow, hRead]

/-- An instruction decodes exactly where its well-formed encoding stands. -/
theorem decode_eq_ok_iff {code : Array UInt8} {offset : Nat} {i : Instruction} :
    decode code offset = .ok i ↔ i.WellFormed ∧ Carries code offset i.encode :=
  ⟨carries_of_decode, fun h => decode_of_carries h.1 h.2⟩

/-- A byte is reported as unknown exactly where it stands and is no opcode. -/
theorem decode_eq_unknown_iff {code : Array UInt8} {offset : Nat} {byte : UInt8} :
    decode code offset = .error (.unknown byte) ↔
      code[offset]? = some byte ∧ Opcode.ofByte? byte = none := by
  constructor
  · intro h
    unfold decode at h
    cases hByte : code[offset]? with
    | none => simp [hByte] at h
    | some found =>
        cases hOpcode : Opcode.ofByte? found with
        | none =>
            simp only [hByte, hOpcode] at h
            cases h
            exact ⟨rfl, hOpcode⟩
        | some opcode =>
            simp only [hByte, hOpcode] at h
            repeat' split at h
            all_goals cases h
  · rintro ⟨hByte, hOpcode⟩
    simp only [decode, hByte, hOpcode]

/-- An instruction is reported as truncated exactly if the code ends inside its operand. -/
theorem decode_eq_truncated_iff {code : Array UInt8} {offset : Nat} {opcode : Opcode} :
    decode code offset = .error (.truncated opcode) ↔
      code[offset]? = some opcode.byte ∧ opcode.operandWidth ≠ 0 ∧
        code.size < offset + 1 + opcode.operandWidth := by
  constructor
  · intro h
    unfold decode at h
    cases hByte : code[offset]? with
    | none => simp [hByte] at h
    | some byte =>
        cases hOpcode : Opcode.ofByte? byte with
        | none => simp [hByte, hOpcode] at h
        | some found =>
            by_cases hWidth : found.operandWidth = 0
            · simp [hByte, hOpcode, hWidth] at h
            · cases hWindow : Operand.window? code (offset + 1) found.operandWidth with
              | none =>
                  simp only [hByte, hOpcode, hWidth, hWindow, if_false] at h
                  cases h
                  exact ⟨by rw [Opcode.byte_of_ofByte? hOpcode], hWidth,
                    Operand.window?_eq_none_iff.mp hWindow⟩
              | some bytes => simp [hByte, hOpcode, hWidth, hWindow] at h
  · rintro ⟨hByte, hWidth, hEnd⟩
    have hWindow := Operand.window?_eq_none_iff.mpr hEnd
    simp only [decode, hByte, Opcode.ofByte?_byte, hWidth, hWindow, if_false]

/-- Only the end of the code is reported as such. -/
theorem decode_ne_endOfCode {code : Array UInt8} {offset : Nat} (h : offset < code.size) :
    decode code offset ≠ .error .endOfCode := by
  intro hEnd
  unfold decode at hEnd
  rw [Array.getElem?_eq_getElem h] at hEnd
  repeat' split at hEnd
  all_goals simp_all

def encodeAll (program : List Instruction) : List UInt8 :=
  program.flatMap encode

@[simp] theorem encodeAll_nil : encodeAll [] = [] := rfl

@[simp] theorem encodeAll_cons (i : Instruction) (rest : List Instruction) :
    encodeAll (i :: rest) = i.encode ++ encodeAll rest := rfl

@[simp] theorem encodeAll_append (first second : List Instruction) :
    encodeAll (first ++ second) = encodeAll first ++ encodeAll second :=
  List.flatMap_append

theorem length_encodeAll (program : List Instruction) :
    (encodeAll program).length = (program.map width).sum := by
  simp only [encodeAll, List.length_flatMap, length_encode]

theorem encode_ne_nil (i : Instruction) : i.encode ≠ [] := nofun

/-- No encoding of a well-formed instruction begins another one: the first bytes of any
code determine the instruction that stands there. -/
theorem eq_of_encode_append_eq {i j : Instruction} {restI restJ : List UInt8}
    (hI : i.WellFormed) (hJ : j.WellFormed) (h : i.encode ++ restI = j.encode ++ restJ) :
    i = j := by
  have hFirst : decode (i.encode ++ restI).toArray 0 = .ok i :=
    decode_of_carries hI (List.prefix_append _ _)
  have hSecond : decode (j.encode ++ restJ).toArray 0 = .ok j :=
    decode_of_carries hJ (List.prefix_append _ _)
  rw [h, hSecond] at hFirst
  exact (Except.ok.inj hFirst).symm

/-- Different lists of well-formed instructions have different bytes. -/
theorem eq_of_encodeAll_eq {first second : List Instruction}
    (hFirst : ∀ i ∈ first, i.WellFormed) (hSecond : ∀ i ∈ second, i.WellFormed)
    (h : encodeAll first = encodeAll second) : first = second := by
  induction first generalizing second with
  | nil =>
      cases second with
      | nil => rfl
      | cons j rest =>
          rw [encodeAll_nil, encodeAll_cons] at h
          exact absurd (List.append_eq_nil_iff.mp h.symm).1 j.encode_ne_nil
  | cons i restI ih =>
      cases second with
      | nil =>
          rw [encodeAll_nil, encodeAll_cons] at h
          exact absurd (List.append_eq_nil_iff.mp h).1 i.encode_ne_nil
      | cons j restJ =>
          rw [List.forall_mem_cons] at hFirst hSecond
          rw [encodeAll_cons, encodeAll_cons] at h
          have hHead : i = j := eq_of_encode_append_eq hFirst.1 hSecond.1 h
          subst hHead
          rw [ih hFirst.2 hSecond.2 (List.append_cancel_left h)]

end Instruction

end StackMachine
