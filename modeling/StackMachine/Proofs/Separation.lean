import Mathlib.Data.List.Infix
import Mathlib.Data.List.TakeWhile
import StackMachine.Proofs.Numerals

/-! Texts that can be taken apart again. A piece without blanks ends at the first blank, so pieces
of any length that stand one after the other are told apart, and a column only adds blanks that do
not belong to them. Likewise a line ends at the first line break. -/
namespace StackMachine.Text

section Separator

variable {separator : Char} {first second restFirst restSecond : List Char}

/-- The text is over, or goes on with a separator. -/
def Ends (separator : Char) (rest : List Char) : Prop := ∀ c ∈ rest.head?, c = separator

theorem ends_nil : Ends separator [] := nofun

theorem ends_cons (rest : List Char) : Ends separator (separator :: rest) :=
  fun _ hHead => (Option.mem_some.mp hHead).symm

/-- A piece free of the separator is found again in front of one. -/
theorem takeWhile_append_of_ends (hFirst : separator ∉ first) (hEnds : Ends separator restFirst) :
    (first ++ restFirst).takeWhile (· != separator) = first := by
  have hNone : restFirst.takeWhile (· != separator) = [] := by
    cases restFirst with
    | nil => rfl
    | cons c rest =>
        have hHead : c = separator := hEnds c rfl
        simp [hHead]
  rw [List.takeWhile_append_of_pos, hNone, List.append_nil]
  rintro c hMem
  simpa using ne_of_mem_of_not_mem hMem hFirst

/-- The piece in front of the first separator is the same in equal texts, and so is the rest. -/
theorem pieces_eq (hFirst : separator ∉ first) (hSecond : separator ∉ second)
    (hEndsFirst : Ends separator restFirst) (hEndsSecond : Ends separator restSecond)
    (h : first ++ restFirst = second ++ restSecond) : first = second ∧ restFirst = restSecond := by
  have hPieces := congrArg (List.takeWhile (· != separator)) h
  rw [takeWhile_append_of_ends hFirst hEndsFirst, takeWhile_append_of_ends hSecond hEndsSecond]
    at hPieces
  subst hPieces
  exact ⟨rfl, List.append_cancel_left h⟩

/-- Separators in front of two pieces are as many in both, if the pieces begin with something
else. -/
theorem rest_eq_of_replicate_append {m n : Nat} (hFirst : first.head? ≠ some separator)
    (hSecond : second.head? ≠ some separator)
    (h : List.replicate m separator ++ first = List.replicate n separator ++ second) :
    first = second := by
  have hDrop (k : Nat) {text : List Char} (hText : text.head? ≠ some separator) :
      (List.replicate k separator ++ text).dropWhile (· == separator) = text := by
    rw [List.dropWhile_append_of_pos]
    · cases text with
      | nil => rfl
      | cons c rest =>
          have hHead : c ≠ separator := fun hSame => hText (congrArg some hSame)
          simp [hHead]
    · intro c hMem
      simp [(List.mem_replicate.mp hMem).2]
  have hRests := congrArg (List.dropWhile (· == separator)) h
  rwa [hDrop m hFirst, hDrop n hSecond] at hRests

/-- Separators in front of a piece are no part of it. -/
theorem columns_eq {m n : Nat} (hFirst : separator ∉ first) (hSecond : separator ∉ second)
    (hFirstNe : first ≠ []) (hSecondNe : second ≠ []) (hEndsFirst : Ends separator restFirst)
    (hEndsSecond : Ends separator restSecond)
    (h : List.replicate m separator ++ (first ++ restFirst) =
      List.replicate n separator ++ (second ++ restSecond)) :
    first = second ∧ restFirst = restSecond := by
  have hHead {piece : List Char} (hPiece : separator ∉ piece) (hNe : piece ≠ [])
      (rest : List Char) : (piece ++ rest).head? ≠ some separator := by
    rw [List.head?_append_of_ne_nil _ hNe]
    exact fun hSeparator => hPiece (List.mem_of_mem_head? hSeparator)
  exact pieces_eq hFirst hSecond hEndsFirst hEndsSecond
    (rest_eq_of_replicate_append (hHead hFirst hFirstNe _) (hHead hSecond hSecondNe _) h)

/-- Lines are told apart by their breaks. -/
theorem lines_eq {lines others : List (List Char)} (hLines : ∀ line ∈ lines, separator ∉ line)
    (hOthers : ∀ line ∈ others, separator ∉ line)
    (h : lines.flatMap (· ++ [separator]) = others.flatMap (· ++ [separator])) :
    lines = others := by
  induction lines generalizing others with
  | nil =>
      cases others with
      | nil => rfl
      | cons other others => simp at h
  | cons line lines ih =>
      cases others with
      | nil => simp at h
      | cons other others =>
          rw [List.forall_mem_cons] at hLines hOthers
          simp only [List.flatMap_cons, List.append_assoc, List.singleton_append] at h
          obtain ⟨rfl, hRest⟩ :=
            pieces_eq hLines.1 hOthers.1 (ends_cons _) (ends_cons _) h
          rw [ih hLines.2 hOthers.2 (List.cons.inj hRest).2]

end Separator

/-- In front of a blank or the end of a text, what is written tells what it was written for. -/
def Unambiguous {α : Type} (write : α → String) : Prop :=
  ∀ ⦃a b : α⦄ ⦃restA restB : List Char⦄, Ends ' ' restA → Ends ' ' restB →
    (write a).toList ++ restA = (write b).toList ++ restB → a = b ∧ restA = restB

section Pieces

variable {α : Type} {write : α → String} (hInjective : Function.Injective write)
  (hSolid : ∀ a, ' ' ∉ (write a).toList)

include hInjective hSolid

/-- An injective printer that never writes the separator is unambiguous in front of it. -/
theorem unambiguous_of_injective : Unambiguous write := by
  intro a b restA restB hRestA hRestB h
  obtain ⟨hPiece, hRest⟩ := pieces_eq (hSolid a) (hSolid b) hRestA hRestB h
  exact ⟨hInjective (String.toList_inj.mp hPiece), hRest⟩

/-- A column of any width tells what stands in it. -/
theorem unambiguous_alignRight (hNe : ∀ a, (write a).toList ≠ []) (width : Nat) :
    Unambiguous fun a => alignRight width ' ' (write a) := by
  intro a b restA restB hRestA hRestB h
  simp only [toList_alignRight, List.leftpad, List.append_assoc] at h
  obtain ⟨hPiece, hRest⟩ :=
    columns_eq (hSolid a) (hSolid b) (hNe a) (hNe b) hRestA hRestB h
  exact ⟨hInjective (String.toList_inj.mp hPiece), hRest⟩

end Pieces

theorem not_mem_alignRight {c fill : Char} (hFill : c ≠ fill) {text : String}
    (h : c ∉ text.toList) (width : Nat) : c ∉ (alignRight width fill text).toList := by
  simp [List.leftpad, hFill, h]

theorem toString_injective : Function.Injective (toString : Nat → String) := by
  intro m n h
  have hDigits : Nat.toDigits 10 m = Nat.toDigits 10 n := by
    simpa using congrArg String.toList h
  rw [← (Decimal.digits_toDigits m).denotes, hDigits, (Decimal.digits_toDigits n).denotes]

/-- A character that is no digit is in no number. -/
theorem not_mem_toString {c : Char} (h : c.isDigit = false) (n : Nat) :
    c ∉ (toString n).toList := by
  intro hMem
  have hDigit := (Decimal.digits_toDigits n).decimal c (by simpa using hMem)
  exact absurd (h.symm.trans hDigit) Bool.false_ne_true

theorem toString_ne {c : Char} (h : c.isDigit = false) {text : String} (hMem : c ∈ text.toList)
    (n : Nat) : toString n ≠ text := by
  rintro rfl
  exact not_mem_toString h n hMem

theorem toList_toString_ne_nil (n : Nat) : (toString n).toList ≠ [] := by
  simp

theorem not_mem_zeroPadded {c : Char} (h : c.isDigit = false) {width : Nat} (hWidth : 0 < width)
    (n : Nat) : c ∉ (zeroPadded width n).toList := by
  intro hMem
  have hDigit := (Decimal.digits_zeroPadded hWidth n).decimal c hMem
  exact absurd (h.symm.trans hDigit) Bool.false_ne_true

/-- Zeros in front do not change a number, in however many digits it is written. -/
theorem zeroPadded_injective {width : Nat} (hWidth : 0 < width) :
    Function.Injective (zeroPadded width) := by
  intro m n h
  have hRead := (Decimal.digits_zeroPadded hWidth m).denotes
  rw [h, (Decimal.digits_zeroPadded hWidth n).denotes] at hRead
  exact hRead.symm

theorem unambiguous_zeroPadded {width : Nat} (hWidth : 0 < width) :
    Unambiguous (zeroPadded width) :=
  unambiguous_of_injective (zeroPadded_injective hWidth) (not_mem_zeroPadded rfl hWidth)

theorem hexDigit_inj : ∀ m < 16, ∀ n < 16, hexDigit m = hexDigit n → m = n := by decide

/-- Two hexadecimal digits determine their byte. -/
theorem hexByte_injective : Function.Injective hexByte := by
  intro a b h
  have hDigits := String.ofList_injective h
  simp only [List.cons.injEq, and_true] at hDigits
  have hA := a.toNat_lt
  have hB := b.toNat_lt
  have hHigh := hexDigit_inj _ (by omega) _ (by omega) hDigits.1
  have hLow := hexDigit_inj _ (by omega) _ (by omega) hDigits.2
  apply UInt8.toNat_inj.mp
  omega

theorem not_mem_hexByte {c : Char} (h : ∀ n < 16, c ≠ hexDigit n) (byte : UInt8) :
    c ∉ (hexByte byte).toList := by
  have hByte := byte.toNat_lt
  simp only [hexByte, String.toList_ofList, List.mem_cons, List.not_mem_nil, or_false, not_or]
  exact ⟨h _ (by omega), h _ (by omega)⟩

end StackMachine.Text
