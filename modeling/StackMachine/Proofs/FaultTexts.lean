import StackMachine.Fault
import StackMachine.Proofs.Separation

/-! What the text of a fault tells. The cause is found by the phrase that the text begins with,
since no phrase begins another one. After it come the argument of the cause, the offset and the
line, each up to the next blank, so the whole fault can be told from its text. -/
namespace StackMachine

namespace FaultKind

/-- The words of a cause without what it is about. -/
def phrase : FaultKind → String
  | .invalidOpcode _ => "invalid opcode 0x"
  | .stackUnderflow => "stack underflow"
  | .stackOverflow => "stack overflow"
  | .invalidConstant _ => "invalid constant index "
  | .truncatedInstruction => "instruction operands run past the end of the code"
  | .unexpectedEndOfCode => "reached end of code without a return"

/-- The byte or the index that a cause is about. Most causes are about nothing of the kind. -/
def argument : FaultKind → String
  | .invalidOpcode byte => Text.hexByte byte
  | .invalidConstant index => toString index
  | .stackUnderflow | .stackOverflow | .truncatedInstruction | .unexpectedEndOfCode => ""

/-- A message is a fixed phrase and what it is about. -/
theorem message_eq (kind : FaultKind) : kind.message = kind.phrase ++ kind.argument := by
  cases kind with
  | invalidOpcode | invalidConstant => rfl
  | stackUnderflow | stackOverflow | truncatedInstruction | unexpectedEndOfCode =>
      exact String.append_empty.symm

/-- No phrase is the beginning of another one. -/
theorem phrase_unique {a b : FaultKind} (h : a.phrase.toList <+: b.phrase.toList) :
    a.phrase = b.phrase := by
  cases a <;> cases b <;> simp [phrase] at h ⊢

/-- Phrase and argument together tell the kinds of faults apart. -/
theorem eq_of_phrase_of_argument {a b : FaultKind} (hPhrase : a.phrase = b.phrase)
    (hArgument : a.argument = b.argument) : a = b := by
  cases a with
  | invalidOpcode byte =>
      cases b with
      | invalidOpcode other => exact congrArg invalidOpcode (Text.hexByte_injective hArgument)
      | _ => simp [phrase] at hPhrase
  | invalidConstant index =>
      cases b with
      | invalidConstant other => exact congrArg invalidConstant (Text.toString_injective hArgument)
      | _ => simp [phrase] at hPhrase
  | stackUnderflow | stackOverflow | truncatedInstruction | unexpectedEndOfCode =>
      cases b <;> simp [phrase] at hPhrase ⊢

theorem blank_not_mem_argument (kind : FaultKind) : ' ' ∉ kind.argument.toList := by
  cases kind with
  | invalidOpcode byte => exact Text.not_mem_hexByte (by decide) byte
  | invalidConstant index => exact Text.not_mem_toString rfl index
  | stackUnderflow | stackOverflow | truncatedInstruction | unexpectedEndOfCode =>
      exact List.not_mem_nil

/-- What may follow a message can be cut off without looking at the kind. -/
theorem unambiguous_message : Text.Unambiguous message := by
  intro a b restA restB hRestA hRestB h
  rw [message_eq, message_eq, String.toList_append, String.toList_append, List.append_assoc,
    List.append_assoc] at h
  have hPhrase : a.phrase = b.phrase := by
    have hA : a.phrase.toList <+: b.phrase.toList ++ (b.argument.toList ++ restB) :=
      h ▸ List.prefix_append _ _
    rcases List.prefix_or_prefix_of_prefix hA (List.prefix_append _ _) with hPrefix | hPrefix
    · exact phrase_unique hPrefix
    · exact (phrase_unique hPrefix).symm
  rw [hPhrase] at h
  obtain ⟨hArgument, hRest⟩ := Text.pieces_eq a.blank_not_mem_argument b.blank_not_mem_argument
    hRestA hRestB (List.append_cancel_left h)
  exact ⟨eq_of_phrase_of_argument hPhrase (String.toList_inj.mp hArgument), hRest⟩

end FaultKind

namespace Fault

/-- Only a line that is recorded is told, so its absence is told as well. -/
theorem line_eq_of_lineText {fault other : Fault} (h : fault.lineText = other.lineText) :
    fault.line = other.line := by
  unfold lineText at h
  cases hLine : fault.line with
  | none =>
      cases hOther : other.line with
      | none => rfl
      | some number =>
          rw [hLine, hOther] at h
          simpa using congrArg String.toList h
  | some number =>
      cases hOther : other.line with
      | none =>
          rw [hLine, hOther] at h
          simpa using congrArg String.toList h
      | some otherNumber =>
          rw [hLine, hOther] at h
          have hNumber : toString number = toString otherNumber :=
            String.toList_inj.mp (by simpa using congrArg String.toList h)
          rw [Text.toString_injective hNumber]

/-- The line is set off by a blank, if there is one. -/
theorem ends_lineText (fault : Fault) : Text.Ends ' ' fault.lineText.toList := by
  unfold lineText
  cases fault.line with
  | none => exact Text.ends_nil
  | some number =>
      simp only [String.toList_append, String.reduceToList]
      exact Text.ends_cons _

/-- The text of a fault tells its cause with the argument, its offset, and whether a line is
recorded and which. A failure that is a fault has the same text. -/
theorem message_identifies_fault :
    (∀ fault other : Fault, fault.message = other.message ↔ fault = other) ∧
    ∀ fault : Fault, (Failure.run fault).message = fault.message := by
  refine ⟨fun fault other => ⟨fun h => ?_, congrArg message⟩, fun _ => rfl⟩
  have hEnds (rest : List Char) : Text.Ends ' ' (" at offset ".toList ++ rest) := by
    simp only [String.reduceToList]
    exact Text.ends_cons _
  have hTexts := congrArg String.toList h
  simp only [message, String.toList_append, List.append_assoc] at hTexts
  obtain ⟨hKind, hTexts⟩ := FaultKind.unambiguous_message (hEnds _) (hEnds _) hTexts
  obtain ⟨hOffset, hTexts⟩ := Text.unambiguous_zeroPadded (by decide : 0 < 4) fault.ends_lineText
    other.ends_lineText (List.append_cancel_left hTexts)
  have hLine := line_eq_of_lineText (String.toList_inj.mp hTexts)
  obtain ⟨offset, line, kind⟩ := fault
  obtain ⟨otherOffset, otherLine, otherKind⟩ := other
  cases hKind
  cases hOffset
  cases hLine
  rfl

/-- An offset that needs more than four digits has them all. -/
example : (Fault.mk 12345 (some 7) (.invalidOpcode 0xAB)).message =
    "invalid opcode 0xAB at offset 12345 (line 7)" := by decide +kernel

end Fault

end StackMachine
