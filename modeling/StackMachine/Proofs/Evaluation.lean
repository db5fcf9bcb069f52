import StackMachine.Proofs.Emission

/-! Programs of a single tree. With room for all the values that the tree needs at once the
program returns its value. With less room it overflows, and the tree tells where. -/
namespace StackMachine

namespace Term

variable {chunk : Chunk} {limit : Nat} {t : Term} {value : Value}
  (hCode : chunk.code.toList = t.code ++ [Opcode.ret.byte])
  (hValue : t.value? chunk.constants = some value)

include hCode hValue

/-- With room for its need, a program ends behind its return with one value. -/
theorem ending_of_room (hRoom : t.need ≤ limit) :
    chunk.ending limit = ⟨none, chunk.size, [value]⟩ := by
  have hCarries : Carries chunk.code.toArray 0 (t.code ++ [Opcode.ret.byte]) :=
    carries_of_toList_eq hCode
  obtain ⟨hTerm, hReturn⟩ := carries_append_iff.mp hCarries
  have hBelow : ([] : List Value).length + t.need ≤ limit := by
    rw [List.length_nil, Nat.zero_add]
    exact hRoom
  obtain ⟨steps, run⟩ := exists_run hTerm hValue hBelow
  have hSize : chunk.size = 0 + t.code.length + 1 := by
    rw [Nat.zero_add]
    exact (congrArg List.length hCode).trans List.length_append
  rw [ending_of_return run hReturn, hSize]

/-- With less room it ends at the first site that is too deep. -/
theorem ending_of_short (hShort : limit < t.need) :
    ∃ site pointer, overflow? limit (t.sites 0 0) = some site ∧
      chunk.ending limit = ⟨some (site.offset, .stackOverflow), pointer, []⟩ := by
  have hCarries : Carries chunk.code.toArray 0 (t.code ++ [Opcode.ret.byte]) :=
    carries_of_toList_eq hCode
  have hAbove : limit < ([] : List Value).length + t.need := by
    rw [List.length_nil, Nat.zero_add]
    exact hShort
  obtain ⟨site, steps, present, pointer, hSite, run, hStops⟩ :=
    exists_overflow (carries_append_iff.mp hCarries).1 hValue (Nat.zero_le limit) hAbove
  exact ⟨site, pointer, hSite, ending_of_stops run hStops⟩

end Term

namespace Expression

/-- Writing the program of an expression into an empty chunk leaves the code of its tree and
its literals, if the memory does not run out. -/
theorem exists_program {heap : Allocator} {e : Expression} {line : Nat}
    (hLiterals : e.literals.length ≤ Chunk.constantLimit)
    (hMemory : ¬Chunk.RanOutOfMemory (e.emitProgram heap line .empty)) :
    ∃ chunk, e.emitProgram heap line .empty = .ok () chunk ∧
      chunk.code.toList = (e.term 0).code ++ [Opcode.ret.byte] ∧
      (e.term 0).value? chunk.constants = some (.number e.eval) := by
  have hRoom : Chunk.empty.constants.size + e.literals.length ≤ Chunk.constantLimit := by
    rw [← Nat.zero_add e.literals.length] at hLiterals
    exact hLiterals
  obtain ⟨_, chunk, hOk, hExtends⟩ := (emitProgram_builds heap line hRoom).of_memory hMemory
  have hPool : Carries chunk.constants.items 0 e.literals :=
    carries_of_toList_eq hExtends.constants
  exact ⟨chunk, hOk, hExtends.code, value?_term hPool hRoom⟩

/-- A run of the program of an expression stops at the first load, in the order of evaluation, that
finds `depth` values. No value is left. -/
def OverflowsAt (e : Expression) (chunk : Chunk) (depth : Nat) (ended : Machine.Halted) : Prop :=
  ∃ site, Term.overflow? depth ((e.term 0).sites 0 0) = some site ∧
    ended.fault =
      some ⟨site.offset, Machine.faultLine? chunk site.offset, .stackOverflow⟩ ∧
    ended.machine.stack.values = #[]

/-- A machine short of room stops where the expression says it will. -/
theorem overflowsAt_run {e : Expression} {chunk : Chunk} {m : Machine}
    (hCode : chunk.code.toList = (e.term 0).code ++ [Opcode.ret.byte])
    (hValue : (e.term 0).value? chunk.constants = some (.number e.eval))
    (hShort : m.stack.room < e.need) : e.OverflowsAt chunk m.stack.room (m.run chunk) := by
  rw [← need_term e 0] at hShort
  obtain ⟨site, pointer, hSite, hEnding⟩ := Term.ending_of_short hCode hValue hShort
  refine ⟨site, hSite, ?_, ?_⟩
  · rw [m.run_fault, hEnding]
    rfl
  · rw [m.values_run, hEnding]
    rfl

/-- The program of an expression with as many literals as a pool can hold, written into an empty
chunk without running out of memory. If the stack may hold the values that the expression needs at
once and is granted the slots for them, a run returns the value of the expression alone and ends
behind the last byte. If the stack may not hold so many, the run overflows at the first load, in
the order of evaluation, that finds the stack full, and no value is left. A stack whose slots are
refused overflows at the first load that finds as many values as there is room for. -/
theorem run_emitted_program {heap : Allocator} {e : Expression} {line : Nat}
    (hLiterals : e.literals.length ≤ Chunk.constantLimit)
    (hMemory : ¬Chunk.RanOutOfMemory (e.emitProgram heap line .empty)) :
    ∃ chunk, e.emitProgram heap line .empty = .ok () chunk ∧
      chunk.code.toList = (e.term 0).code ++ [Opcode.ret.byte] ∧
      ∀ m : Machine,
        (m.stack.CanHold e.need → e.need ≤ m.stack.limit →
          (m.run chunk).fault = none ∧
            (m.run chunk).machine.stack.values = #[.number e.eval] ∧
            (m.run chunk).machine.ip = chunk.size) ∧
        (m.stack.CanHold e.need → m.stack.limit < e.need →
          e.OverflowsAt chunk m.stack.limit (m.run chunk)) ∧
        (m.stack.room < e.need → e.OverflowsAt chunk m.stack.room (m.run chunk)) := by
  obtain ⟨chunk, hOk, hCode, hValue⟩ := exists_program hLiterals hMemory
  refine ⟨chunk, hOk, hCode, fun m => ⟨?_, ?_, overflowsAt_run hCode hValue⟩⟩
  · intro hGranted hLimit
    have hRoom : (e.term 0).need ≤ m.stack.room := by
      rw [need_term]
      exact hGranted.le_room hLimit
    rw [m.run_fault, m.values_run, m.ip_run, Term.ending_of_room hCode hValue hRoom]
    exact ⟨rfl, rfl, rfl⟩
  · intro hGranted hShort
    have hRoom : m.stack.room = m.stack.limit := hGranted.room_eq (Nat.le_of_lt hShort)
    rw [← hRoom] at hShort ⊢
    exact overflowsAt_run hCode hValue hShort

/-- A product under a difference. Three values are needed at once. -/
def nested : Expression :=
  .binary .subtract (.literal 1 1)
    (.binary .multiply (.literal 2 2) (.negate (.literal 3 2) 3) 4) 5

/-- The product is computed with room for three values. With room for two its right operand
does not fit, which is loaded at offset 4. None of the stacks asks for slots. -/
theorem run_emitted_nested :
    ∃ chunk, nested.emitProgram .standard 6 .empty = .ok () chunk ∧
      ((Machine.new { stackLimit := 3 } .refusing).run chunk).machine.stack.values =
        #[.number nested.eval] ∧
      ((Machine.new { stackLimit := 2 } .refusing).run chunk).fault =
        some ⟨4, Machine.faultLine? chunk 4, .stackOverflow⟩ := by
  have hLiterals : nested.literals.length ≤ Chunk.constantLimit := by decide
  have hMemory : ¬Chunk.RanOutOfMemory (nested.emitProgram .standard 6 .empty) := by
    decide +kernel
  obtain ⟨chunk, hOk, -, hRuns⟩ := run_emitted_program hLiterals hMemory
  obtain ⟨-, hValue, -⟩ :=
    (hRuns (.new { stackLimit := 3 } .refusing)).1 (by decide) (by decide)
  obtain ⟨site, hSite, hFault, -⟩ :=
    (hRuns (.new { stackLimit := 2 } .refusing)).2.1 (by decide) (by decide)
  have hFirst : Term.overflow? 2 ((nested.term 0).sites 0 0) = some ⟨4, 2⟩ := rfl
  obtain rfl : site = ⟨4, 2⟩ := Option.some.inj (hSite.symm.trans hFirst)
  exact ⟨chunk, hOk, hValue, hFault⟩

end Expression

end StackMachine
