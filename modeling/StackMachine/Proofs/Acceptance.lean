import StackMachine.Proofs.TermRuns

/-! The programs that end without a fault are the postfix codes of lists of trees, each followed
by a return. The invariant of a run names the trees that the executed bytes stand for. -/
namespace StackMachine

variable {chunk : Chunk} {limit : Nat}

/-- The code before a position is the postfix code of the trees, and their values are those on
the stack. Trees and values are listed from the top. -/
structure Explains (chunk : Chunk) (trees : List Term) (p : Position) : Prop where
  code : chunk.code.toList.take p.ip = Term.codeAll trees.reverse
  values : trees.map (Term.value? chunk.constants) = p.values.map some

/-- Before the first instruction no tree is needed to explain the empty stack. -/
theorem explains_start (chunk : Chunk) : Explains chunk [] ⟨0, []⟩ where
  code := List.take_zero
  values := rfl

/-- Every instruction makes a tree of the trees that it finds, or a leaf. -/
theorem Explains.of_advances {trees : List Term} {p q : Position}
    (h : Explains chunk trees p) (step : Advances chunk limit p q) :
    ∃ after, Explains chunk after q := by
  obtain ⟨i, hDecode, hExecutes, hNext⟩ := advances_iff.mp step
  have hTake := (Instruction.carries_of_decode hDecode).2.take_append
  rw [Instruction.length_encode, ← hNext] at hTake
  change chunk.code.toList.take q.ip = chunk.code.toList.take p.ip ++ i.encode at hTake
  have hCode := h.code
  have hTrees := h.values
  obtain ⟨ip, values⟩ := p
  obtain ⟨next, after⟩ := q
  cases hExecutes with
  | @load source value values hValue hRoom =>
      refine ⟨.load source :: trees, ?_, ?_⟩
      · rw [hTake, hCode, List.reverse_cons, Term.codeAll_append, Term.codeAll_singleton,
          Term.code_load]
      · rw [List.map_cons, List.map_cons, hTrees, ← hValue]
        rfl
  | @negate x rest hRoom =>
      obtain ⟨operand, others, rfl, hOperand, hOthers⟩ := List.map_eq_cons_iff.mp hTrees
      refine ⟨.negate operand :: others, ?_, ?_⟩
      · rw [hTake, hCode, List.reverse_cons, List.reverse_cons, Term.codeAll_append,
          Term.codeAll_append, Term.codeAll_singleton, Term.codeAll_singleton,
          Term.code_negate, List.append_assoc]
        rfl
      · rw [List.map_cons, List.map_cons, hOthers, Term.value?, hOperand]
  | @binary operator x y rest hRoom =>
      obtain ⟨right, below, rfl, hRight, hBelow⟩ := List.map_eq_cons_iff.mp hTrees
      obtain ⟨left, others, rfl, hLeft, hOthers⟩ := List.map_eq_cons_iff.mp hBelow
      refine ⟨.binary operator left right :: others, ?_, ?_⟩
      · rw [hTake, hCode, Term.encode_operator]
        simp only [List.reverse_cons, Term.codeAll_append, Term.codeAll_singleton,
          Term.code_binary, List.append_assoc]
      · rw [List.map_cons, List.map_cons, hOthers, Term.value?, hLeft, hRight]

/-- However long a program runs, the values on its stack are those of some trees. -/
theorem Explains.of_runsFor {trees : List Term} {p q : Position} {steps : Nat}
    (h : Explains chunk trees p) (run : RunsFor chunk limit p q steps) :
    ∃ after, Explains chunk after q := by
  induction run with
  | zero => exact ⟨trees, h⟩
  | succ prior last ih =>
      obtain ⟨middle, hMiddle⟩ := ih
      exact hMiddle.of_advances last

/-- An ending without a fault leaves the values of the trees that the executed code before the
return stands for. -/
theorem exists_forest_of_ending (h : (chunk.ending limit).fault = none) :
    ∃ last forest, (chunk.ending limit).pointer = last + 1 ∧
      chunk.code.toArray[last]? = some Opcode.ret.byte ∧
      Term.codeAll forest = chunk.code.toList.take last ∧
      forest.map (Term.value? chunk.constants) = (chunk.ending limit).values.reverse.map some := by
  obtain ⟨q, steps, run, hStops⟩ := exists_run_to_ending chunk limit
  obtain ⟨hDecode, hEnding⟩ := stops_without_fault_iff.mp ⟨hStops, h⟩
  obtain ⟨trees, hTrees⟩ := (explains_start chunk).of_runsFor run
  refine ⟨q.ip, trees.reverse, by rw [hEnding], ?_, hTrees.code.symm, ?_⟩
  · exact (carries_cons_iff.mp (Instruction.carries_of_decode hDecode).2).1
  · rw [hEnding, List.map_reverse, List.map_reverse, hTrees.values]

/-- The code of a list of trees, followed by a return, ends without a fault if there is room for
a value for every instruction. What follows the return is never reached. -/
theorem ending_of_forest {forest : List Term} {values : List Value}
    (hCode : Term.codeAll forest ++ [Opcode.ret.byte] <+: chunk.code.toList)
    (hValues : forest.map (Term.value? chunk.constants) = values.map some)
    (hRoom : (forest.flatMap Term.instructions).length ≤ limit) :
    chunk.ending limit = ⟨none, (Term.codeAll forest).length + 1, values.reverse⟩ := by
  have hCarries : Carries chunk.code.toArray 0 (Term.codeAll forest ++ [Opcode.ret.byte]) :=
    hCode
  obtain ⟨hForest, hReturn⟩ := carries_append_iff.mp hCarries
  have hRoomBelow :
      ([] : List Value).length + (forest.flatMap Term.instructions).length ≤ limit := by
    rw [List.length_nil, Nat.zero_add]
    exact hRoom
  obtain ⟨steps, run⟩ := Term.exists_run_forest hForest hValues hRoomBelow
  rw [Nat.zero_add] at run hReturn
  rw [List.append_nil] at run
  exact ending_of_return run hReturn

/-- The machine accepts exactly the postfix programs. If a run ends without a fault, its pointer
has just passed a return, the code before the return is the postfix code of one and only one
list of trees, and the values on the stack are theirs, so that all their leaves are in the
pool. Conversely the code of any such list, followed by a return, is run without a fault if the
stack may hold as many values as the list has instructions and is granted the slots for them. -/
theorem accepts_exactly_postfix_programs (chunk : Chunk) (m : Machine) :
    ((m.run chunk).fault = none →
      let p := (m.run chunk).machine.ip
      0 < p ∧ chunk.code.toArray[p - 1]? = some Opcode.ret.byte ∧
      ∃ forest : List Term,
        Term.codeAll forest = chunk.code.toList.take (p - 1) ∧
        (∀ other, Term.codeAll other = chunk.code.toList.take (p - 1) → other = forest) ∧
        forest.map (Term.value? chunk.constants) =
          (m.run chunk).machine.stack.values.toList.map some) ∧
    ∀ (forest : List Term) (values : List Value),
      Term.codeAll forest ++ [Opcode.ret.byte] <+: chunk.code.toList →
      forest.map (Term.value? chunk.constants) = values.map some →
      (forest.flatMap Term.instructions).length ≤ m.stack.limit →
      m.stack.CanHold (forest.flatMap Term.instructions).length →
      (m.run chunk).fault = none ∧ (m.run chunk).machine.stack.values.toList = values ∧
        (m.run chunk).machine.ip = (Term.codeAll forest).length + 1 := by
  constructor
  · intro hFault p
    rw [Machine.run_fault, Ending.report, Option.map_eq_none_iff] at hFault
    obtain ⟨last, forest, hPointer, hReturn, hCode, hValues⟩ := exists_forest_of_ending hFault
    have hLast : p = last + 1 := (m.ip_run chunk).trans hPointer
    rw [hLast, Nat.add_sub_cancel, m.values_run]
    refine ⟨Nat.succ_pos last, hReturn, forest, hCode, fun other hOther => ?_, hValues⟩
    exact Term.eq_of_codeAll_eq (hOther.trans hCode.symm)
  · intro forest values hCode hValues hLimit hGranted
    have hEnding := ending_of_forest hCode hValues (hGranted.le_room hLimit)
    rw [m.run_fault, m.values_run, m.ip_run, hEnding]
    exact ⟨rfl, List.reverse_reverse values, rfl⟩

/-- Load a constant in the short and in the long form, add the two values and return. -/
def doubling : Chunk :=
  ⟨⟨#[0, 0, 2, 0, 0, 0, 4, 1], 8⟩, ⟨#[1, 1, 1, 1, 1, 1, 2, 2], 8⟩, ⟨#[.number 1], 8⟩⟩

/-- The program is accepted, and no other trees have its code. -/
theorem accepts_doubling :
    ((Machine.new {}).run doubling).machine.stack.values.toList = [.number (1 + 1)] ∧
      ∃ forest, Term.codeAll forest = doubling.code.toList.take 7 ∧
        ∀ other, Term.codeAll other = doubling.code.toList.take 7 → other = forest := by
  obtain ⟨hFault, hValues, hPointer⟩ :=
    (accepts_exactly_postfix_programs doubling (.new {})).2
      [.binary .add (.load (.short 0)) (.load (.long ⟨0, by decide⟩))] [.number (1 + 1)]
      ⟨[], rfl⟩ rfl (by decide) (by decide)
  obtain ⟨-, -, forest, hCode, hOnly, -⟩ :=
    (accepts_exactly_postfix_programs doubling (.new {})).1 hFault
  rw [hPointer] at hCode hOnly
  exact ⟨hValues, forest, hCode, hOnly⟩

end StackMachine
