import StackMachine.Proofs.Execution

/-! Expression trees over the indices of a pool, and their postfix code. The bytes of several
trees one after the other determine the trees, because every instruction list can be read
back by a stack that holds trees in place of values. -/
namespace StackMachine

inductive Term where
  | load (source : Load)
  | negate (operand : Term)
  | binary (operator : Operator) (left right : Term)
  deriving DecidableEq

namespace Term

def instructions : Term → List Instruction
  | .load source => [source.instruction]
  | .negate operand => operand.instructions ++ [⟨.negate, none⟩]
  | .binary operator left right =>
    left.instructions ++ right.instructions ++ [⟨operator.opcode, none⟩]

def code (t : Term) : List UInt8 :=
  Instruction.encodeAll t.instructions

/-- The value of a tree, or `none` if a leaf is not in the pool. -/
def value? (constants : ConstantPool) : Term → Option Value
  | .load source => constants.get? source.index
  | .negate operand =>
    match operand.value? constants with
    | some x => some (.number (-x.toFloat))
    | none => none
  | .binary operator left right =>
    match left.value? constants, right.value? constants with
    | some x, some y => some (.number (operator.apply x.toFloat y.toFloat))
    | _, _ => none

theorem code_load (source : Load) : (load source).code = source.instruction.encode :=
  List.append_nil _

theorem code_negate (operand : Term) :
    (negate operand).code = operand.code ++ [Opcode.negate.byte] :=
  Instruction.encodeAll_append _ _

theorem encode_operator (operator : Operator) :
    Instruction.encode ⟨operator.opcode, none⟩ = [operator.opcode.byte] := by
  cases operator <;> rfl

theorem code_binary (operator : Operator) (left right : Term) :
    (binary operator left right).code =
      left.code ++ right.code ++ [operator.opcode.byte] := by
  unfold code
  rw [instructions, Instruction.encodeAll_append, Instruction.encodeAll_append,
    Instruction.encodeAll_cons, encode_operator]
  rfl

theorem wellFormed_operator (operator : Operator) :
    Instruction.WellFormed ⟨operator.opcode, none⟩ := by
  cases operator <;> rfl

/-- The code of a term consists of well-formed instructions. -/
theorem wellFormed_instructions (t : Term) : ∀ i ∈ t.instructions, i.WellFormed := by
  induction t with
  | load source =>
      intro i hMember
      rw [List.mem_singleton.mp hMember]
      exact source.wellFormed_instruction
  | negate operand ih =>
      rw [instructions, List.forall_mem_append, List.forall_mem_singleton]
      exact ⟨ih, rfl⟩
  | binary operator left right ihLeft ihRight =>
      rw [instructions, List.forall_mem_append, List.forall_mem_append,
        List.forall_mem_singleton]
      exact ⟨⟨ihLeft, ihRight⟩, wellFormed_operator operator⟩

/-- Put the two upper trees under an operator. The upper one is the right operand. -/
def absorbOperands (operator : Operator) : List Term → List Term
  | right :: left :: stack => .binary operator left right :: stack
  | stack => stack

/-- Read an instruction back on a stack of trees. An instruction that finds too few trees is
passed over, which does not happen in the code of a tree. -/
def absorb (stack : List Term) : Instruction → List Term
  | ⟨.constant, some operand⟩ => .load (.short operand.toUInt8) :: stack
  | ⟨.constantLong, some operand⟩ => .load (.wrapping operand.toNat) :: stack
  | ⟨.negate, none⟩ =>
    match stack with
    | operand :: rest => .negate operand :: rest
    | [] => []
  | ⟨.add, none⟩ => absorbOperands .add stack
  | ⟨.subtract, none⟩ => absorbOperands .subtract stack
  | ⟨.multiply, none⟩ => absorbOperands .multiply stack
  | ⟨.divide, none⟩ => absorbOperands .divide stack
  | _ => stack

theorem absorb_load (stack : List Term) (source : Load) :
    absorb stack source.instruction = .load source :: stack := by
  cases source with
  | short index =>
      show load (.short index.toUInt32.toUInt8) :: stack = load (.short index) :: stack
      rw [UInt8.toUInt8_toUInt32]
  | long index =>
      have hOperand : (UInt32.ofNat index).toNat = index.val := by
        rw [UInt32.toNat_ofNat']
        exact Nat.mod_eq_of_lt (Nat.lt_trans index.isLt (by decide))
      show load (.wrapping (UInt32.ofNat index).toNat) :: stack = load (.long index) :: stack
      rw [hOperand, Load.wrapping_of_lt index.isLt]

/-- The code of a tree is read back as the tree, on top of whatever was there before. -/
theorem foldl_absorb (t : Term) (stack : List Term) :
    t.instructions.foldl absorb stack = t :: stack := by
  induction t generalizing stack with
  | load source => exact absorb_load stack source
  | negate operand ih =>
      rw [instructions, List.foldl_append, ih]
      rfl
  | binary operator left right ihLeft ihRight =>
      rw [instructions, List.foldl_append, List.foldl_append, ihLeft, ihRight]
      cases operator <;> rfl

def codeAll (forest : List Term) : List UInt8 :=
  forest.flatMap code

@[simp] theorem codeAll_append (first second : List Term) :
    codeAll (first ++ second) = codeAll first ++ codeAll second :=
  List.flatMap_append

@[simp] theorem codeAll_singleton (t : Term) : codeAll [t] = t.code :=
  List.append_nil _

/-- The code of a forest is that of the instructions of its trees. -/
theorem codeAll_eq_encodeAll (forest : List Term) :
    codeAll forest = Instruction.encodeAll (forest.flatMap instructions) := by
  induction forest with
  | nil => rfl
  | cons t rest ih =>
      rw [List.flatMap_cons, Instruction.encodeAll_append, ← ih]
      rfl

/-- Reading the instructions of a forest builds up its trees again. -/
theorem foldl_absorb_forest (forest stack : List Term) :
    (forest.flatMap instructions).foldl absorb stack = forest.reverse ++ stack := by
  induction forest generalizing stack with
  | nil => rfl
  | cons t rest ih =>
      rw [List.flatMap_cons, List.foldl_append, foldl_absorb, ih, List.reverse_cons,
        List.append_assoc]
      rfl

/-- Different lists of trees have different bytes. -/
theorem eq_of_codeAll_eq {first second : List Term} (h : codeAll first = codeAll second) :
    first = second := by
  have hForm (forest : List Term) : ∀ i ∈ forest.flatMap instructions, i.WellFormed := by
    intro i hMember
    obtain ⟨t, -, hInstruction⟩ := List.mem_flatMap.mp hMember
    exact t.wellFormed_instructions i hInstruction
  rw [codeAll_eq_encodeAll, codeAll_eq_encodeAll] at h
  have hInstructions := Instruction.eq_of_encodeAll_eq (hForm first) (hForm second) h
  have hReverse : first.reverse = second.reverse := by
    have hFirst := foldl_absorb_forest first []
    rw [hInstructions, foldl_absorb_forest] at hFirst
    simpa using hFirst.symm
  exact List.reverse_inj.mp hReverse

end Term

end StackMachine
