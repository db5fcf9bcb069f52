import StackMachine.Proofs.Building
import StackMachine.Proofs.TermRuns

/-! The code that is written for an expression is the postfix code of a tree. Its leaves load
the literals of the expression, which are added to the pool from left to right. -/
namespace StackMachine

namespace Load

/-- The load that is written for an index: the short form if one byte can name it. -/
def ofIndex (index : Nat) : Load :=
  if index ≤ Instruction.shortLimit then .short (UInt8.ofNat index)
  else .wrapping index

theorem index_ofIndex {index : Nat} (h : index < Chunk.constantLimit) :
    (ofIndex index).index = index := by
  unfold ofIndex
  by_cases hShort : index ≤ Instruction.shortLimit
  · rw [if_pos hShort, Load.index, UInt8.toNat_ofNat']
    exact Nat.mod_eq_of_lt (Nat.lt_succ_of_le hShort)
  · rw [if_neg hShort, wrapping_of_lt h, Load.index]

/-- Below the limit, the load of an index is the instruction the builder writes for it. -/
theorem instruction_ofIndex {index : Nat} (h : index < Chunk.constantLimit) :
    (ofIndex index).instruction = Instruction.load index := by
  unfold ofIndex Instruction.load
  by_cases hShort : index ≤ Instruction.shortLimit
  · have hByte : (UInt8.ofNat index).toUInt32 = UInt32.ofNat index := by
      apply UInt32.toNat_inj.mp
      rw [UInt8.toNat_toUInt32, UInt8.toNat_ofNat', UInt32.toNat_ofNat']
      rw [Instruction.shortLimit] at hShort
      omega
    rw [if_pos hShort, if_pos hShort, Load.instruction, hByte]
  · rw [if_neg hShort, if_neg hShort, wrapping_of_lt h, Load.instruction]

end Load

namespace Expression

def literals : Expression → List Value
  | .literal x _ => [.number x]
  | .negate operand _ => operand.literals
  | .binary _ left right _ => left.literals ++ right.literals

/-- How many values lie on the stack at once while an expression is evaluated. The value of a
left operand waits for the right one. -/
def need : Expression → Nat
  | .literal _ _ => 1
  | .negate operand _ => operand.need
  | .binary _ left right _ => max left.need (1 + right.need)

/-- The tree over the pool that is written for an expression, if its first literal gets
`index`. -/
def term (index : Nat) : Expression → Term
  | .literal _ _ => .load (.ofIndex index)
  | .negate operand _ => .negate (operand.term index)
  | .binary operator left right _ =>
    .binary operator (left.term index) (right.term (index + left.literals.length))

/-- Replacing literals by loads changes nothing about the room an expression needs. -/
theorem need_term (e : Expression) (index : Nat) : (e.term index).need = e.need := by
  induction e generalizing index with
  | literal x line => rfl
  | negate operand line ih => exact ih index
  | binary operator left right line ihLeft ihRight =>
      rw [term, Term.need, need, ihLeft, ihRight]

/-- If the literals stand in the pool, the tree has the value of the expression. -/
theorem value?_term {e : Expression} {constants : ConstantPool} {index : Nat}
    (hPool : Carries constants.items index e.literals)
    (hLimit : index + e.literals.length ≤ Chunk.constantLimit) :
    (e.term index).value? constants = some (.number e.eval) := by
  induction e generalizing index with
  | literal x line =>
      rw [term, Term.value?, Load.index_ofIndex hLimit]
      exact (carries_cons_iff.mp hPool).1
  | negate operand line ih =>
      rw [term, Term.value?, ih hPool hLimit]
      rfl
  | binary operator left right line ihLeft ihRight =>
      obtain ⟨hLeft, hRight⟩ := carries_append_iff.mp hPool
      rw [literals, List.length_append, ← Nat.add_assoc] at hLimit
      have hLeftLimit : index + left.literals.length ≤ Chunk.constantLimit := by omega
      rw [term, Term.value?, ihLeft hLeft hLeftLimit, ihRight hRight hLimit]
      rfl

end Expression

namespace Chunk

/-- Some bytes and some constants have been added, and nothing else has changed but the line
table. -/
structure Extends (before after : Chunk) (bytes : List UInt8) (values : List Value) : Prop where
  code : after.code.toList = before.code.toList ++ bytes
  constants : after.constants.toList = before.constants.toList ++ values

theorem Extends.trans {first second third : Chunk} {bytes bytes' : List UInt8}
    {values values' : List Value} (h : first.Extends second bytes values)
    (h' : second.Extends third bytes' values') :
    first.Extends third (bytes ++ bytes') (values ++ values') where
  code := by rw [h'.code, h.code, List.append_assoc]
  constants := by rw [h'.constants, h.constants, List.append_assoc]

theorem Extends.constants_size {before after : Chunk} {bytes : List UInt8}
    {values : List Value} (h : before.Extends after bytes values) :
    after.constants.size = before.constants.size + values.length := by
  have hLength := congrArg List.length h.constants
  rw [List.length_append] at hLength
  exact hLength

theorem write_builds (heap : Allocator) (byte : UInt8) (line : Nat) (chunk : Chunk) :
    Builds (write heap byte line chunk)
      (fun _ next => chunk.Extends next [byte] []) (fun _ => True) := by
  refine (write_allOrNothing heap byte line chunk).imp ?_ (fun _ _ => trivial)
  intro _ next hNext
  refine ⟨congrArg Contents.code hNext, ?_⟩
  rw [List.append_nil]
  exact congrArg Contents.constants hNext

theorem writeOpcode_builds (heap : Allocator) (opcode : Opcode) (line : Nat) (chunk : Chunk) :
    Builds (writeOpcode heap opcode line chunk)
      (fun _ next => chunk.Extends next [opcode.byte] []) (fun _ => True) :=
  write_builds heap opcode.byte line chunk

theorem addConstant_builds (heap : Allocator) (value : Value) (chunk : Chunk) :
    Builds (addConstant heap value chunk)
      (fun index next => index = chunk.constants.size ∧ chunk.Extends next [] [value])
      (fun _ => True) := by
  refine (addConstant_allOrNothing heap value chunk).imp ?_ (fun _ _ => trivial)
  rintro _ next ⟨hIndex, hNext⟩
  refine ⟨hIndex, ?_, congrArg Contents.constants hNext⟩
  rw [List.append_nil]
  exact congrArg Contents.code hNext

/-- A constant is written as a load of the next index of the pool. -/
theorem writeConstant_builds {chunk : Chunk} (h : chunk.constants.size < constantLimit)
    (heap : Allocator) (value : Value) (line : Nat) :
    Builds (writeConstant heap value line chunk)
      (fun _ next =>
        chunk.Extends next (Instruction.load chunk.constants.size).encode [value])
      (fun _ => True) := by
  refine (writeConstant_allOrNothing h heap value line).imp ?_ (fun _ _ => trivial)
  rintro _ next ⟨-, hNext⟩
  exact ⟨congrArg Contents.code hNext, congrArg Contents.constants hNext⟩

end Chunk

namespace Expression

/-- Writing an expression appends the code of its tree and its literals, or it runs out of
memory. There is room in the pool for all literals. -/
theorem emit_builds (heap : Allocator) {e : Expression} {chunk : Chunk}
    (h : chunk.constants.size + e.literals.length ≤ Chunk.constantLimit) :
    Chunk.Builds (e.emit heap chunk)
      (fun _ next => chunk.Extends next (e.term chunk.constants.size).code e.literals)
      (fun _ => True) := by
  induction e generalizing chunk with
  | literal x line =>
      apply (Chunk.writeConstant_builds h heap (.number x) line).bind
      intro _ next hNext
      rw [term, Term.code_load, Load.instruction_ofIndex h]
      exact .inl ⟨(), next, rfl, hNext⟩
  | negate operand line ih =>
      apply (ih h).bind
      intro _ middle hMiddle
      refine (Chunk.writeOpcode_builds heap .negate line middle).imp ?_ (fun _ => id)
      intro _ next hNext
      have hBoth := hMiddle.trans hNext
      rw [List.append_nil] at hBoth
      rw [term, Term.code_negate]
      exact hBoth
  | binary operator left right line ihLeft ihRight =>
      rw [literals, List.length_append, ← Nat.add_assoc] at h
      have hLeftRoom : chunk.constants.size + left.literals.length ≤ Chunk.constantLimit := by
        omega
      apply (ihLeft hLeftRoom).bind
      intro _ first hFirst
      rw [← hFirst.constants_size] at h
      apply (ihRight h).bind
      intro _ second hSecond
      refine (Chunk.writeOpcode_builds heap operator.opcode line second).imp ?_ (fun _ => id)
      intro _ next hNext
      have hAll := (hFirst.trans hSecond).trans hNext
      rw [List.append_nil, hFirst.constants_size] at hAll
      rw [term, Term.code_binary]
      exact hAll

/-- An expression is emitted as the code of its term and a return, its literals in order. -/
theorem emitProgram_builds (heap : Allocator) {e : Expression} (line : Nat) {chunk : Chunk}
    (h : chunk.constants.size + e.literals.length ≤ Chunk.constantLimit) :
    Chunk.Builds (e.emitProgram heap line chunk)
      (fun _ next =>
        chunk.Extends next ((e.term chunk.constants.size).code ++ [Opcode.ret.byte]) e.literals)
      (fun _ => True) := by
  apply (emit_builds heap h).bind
  intro _ middle hMiddle
  refine (Chunk.writeOpcode_builds heap .ret line middle).imp ?_ (fun _ => id)
  intro _ next hNext
  have hBoth := hMiddle.trans hNext
  rw [List.append_nil] at hBoth
  exact hBoth

end Expression

end StackMachine
