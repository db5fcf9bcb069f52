import StackMachine.CommandLine.Session
import StackMachine.Proofs.Evaluation

/-! The demonstration programs are the programs of two expressions. They ask for storage of four
sizes only, and what is built with less is built in the same way with more. -/
namespace StackMachine

/-- Grants whatever another allocator grants. -/
def Allocator.Covers (more less : Allocator) : Prop :=
  ∀ bytes, less.grants bytes = true → more.grants bytes = true

/-- The second build succeeds wherever the first one does, and in the same way. -/
def Build.Within {σ α : Type} (first second : Build σ α) : Prop :=
  ∀ s a next, first s = .ok a next → second s = .ok a next

namespace Build.Within

variable {σ α β : Type}

theorem refl (act : Build σ α) : Within act act := fun _ _ _ h => h

theorem bind {first first' : Build σ α} {second second' : α → Build σ β}
    (h : Within first first') (hNext : ∀ a, Within (second a) (second' a)) :
    Within (first >>= second) (first' >>= second') := by
  intro s b last hOk
  simp only [Bind.bind, EStateM.bind] at hOk ⊢
  cases hFirst : first s with
  | error e left =>
      rw [hFirst] at hOk
      cases hOk
  | ok a middle =>
      rw [hFirst] at hOk
      rw [h s a middle hFirst]
      exact hNext a middle b last hOk

/-- Acting on a part of the state alone. -/
theorem onPart {τ : Type} {first second : Build σ α} (h : Within first second)
    {lift : Build σ α → Build τ α} (part : τ → σ) (update : τ → σ → τ)
    (hLift : ∀ act s, lift act s =
      match act (part s) with
      | .ok a x => .ok a (update s x)
      | .error e x => .error e (update s x)) : Within (lift first) (lift second) := by
  intro s a next hOk
  rw [hLift] at hOk ⊢
  cases hFirst : first (part s) with
  | error e left =>
      rw [hFirst] at hOk
      cases hOk
  | ok b x =>
      rw [hFirst] at hOk
      rw [h (part s) b x hFirst]
      exact hOk

end Build.Within

namespace Chunk

variable {α : Type}

theorem onCode_within {first second : Build (Buffer UInt8) α} (h : Build.Within first second) :
    Build.Within (onCode first) (onCode second) := by
  refine h.onPart code (fun chunk code => { chunk with code := code }) fun act chunk => ?_
  simp only [onCode]
  cases act chunk.code <;> rfl

theorem onLines_within {first second : Build (Buffer Nat) α} (h : Build.Within first second) :
    Build.Within (onLines first) (onLines second) := by
  refine h.onPart lines (fun chunk lines => { chunk with lines := lines }) fun act chunk => ?_
  simp only [onLines]
  cases act chunk.lines <;> rfl

theorem onConstants_within {first second : Build ConstantPool α}
    (h : Build.Within first second) : Build.Within (onConstants first) (onConstants second) := by
  refine h.onPart constants (fun chunk constants => { chunk with constants := constants })
    fun act chunk => ?_
  simp only [onConstants]
  cases act chunk.constants <;> rfl

end Chunk

section Covers

variable {less more : Allocator} (h : more.Covers less)

include h

/-- A reservation granted by the lesser allocator is granted by the greater, with one result. -/
theorem Buffer.reserve_within {α : Type} [SlotSize α] (additional : Nat) :
    Build.Within (Buffer.reserve (α := α) less additional) (Buffer.reserve more additional) := by
  intro b a next hOk
  unfold Buffer.reserve at hOk ⊢
  dsimp only at hOk ⊢
  by_cases hRoom : b.items.size + additional ≤ b.capacity
  · rw [if_pos hRoom] at hOk ⊢
    exact hOk
  · rw [if_neg hRoom] at hOk ⊢
    cases hCapacity : capacityFor (b.items.size + additional) b.capacity with
    | none =>
        rw [hCapacity] at hOk
        cases hOk
    | some requested =>
        simp only [hCapacity] at hOk
        cases hGranted : less.grants (requested * SlotSize.bytes α) with
        | false =>
            rw [hGranted] at hOk
            cases hOk
        | true =>
            rw [hGranted] at hOk
            simp only [h _ hGranted]
            exact hOk

theorem Buffer.append_within {α : Type} [SlotSize α] (x : α) :
    Build.Within (Buffer.append less x) (Buffer.append more x) :=
  (reserve_within h 1).bind fun _ => .refl _

namespace Chunk

theorem append_within (line : Nat) (byte : UInt8) :
    Build.Within (append less line byte) (append more line byte) :=
  (onCode_within (Buffer.append_within h byte)).bind fun _ =>
    (onLines_within (Buffer.append_within h line)).bind fun _ => .refl _

theorem write_within (byte : UInt8) (line : Nat) :
    Build.Within (write less byte line) (write more byte line) :=
  (onCode_within (Buffer.reserve_within h 1)).bind fun _ =>
    (onLines_within (Buffer.reserve_within h 1)).bind fun _ => append_within h line byte

theorem addConstant_within (value : Value) :
    Build.Within (addConstant less value) (addConstant more value) :=
  onConstants_within (Buffer.append_within h value)

theorem forM_append_within (line : Nat) (bytes : List UInt8) :
    Build.Within (bytes.forM (append less line)) (bytes.forM (append more line)) := by
  induction bytes with
  | nil => exact .refl _
  | cons byte rest ih => exact (append_within h line byte).bind fun _ => ih

/-- A constant written on the lesser allocator is written alike on the greater. -/
theorem writeConstant_within (value : Value) (line : Nat) :
    Build.Within (writeConstant less value line) (writeConstant more value line) := by
  refine (Build.Within.refl get).bind fun chunk => ?_
  dsimp only
  split
  · exact .refl _
  · exact (onConstants_within (Buffer.reserve_within h _)).bind fun _ =>
      (onCode_within (Buffer.reserve_within h _)).bind fun _ =>
      (onLines_within (Buffer.reserve_within h _)).bind fun _ =>
      (addConstant_within h value).bind fun _ =>
      (forM_append_within h line _).bind fun _ => .refl _

end Chunk

end Covers

namespace CommandLine.Demo

def expression : Demo → Expression
  | .constant => .literal 1.2 line
  | .arithmetic =>
    .negate
      (.binary .divide
        (.binary .add (.literal 1.2 line) (.literal 3.4 line) line) (.literal 5.6 line) line)
      line

/-- Grants the sizes that the demonstration programs ask for, and no others. -/
def leastHeap : Allocator where
  grants bytes := [8, 16, 64, 128].contains bytes

/-- The calls of the arithmetic program are those that emit its expression. -/
theorem writeArithmeticProgram_eq (heap : Allocator) :
    writeArithmeticProgram heap = arithmetic.expression.emitProgram heap line := by
  simp only [writeArithmeticProgram, expression, Expression.emitProgram, Expression.emit,
    Operator.opcode, bind_assoc, pure_bind]

/-- The bytes that are written by hand are those of the load in its short form. -/
theorem writeConstantProgram_builds (heap : Allocator) :
    Chunk.Builds (writeConstantProgram heap .empty)
      (fun _ next => Chunk.empty.Extends next
        ((constant.expression.term 0).code ++ [Opcode.ret.byte]) constant.expression.literals)
      (fun _ => True) := by
  apply (Chunk.addConstant_builds heap (.number 1.2) .empty).bind
  rintro _ first ⟨rfl, hFirst⟩
  apply (Chunk.writeOpcode_builds heap .constant line first).bind
  intro _ second hSecond
  apply (Chunk.write_builds heap (UInt8.ofNat Chunk.empty.constants.size) line second).bind
  intro _ third hThird
  refine (Chunk.writeOpcode_builds heap .ret line third).imp ?_ (fun _ => id)
  intro _ last hLast
  exact ((hFirst.trans hSecond).trans hThird).trans hLast

/-- A demonstration program has the code and the constants of the program of its expression. -/
theorem build_builds (heap : Allocator) (demo : Demo) :
    Chunk.Builds (demo.build heap)
      (fun _ next => Chunk.empty.Extends next
        ((demo.expression.term 0).code ++ [Opcode.ret.byte]) demo.expression.literals)
      (fun _ => True) := by
  cases demo with
  | constant => exact writeConstantProgram_builds heap
  | arithmetic =>
      rw [build, writeArithmeticProgram_eq]
      exact Expression.emitProgram_builds heap line (by decide)

/-- What the least allocator builds, every allocator builds that grants as much. -/
theorem build_eq_ok {heap : Allocator} (h : heap.Covers leastHeap) {demo : Demo} {chunk : Chunk}
    (hBuild : demo.build leastHeap = .ok () chunk) : demo.build heap = .ok () chunk := by
  have hOpcode (opcode : Opcode) : Build.Within (Chunk.writeOpcode leastHeap opcode line)
      (Chunk.writeOpcode heap opcode line) := Chunk.write_within h opcode.byte line
  have hConstant (x : Float) : Build.Within (Chunk.writeConstant leastHeap (.number x) line)
      (Chunk.writeConstant heap (.number x) line) := Chunk.writeConstant_within h _ line
  cases demo with
  | constant =>
      have hProgram : Build.Within (writeConstantProgram leastHeap) (writeConstantProgram heap) :=
        (Chunk.addConstant_within h _).bind fun _ => (hOpcode _).bind fun _ =>
          (Chunk.write_within h _ line).bind fun _ => hOpcode _
      exact hProgram _ _ _ hBuild
  | arithmetic =>
      have hProgram :
          Build.Within (writeArithmeticProgram leastHeap) (writeArithmeticProgram heap) :=
        (hConstant _).bind fun _ => (hConstant _).bind fun _ => (hOpcode _).bind fun _ =>
          (hConstant _).bind fun _ => (hOpcode _).bind fun _ => (hOpcode _).bind fun _ => hOpcode _
      exact hProgram _ _ _ hBuild

/-- An allocator that grants the sizes that are asked for lets the program be built. The chunk is
always the same. -/
theorem exists_build (demo : Demo) :
    ∃ chunk,
      (∀ heap : Allocator, heap.Covers leastHeap → demo.build heap = .ok () chunk) ∧
      chunk.code.toList = (demo.expression.term 0).code ++ [Opcode.ret.byte] ∧
      (demo.expression.term 0).value? chunk.constants =
        some (.number demo.expression.eval) := by
  have hMemory : ¬Chunk.RanOutOfMemory (demo.build leastHeap) := by
    cases demo <;> decide +kernel
  have hLiterals : 0 + demo.expression.literals.length ≤ Chunk.constantLimit := by
    cases demo <;> decide
  obtain ⟨_, chunk, hBuild, hExtends⟩ := (demo.build_builds leastHeap).of_memory hMemory
  have hPool : Carries chunk.constants.items 0 demo.expression.literals :=
    carries_of_toList_eq hExtends.constants
  exact ⟨chunk, fun _ h => build_eq_ok h hBuild, hExtends.code,
    Expression.value?_term hPool hLiterals⟩

end CommandLine.Demo

end StackMachine
