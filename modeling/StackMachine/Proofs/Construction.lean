import Mathlib.Algebra.GroupWithZero.Nat
import StackMachine.Proofs.Building

/-! Chunks as results of building steps. A step has its effect on the contents or leaves them as
they are, so whatever the effects preserve holds of every chunk that can be built. -/
namespace StackMachine

inductive BuildStep where
  | write (byte : UInt8) (line : Nat)
  | writeOpcode (opcode : Opcode) (line : Nat)
  | addConstant (value : Value)
  | writeConstant (value : Value) (line : Nat)
  | release
  /-- Go on with a copy. It has the contents and the capacities of the chunk. -/
  | copy

namespace Chunk

/-- Every byte has a line. -/
def Contents.InStep (contents : Contents) : Prop :=
  contents.lines.length = contents.code.length

/-- Nothing is lost: what was there comes first, in all three buffers. -/
structure Contents.GrowsTo (before after : Contents) : Prop where
  code : before.code <+: after.code
  lines : before.lines <+: after.lines
  constants : before.constants <+: after.constants

theorem Contents.GrowsTo.refl (contents : Contents) : contents.GrowsTo contents :=
  ⟨List.prefix_rfl, List.prefix_rfl, List.prefix_rfl⟩

theorem Contents.GrowsTo.trans {first second third : Contents} (h : first.GrowsTo second)
    (h' : second.GrowsTo third) : first.GrowsTo third :=
  ⟨h.code.trans h'.code, h.lines.trans h'.lines, h.constants.trans h'.constants⟩

theorem Contents.inStep_emit {contents : Contents} (h : contents.InStep) (line : Nat)
    (bytes : List UInt8) : (contents.emit line bytes).InStep := by
  unfold InStep at h ⊢
  simp only [emit, List.length_append, List.length_replicate, h]

/-- With lines in step with the code, every byte has one. -/
theorem Contents.InStep.exists_lineAt? {chunk : Chunk} (h : chunk.contents.InStep) {offset : Nat}
    (hInside : offset < chunk.size) : ∃ line, chunk.lineAt? offset = some line := by
  have hLines : chunk.lines.items.size = chunk.size := h
  exact ⟨_, Array.getElem?_eq_getElem (hLines.symm ▸ hInside)⟩

theorem Contents.growsTo_emit (contents : Contents) (line : Nat) (bytes : List UInt8) :
    contents.GrowsTo (contents.emit line bytes) :=
  ⟨List.prefix_append _ _, List.prefix_append _ _, List.prefix_rfl⟩

theorem Contents.growsTo_learn (contents : Contents) (value : Value) :
    contents.GrowsTo (contents.learn value) :=
  ⟨List.prefix_rfl, List.prefix_rfl, List.prefix_append _ _⟩

/-- A step without an answer is done or has changed nothing. -/
theorem AllOrNothing.ok_or_error {before after : Contents}
    {result : EStateM.Result BuildError Chunk Unit}
    (h : AllOrNothing before result (fun _ next => next.contents = after)) :
    (∃ next, result = .ok () next ∧ next.contents = after) ∨
      ∃ error next, result = .error error next ∧ next.contents = before := by
  rcases h with ⟨_, next, hOk, hNext⟩ | ⟨requested, next, hError, hNext⟩
  · exact .inl ⟨next, hOk, hNext⟩
  · exact .inr ⟨.outOfMemory requested, next, hError, hNext⟩

end Chunk

namespace BuildStep

open Chunk (Contents)

def perform (heap : Allocator) : BuildStep → Build Chunk Unit
  | .write byte line => Chunk.write heap byte line
  | .writeOpcode opcode line => Chunk.writeOpcode heap opcode line
  | .addConstant value => do let _ ← Chunk.addConstant heap value
  | .writeConstant value line => do let _ ← Chunk.writeConstant heap value line
  | .release => Chunk.release
  | .copy => pure ()

/-- The chunk that is there after a step, whether the step has succeeded or failed. -/
def leave (heap : Allocator) (step : BuildStep) (chunk : Chunk) : Chunk :=
  match step.perform heap chunk with
  | .ok _ next => next
  | .error _ next => next

def effect : BuildStep → Contents → Contents
  | .write byte line, contents => contents.emit line [byte]
  | .writeOpcode opcode line, contents => contents.emit line [opcode.byte]
  | .addConstant value, contents => contents.learn value
  | .writeConstant value line, contents =>
    (contents.learn value).emit line (Instruction.load contents.constants.length).encode
  | .release, _ => ⟨[], [], []⟩
  | .copy, contents => contents

/-- All steps but the release keep what is there. -/
def Keeps : BuildStep → Prop
  | .release => False
  | _ => True

/-- A step that fails for want of memory, or of an index for a constant, changes nothing. -/
theorem perform_cases (heap : Allocator) (step : BuildStep) (chunk : Chunk) :
    (∃ next, step.perform heap chunk = .ok () next ∧
      next.contents = step.effect chunk.contents) ∨
    ∃ error next, step.perform heap chunk = .error error next ∧
      next.contents = chunk.contents := by
  cases step with
  | write byte line => exact (Chunk.write_allOrNothing heap byte line chunk).ok_or_error
  | writeOpcode opcode line =>
      exact (Chunk.write_allOrNothing heap opcode.byte line chunk).ok_or_error
  | addConstant value =>
      apply Chunk.AllOrNothing.ok_or_error
      apply (Chunk.addConstant_allOrNothing heap value chunk).bind
      rintro _ next ⟨-, hNext⟩
      exact .inl ⟨(), next, rfl, hNext⟩
  | writeConstant value line =>
      by_cases hFull : Chunk.constantLimit ≤ chunk.constants.size
      · refine .inr ⟨.tooManyConstants Chunk.constantLimit, chunk, ?_, rfl⟩
        simp only [perform, bind, EStateM.bind, Chunk.writeConstant_of_full hFull]
      · apply Chunk.AllOrNothing.ok_or_error
        apply (Chunk.writeConstant_allOrNothing (Nat.lt_of_not_le hFull) heap value line).bind
        rintro _ next ⟨-, hNext⟩
        exact .inl ⟨(), next, rfl, hNext⟩
  | release => exact .inl ⟨_, rfl, rfl⟩
  | copy => exact .inl ⟨_, rfl, rfl⟩

/-- Each call of the builder has its effect on the contents, or none. -/
theorem contents_leave (heap : Allocator) (step : BuildStep) (chunk : Chunk) :
    (step.leave heap chunk).contents = step.effect chunk.contents ∨
      (step.leave heap chunk).contents = chunk.contents := by
  unfold leave
  rcases step.perform_cases heap chunk with ⟨next, hOk, hNext⟩ | ⟨error, next, hError, hNext⟩
  · rw [hOk]
    exact .inl hNext
  · rw [hError]
    exact .inr hNext

/-- No call brings the lines out of step with the code. -/
theorem inStep_effect {contents : Contents} (step : BuildStep) (h : contents.InStep) :
    (step.effect contents).InStep := by
  cases step with
  | write byte line => exact Contents.inStep_emit h line [byte]
  | writeOpcode opcode line => exact Contents.inStep_emit h line [opcode.byte]
  | addConstant value => exact h
  | writeConstant value line =>
      have hLearned : (contents.learn value).InStep := h
      exact Contents.inStep_emit hLearned line _
  | release => rfl
  | copy => exact h

/-- Every call but the releasing one only adds. -/
theorem growsTo_effect {step : BuildStep} (h : step.Keeps) (contents : Contents) :
    contents.GrowsTo (step.effect contents) := by
  cases step with
  | write byte line => exact contents.growsTo_emit line [byte]
  | writeOpcode opcode line => exact contents.growsTo_emit line [opcode.byte]
  | addConstant value => exact contents.growsTo_learn value
  | writeConstant value line =>
      exact (contents.growsTo_learn value).trans (Contents.growsTo_emit _ line _)
  | release => exact absurd h id
  | copy => exact .refl contents

end BuildStep

namespace Chunk

/-- A chunk comes from another one by steps of an allowed kind. Each of them may succeed or fail,
and each may meet another allocator. -/
inductive Reaches (allowed : BuildStep → Prop) (start : Chunk) : Chunk → Prop where
  | start : Reaches allowed start start
  | step {chunk : Chunk} (prior : Reaches allowed start chunk) (heap : Allocator)
      {step : BuildStep} (hAllowed : allowed step) :
      Reaches allowed start (step.leave heap chunk)

def Reachable (chunk : Chunk) : Prop :=
  Reaches (fun _ => True) empty chunk

/-- A chunk that another one becomes while nothing is released. -/
def BuildsUpTo (before after : Chunk) : Prop :=
  Reaches BuildStep.Keeps before after

def afterSteps (heap : Allocator) (steps : List BuildStep) (chunk : Chunk) : Chunk :=
  steps.foldl (fun chunk step => step.leave heap chunk) chunk

theorem Reaches.afterSteps {allowed : BuildStep → Prop} {start chunk : Chunk}
    (h : Reaches allowed start chunk) (heap : Allocator) {steps : List BuildStep}
    (hAllowed : ∀ step ∈ steps, allowed step) :
    Reaches allowed start (chunk.afterSteps heap steps) := by
  induction steps generalizing chunk with
  | nil => exact h
  | cons step rest ih =>
      rw [List.forall_mem_cons] at hAllowed
      exact ih (h.step heap hAllowed.1) hAllowed.2

/-- However a chunk is reached, its lines stay in step. -/
theorem Reaches.inStep {allowed : BuildStep → Prop} {start chunk : Chunk}
    (h : Reaches allowed start chunk) (hStart : start.contents.InStep) :
    chunk.contents.InStep := by
  induction h with
  | start => exact hStart
  | @step chunk prior heap step hAllowed ih =>
      rcases step.contents_leave heap chunk with hDone | hSame
      · rw [hDone]
        exact step.inStep_effect ih
      · rw [hSame]
        exact ih

theorem Reachable.inStep {chunk : Chunk} (h : chunk.Reachable) : chunk.contents.InStep :=
  Reaches.inStep h rfl

/-- Building on keeps all bytes, lines and constants where they are. -/
theorem BuildsUpTo.growsTo {before after : Chunk} (h : before.BuildsUpTo after) :
    before.contents.GrowsTo after.contents := by
  induction h with
  | start => exact .refl _
  | @step chunk prior heap step hAllowed ih =>
      rcases step.contents_leave heap chunk with hDone | hSame
      · rw [hDone]
        exact ih.trans (step.growsTo_effect hAllowed chunk.contents)
      · rw [hSame]
        exact ih

theorem length_encode_load (index : Nat) :
    (Instruction.load index).encode.length = 2 ∨ (Instruction.load index).encode.length = 4 := by
  rw [Instruction.length_encode]
  unfold Instruction.load
  split
  · exact .inl rfl
  · exact .inr rfl

/-- Every building step has its whole effect or none at all. Code and lines stay in step. A step
is decided by the reservations that it begins with, however they are answered: once they are
granted no append can fail, and before that nothing has been appended. Only a constant that
would have no index in three bytes is refused for another reason. -/
theorem building_is_all_or_nothing :
    (∀ chunk : Chunk, chunk.Reachable → chunk.lines.size = chunk.code.size) ∧
    (∀ (heap : Allocator) (chunk : Chunk),
      (∀ byte line,
        DecidedBy (makeRoom heap heap 1) (write heap byte line) chunk
          (fun _ next => next.contents = chunk.contents.emit line [byte])) ∧
      (∀ opcode line,
        DecidedBy (makeRoom heap heap 1) (writeOpcode heap opcode line) chunk
          (fun _ next => next.contents = chunk.contents.emit line [opcode.byte])) ∧
      (∀ value,
        DecidedBy (onConstants (Buffer.reserveOne heap)) (addConstant heap value) chunk
          (fun index next => index = chunk.constants.size ∧
            next.contents = chunk.contents.learn value)) ∧
      ∀ value line,
        (2 ^ 24 ≤ chunk.constants.size →
          writeConstant heap value line chunk = .error (.tooManyConstants (2 ^ 24)) chunk) ∧
        (chunk.constants.size < 2 ^ 24 →
          let bytes := (Instruction.load chunk.constants.size).encode
          (bytes.length = 2 ∨ bytes.length = 4) ∧
            DecidedBy (makeRoomForLoad heap heap heap bytes.length)
              (writeConstant heap value line) chunk
              (fun index next => index = chunk.constants.size ∧
                next.contents = (chunk.contents.learn value).emit line bytes))) ∧
    ∀ (forPool forCode forLines later : Allocator) (value : Value) (line : Nat)
      (bytes : List UInt8) (chunk : Chunk),
      DecidedBy (makeRoomForLoad forPool forCode forLines bytes.length)
        (makeRoomForLoad forPool forCode forLines bytes.length >>= fun _ =>
          appendLoad later value line bytes) chunk
        (fun _ next => next.contents = (chunk.contents.learn value).emit line bytes) := by
  refine ⟨fun chunk hReachable => hReachable.inStep, fun heap chunk => ?_, appendLoad_decided⟩
  refine ⟨fun byte line => write_decided heap byte line chunk,
    fun opcode line => write_decided heap opcode.byte line chunk,
    fun value => addConstant_decided heap value chunk, fun value line => ⟨fun hFull => ?_,
    fun hRoom => ?_⟩⟩
  · exact writeConstant_of_full hFull heap value line
  · exact ⟨length_encode_load chunk.constants.size, writeConstant_decided hRoom heap value line⟩

/-- Grants a first reservation of bytes, and none of lines. -/
def scarce : Allocator where
  grants bytes := decide (bytes < 64)

/-- A write that gets room for its byte but not for its line leaves an empty chunk, to which a
constant can be written. A pool without an index to spare takes no other constant. -/
theorem write_without_line_leaves_no_byte :
    let left := (BuildStep.write 1 7).leave scarce empty
    left.code.capacity = 8 ∧ left.lines.size = left.code.size ∧
      (∃ next, writeConstant .standard (.number 1) 7 left = .ok 0 next ∧
        next.contents = ⟨[0, 0], [7, 7], [.number 1]⟩) ∧
      let full : Chunk := ⟨.empty, .empty, ⟨Array.replicate (2 ^ 24) (.number 0), 2 ^ 24⟩⟩
      writeConstant .standard (.number 1) 7 full = .error (.tooManyConstants (2 ^ 24)) full := by
  have hLeft : (BuildStep.write 1 7).leave scarce empty = ⟨⟨#[], 8⟩, .empty, .empty⟩ := by cbv
  have hInStep := building_is_all_or_nothing.1 ((BuildStep.write 1 7).leave scarce empty)
    (.step .start scarce trivial)
  rw [hLeft] at hInStep ⊢
  have hMemory : ¬RanOutOfMemory
      (writeConstant .standard (.number 1) 7 ⟨⟨#[], 8⟩, .empty, .empty⟩) := by
    decide +kernel
  refine ⟨rfl, hInStep, ?_, ?_⟩
  · have hWrite := (building_is_all_or_nothing.2.1 .standard ⟨⟨#[], 8⟩, .empty, .empty⟩).2.2.2
      (.number 1) 7
    have hDecided := (hWrite.2 (by decide)).2
    obtain ⟨_, next, hOk, rfl, hNext⟩ := hDecided.allOrNothing.of_memory hMemory
    exact ⟨next, hOk, hNext⟩
  · refine ((building_is_all_or_nothing.2.1 .standard _).2.2.2 (.number 1) 7).1 ?_
    exact Nat.le_of_eq Array.size_replicate.symm

end Chunk

end StackMachine
