import Mathlib.Data.List.Forall2
import Mathlib.Data.List.Infix
import StackMachine.Proofs.Construction
import StackMachine.Proofs.Overflows

/-! Runs of a chunk that is built further. It begins with the bytes, lines and constants that were
there before, so a run takes the same way until it leaves them. Only a run that has stopped for
want of code or constants can go on. -/
namespace StackMachine

section Prefix

variable {α : Type} {a b : Array α}

/-- Code that only grew carries what it carried. -/
theorem Carries.mono {offset : Nat} {expected : List α} (h : Carries a offset expected)
    (hPrefix : a.toList <+: b.toList) : Carries b offset expected :=
  h.trans (hPrefix.drop offset)

theorem getElem?_mono {k : Nat} {item : α} (h : a[k]? = some item)
    (hPrefix : a.toList <+: b.toList) : b[k]? = some item := by
  have hCarries : Carries a k [item] := carries_cons_iff.mpr ⟨h, List.nil_prefix⟩
  exact (carries_cons_iff.mp (hCarries.mono hPrefix)).1

end Prefix

/-- A fault that neither more code nor more constants can cure. -/
def FaultKind.Settled : FaultKind → Prop
  | .invalidOpcode _ | .stackUnderflow | .stackOverflow => True
  | .invalidConstant _ | .truncatedInstruction | .unexpectedEndOfCode => False

/-- An instruction that does not stop for want of code or constants. -/
def Effect.Settled : Effect → Prop
  | .continues _ | .returns => True
  | .faults kind => kind.Settled

/-- Nothing is missing from a row: the operand is complete, and the constant is there. -/
def RowContent.Complete : RowContent → Prop
  | .truncated _ | .constant _ _ none => False
  | .simple _ | .constant _ _ (some _) | .unknown _ => True

/-- Only a row with all its operand bytes can settle a run. -/
theorem RowContent.complete_of_settled {content : RowContent} {limit : Nat}
    {values : List Value} (h : (content.effect limit values).Settled) : content.Complete := by
  cases content with
  | simple opcode => trivial
  | constant opcode index value =>
      cases value with
      | none => exact h
      | some value => trivial
  | truncated opcode => exact h
  | unknown byte => trivial

/-- A row stops for another reason than the end of the code. -/
theorem RowContent.effect_ne_endOfCode (content : RowContent) (limit : Nat)
    (values : List Value) : content.effect limit values ≠ .faults .unexpectedEndOfCode := by
  intro h
  unfold RowContent.effect Opcode.effect Effect.unary Effect.binary Effect.push at h
  repeat' split at h
  all_goals cases h

namespace Chunk.Contents.GrowsTo

variable {a b : Chunk} (hGrows : a.contents.GrowsTo b.contents)

include hGrows

/-- What decoded once decodes alike in the grown chunk. -/
theorem decode_eq_ok {offset : Nat} {i : Instruction}
    (h : Instruction.decode a.code.toArray offset = .ok i) :
    Instruction.decode b.code.toArray offset = .ok i := by
  obtain ⟨hForm, hCarries⟩ := Instruction.decode_eq_ok_iff.mp h
  exact Instruction.decode_eq_ok_iff.mpr ⟨hForm, hCarries.mono hGrows.code⟩

/-- A byte that is no opcode remains none. -/
theorem decode_eq_unknown {offset : Nat} {byte : UInt8}
    (h : Instruction.decode a.code.toArray offset = .error (.unknown byte)) :
    Instruction.decode b.code.toArray offset = .error (.unknown byte) := by
  obtain ⟨hByte, hUnknown⟩ := Instruction.decode_eq_unknown_iff.mp h
  exact Instruction.decode_eq_unknown_iff.mpr
    ⟨getElem?_mono hByte hGrows.code, hUnknown⟩

/-- A load that finds its constant finds the same one later. -/
theorem contentOf_eq {i : Instruction} (h : (Row.contentOf a i).Complete) :
    Row.contentOf b i = Row.contentOf a i := by
  obtain ⟨opcode, operand⟩ := i
  cases operand with
  | none => rfl
  | some operand =>
      cases hValue : a.constant? operand.toNat with
      | none =>
          simp only [Row.contentOf, hValue] at h
          exact absurd h id
      | some value =>
          have hLater : b.constant? operand.toNat = some value :=
            getElem?_mono hValue hGrows.constants
          simp only [Row.contentOf, hValue, hLater]

variable (hInStep : a.contents.InStep)

include hInStep

theorem lineAt?_eq {offset : Nat} (h : offset < a.size) :
    ∃ line, a.lineAt? offset = some line ∧ b.lineAt? offset = some line := by
  obtain ⟨line, hLine⟩ := hInStep.exists_lineAt? h
  exact ⟨line, hLine, getElem?_mono hLine hGrows.lines⟩

/-- The line of a fault inside the code is the one that is recorded for its offset. -/
theorem faultLine?_eq {offset : Nat} (h : offset < a.size) :
    Machine.faultLine? b offset = Machine.faultLine? a offset := by
  obtain ⟨line, hBefore, hAfter⟩ := hGrows.lineAt?_eq hInStep h
  simp only [Machine.faultLine?, hBefore, hAfter, Option.some_or]

/-- A row from which nothing is missing stays as it is. -/
theorem at?_eq_some {offset : Nat} {row : Row} (h : Row.at? a offset = some row)
    (hComplete : row.content.Complete) : Row.at? b offset = some row := by
  have hMark : Row.lineMark b offset = Row.lineMark a offset := by
    obtain ⟨line, hBefore, hAfter⟩ := hGrows.lineAt?_eq hInStep (Row.lt_size_of_at? h)
    simp only [Row.lineMark, hBefore, hAfter]
  rcases Row.at?_eq_some_iff.mp h with
    ⟨i, hDecode, rfl⟩ | ⟨byte, hDecode, rfl⟩ | ⟨opcode, -, rfl⟩
  · refine Row.at?_eq_some_iff.mpr (.inl ⟨i, hGrows.decode_eq_ok hDecode, ?_⟩)
    rw [hMark, hGrows.contentOf_eq hComplete]
  · refine Row.at?_eq_some_iff.mpr (.inr (.inl ⟨byte, hGrows.decode_eq_unknown hDecode, ?_⟩))
    rw [hMark]
  · exact absurd hComplete id

/-- The row of an instruction that does not stop for want of anything stays as it is. -/
theorem at?_of_settled {offset limit : Nat} {row : Row} {values : List Value} {effect : Effect}
    (hRow : Row.at? a offset = some row) (hEffect : row.content.effect limit values = effect)
    (hSettled : effect.Settled) : Row.at? b offset = some row := by
  rw [← hEffect] at hSettled
  exact hGrows.at?_eq_some hInStep hRow (RowContent.complete_of_settled hSettled)

variable {limit : Nat} {p q : Position}

/-- A step that was possible is possible in the grown chunk. -/
theorem advances (h : Advances a limit p q) : Advances b limit p q := by
  obtain ⟨row, hRow, hEffect, hNext⟩ := h
  exact ⟨row, hGrows.at?_of_settled hInStep hRow hEffect trivial, hEffect, hNext⟩

theorem runsFor {steps : Nat} (run : RunsFor a limit p q steps) :
    RunsFor b limit p q steps := by
  induction run with
  | zero => exact .zero p
  | succ prior last ih => exact .succ ih (hGrows.advances hInStep last)

/-- An ending that is settled is reached again. -/
theorem ending_eq
    (hSettled : ∀ fault, (a.ending limit).fault = some fault → fault.2.Settled) :
    b.ending limit = a.ending limit := by
  obtain ⟨q, steps, run, hStops⟩ := exists_run_to_ending a limit
  refine ending_of_stops (hGrows.runsFor hInStep run) ?_
  generalize a.ending limit = ending at hSettled hStops
  cases hStops with
  | outOfCode => exact absurd (hSettled _ rfl) id
  | returned hRow hEffect =>
      exact .returned (hGrows.at?_of_settled hInStep hRow hEffect trivial) hEffect
  | faulted hRow hEffect =>
      exact .faulted (hGrows.at?_of_settled hInStep hRow hEffect (hSettled _ rfl)) hEffect

end Chunk.Contents.GrowsTo

/-- A fault that growth cannot mend happened inside the code. -/
theorem offset_lt_of_settled {chunk : Chunk} {limit : Nat} {fault : Nat × FaultKind}
    (h : (chunk.ending limit).fault = some fault) (hSettled : fault.2.Settled) :
    fault.1 < chunk.size := by
  obtain ⟨values, steps, -, ⟨-, hKind⟩ | ⟨row, hRow, -⟩⟩ := exists_run_to_fault h
  · rw [hKind] at hSettled
    exact absurd hSettled id
  · exact Row.lt_size_of_at? hRow

theorem RunsFor.start_le {chunk : Chunk} {limit : Nat} {p q : Position} {steps : Nat}
    (run : RunsFor chunk limit p q steps) : p.ip ≤ q.ip := by
  induction run with
  | zero => exact Nat.le_refl p.ip
  | succ prior last ih => exact Nat.le_of_lt (Nat.lt_of_le_of_lt ih last.ip_lt.1)

namespace Machine

/-- The machine executes instructions one after the other, none of which ends the program. Each
is listed with the machine that it leaves. -/
inductive Follows (chunk : Chunk) (start : Machine) :
    List (Instruction × Machine) → Machine → Prop where
  | start : Follows chunk start [] start
  | step {trail : List (Instruction × Machine)} {m next : Machine} {i : Instruction}
      (prior : Follows chunk start trail m) (hRunning : m.halted = false)
      (hDecode : Instruction.decode chunk.code.toArray m.ip = .ok i)
      (hStep : Machine.step chunk m = .ok () next) :
      Follows chunk start (trail ++ [(i, next)]) next

/-- The last thing that happens in a run: a return is executed, which gives the machine that the
run leaves, or the instruction at the pointer cannot be executed, which is the fault. -/
def EndsAt (m : Machine) (chunk : Chunk) (last : Machine) : Prop :=
  last.halted = false ∧
    (((m.run chunk).fault = none ∧
        Instruction.decode chunk.code.toArray last.ip = .ok ⟨.ret, none⟩ ∧
        step chunk last = .ok () (m.run chunk).machine) ∨
      ∃ fault stopped, (m.run chunk).fault = some fault ∧ fault.offset = last.ip ∧
        step chunk last = .error fault.kind stopped)

/-- Two machines that are about to do the same. Their configurations and the slots of their stacks
may differ. -/
structure Alike (m n : Machine) : Prop where
  ip : m.ip = n.ip
  values : m.stack.values = n.stack.values
  halted : m.halted = n.halted

/-- The same instructions are executed with the same effects. -/
def SameTrail (first second : List (Instruction × Machine)) : Prop :=
  List.Forall₂ (fun done other => done.1 = other.1 ∧ done.2.Alike other.2) first second

theorem StandsAt.alike {m n state other : Machine} {p : Position} (h : m.StandsAt p state)
    (h' : n.StandsAt p other) : state.Alike other :=
  ⟨h.ip.trans h'.ip.symm, h.values.trans h'.values.symm, h.running.trans h'.running.symm⟩

/-- A trail is prolonged by the instruction that decodes at its end. -/
theorem Follows.advance {chunk : Chunk} {begun start m : Machine}
    {trail : List (Instruction × Machine)} {p q : Position} (prior : Follows chunk begun trail m)
    (hAt : start.StandsAt p m) (hNext : Advances chunk start.stack.room p q) :
    ∃ i next, Instruction.decode chunk.code.toArray p.ip = .ok i ∧
      Follows chunk begun (trail ++ [(i, next)]) next ∧ Machine.step chunk m = .ok () next ∧
      start.StandsAt q next := by
  obtain ⟨i, hDecode, -, -⟩ := advances_iff.mp hNext
  obtain ⟨next, hStep, hAfter⟩ := step_of_advances hAt hNext
  exact ⟨i, next, hDecode, .step prior hAt.running (hAt.ip ▸ hDecode) hStep, hStep, hAfter⟩

/-- Every run over positions is followed by machines, one for each of its steps. -/
theorem exists_trail {chunk : Chunk} {start m : Machine} {p q : Position} {steps : Nat}
    (hAt : start.StandsAt p m) (run : RunsFor chunk start.stack.room p q steps) :
    ∃ trail last, m.Follows chunk trail last ∧ start.StandsAt q last := by
  induction run with
  | zero => exact ⟨[], m, .start, hAt⟩
  | succ prior last ih =>
      obtain ⟨trail, state, hFollows, hState⟩ := ih
      obtain ⟨i, next, -, hNext, -, hAfter⟩ := hFollows.advance hState last
      exact ⟨_, next, hNext, hAfter⟩

/-- What is executed in a chunk is executed in the same way when more has been built, also on
another machine with as much room. -/
theorem exists_common_trail {a b : Chunk} (hGrows : a.contents.GrowsTo b.contents)
    (hInStep : a.contents.InStep) {m n state other : Machine} {limit steps : Nat}
    {p q : Position} (hAt : m.StandsAt p state) (hOther : n.StandsAt p other)
    (hFirst : limit ≤ m.stack.room) (hSecond : limit ≤ n.stack.room)
    (run : RunsFor a limit p q steps) :
    ∃ trail again last lastAgain, state.Follows a trail last ∧ m.StandsAt q last ∧
      other.Follows b again lastAgain ∧ n.StandsAt q lastAgain ∧ SameTrail trail again := by
  induction run with
  | zero => exact ⟨[], [], state, other, .start, hAt, .start, hOther, .nil⟩
  | succ prior last ih =>
      obtain ⟨trail, again, middle, middleAgain, hBefore, hMiddle, hAfter, hMiddleAgain, hSame⟩ :=
        ih
      obtain ⟨i, next, hDecode, hNext, -, hStands⟩ :=
        hBefore.advance hMiddle (last.raise hFirst)
      obtain ⟨j, nextAgain, hDecodeAgain, hNextAgain, -, hStandsAgain⟩ :=
        hAfter.advance hMiddleAgain ((hGrows.advances hInStep last).raise hSecond)
      rw [hGrows.decode_eq_ok hDecode] at hDecodeAgain
      cases hDecodeAgain
      refine ⟨_, _, next, nextAgain, hNext, hStands, hNextAgain, hStandsAgain, ?_⟩
      exact List.rel_append hSame (.cons ⟨rfl, hStands.alike hStandsAgain⟩ .nil)

theorem Follows.trans {chunk : Chunk} {start middle last : Machine}
    {trail more : List (Instruction × Machine)} (h : start.Follows chunk trail middle)
    (h' : middle.Follows chunk more last) : start.Follows chunk (trail ++ more) last := by
  induction h' with
  | start =>
      rw [List.append_nil]
      exact h
  | step prior hRunning hDecode hStep ih =>
      rw [← List.append_assoc]
      exact .step ih hRunning hDecode hStep

/-- Executing from the start of a trail is executing from its end, with more events. -/
theorem execute_of_follows {chunk : Chunk} {start m : Machine}
    {trail : List (Instruction × Machine)} (h : start.Follows chunk trail m)
    (log : Array Event) : ∃ events, execute chunk start log = execute chunk m events := by
  induction h with
  | start => exact ⟨log, rfl⟩
  | step prior hRunning hDecode hStep ih =>
      obtain ⟨events, hPrior⟩ := ih
      exact ⟨_, hPrior.trans (execute_of_step hRunning hStep events)⟩

/-- Where the program stops, the run has its end. -/
theorem endsAt_of_stops {chunk : Chunk} {m state : Machine}
    {trail : List (Instruction × Machine)} {q : Position} {ending : Ending}
    (hFollows : m.reset.Follows chunk trail state) (hAt : m.StandsAt q state)
    (hStops : Stops chunk m.stack.room q ending) : m.EndsAt chunk state := by
  obtain ⟨events, hRun⟩ :=
    execute_of_follows hFollows #[.started chunk.size chunk.constants.size]
  obtain ⟨last, hEnded, -, -⟩ := execute_of_stops hAt hStops events
  obtain ⟨hReport, hOk, -⟩ := run_of_execute (hRun.trans hEnded)
  refine ⟨hAt.running, ?_⟩
  cases hStops with
  | outOfCode hRow => exact .inr ⟨_, _, hReport, hAt.ip.symm, step_of_no_row hAt hRow⟩
  | @returned row hRow hEffect =>
      have hReturn := (stops_without_fault_iff.mp ⟨.returned hRow hEffect, rfl⟩).1
      obtain ⟨next, hStep, -⟩ := step_of_effect hAt hRow hEffect
      rw [execute_of_step hAt.running hStep, execute_of_halted rfl] at hEnded
      cases hEnded
      refine .inl ⟨hReport, hAt.ip ▸ hReturn, ?_⟩
      rw [hOk rfl]
      exact hStep
  | faulted hRow hEffect =>
      obtain ⟨stopped, left, hStep, -⟩ := step_of_effect hAt hRow hEffect
      exact .inr ⟨_, _, hReport, hAt.ip.symm, hStep⟩

end Machine

/-- A run that is out of code has come to the end of it. -/
theorem exists_run_to_end {chunk : Chunk} {limit offset : Nat}
    (h : (chunk.ending limit).fault = some (offset, .unexpectedEndOfCode)) :
    ∃ values steps, RunsFor chunk limit ⟨0, []⟩ ⟨offset, values⟩ steps ∧
      offset = chunk.size := by
  obtain ⟨values, steps, run, ⟨hRow, -⟩ | ⟨row, -, hEffect⟩⟩ := exists_run_to_fault h
  · have hInside := run.ip_le (Nat.zero_le chunk.size)
    exact ⟨values, steps, run, Nat.le_antisymm hInside (Row.size_le_of_at?_eq_none hRow)⟩
  · exact absurd hEffect (RowContent.effect_ne_endOfCode _ _ _)

/-- A return is what a run needs that is out of code. -/
theorem writeOpcode_ret_completes {chunk : Chunk} {limit offset : Nat}
    (hInStep : chunk.contents.InStep)
    (h : (chunk.ending limit).fault = some (offset, .unexpectedEndOfCode)) (heap : Allocator)
    (line : Nat) :
    Chunk.Builds (Chunk.writeOpcode heap .ret line chunk)
      (fun _ next => (next.ending limit).fault = none ∧
        (next.ending limit).pointer = offset + 1) (fun _ => True) := by
  obtain ⟨values, steps, run, hEnd⟩ := exists_run_to_end h
  refine (Chunk.write_allOrNothing heap Opcode.ret.byte line chunk).imp ?_ (fun _ _ => trivial)
  intro _ next hNext
  have hGrows : chunk.contents.GrowsTo next.contents := by
    rw [hNext]
    exact chunk.contents.growsTo_emit line [Opcode.ret.byte]
  have hCode : next.code.toList = chunk.code.toList ++ [Opcode.ret.byte] :=
    congrArg Chunk.Contents.code hNext
  have hReturn := (carries_append_iff.mp (carries_of_toList_eq hCode)).2
  have hLength : 0 + chunk.code.toList.length = offset := by
    rw [hEnd, Nat.zero_add]
    rfl
  rw [hLength] at hReturn
  rw [ending_of_return (hGrows.runsFor hInStep run) hReturn]
  exact ⟨rfl, rfl⟩

section TwoRuns

variable {a b : Chunk} (hGrows : a.contents.GrowsTo b.contents)
  (hInStep : a.contents.InStep) {m n : Machine}
  (hRooms : a.Indifferent m.stack.room n.stack.room)

include hGrows hInStep hRooms

namespace Machine

/-- A settled run is the same on the grown chunk, whatever its kind of ending. -/
theorem run_eq_of_settled
    (hSettled : ∀ fault, (m.run a).fault = some fault → fault.kind.Settled) :
    (n.run b).fault = (m.run a).fault ∧
      (n.run b).machine.stack.values = (m.run a).machine.stack.values ∧
      (n.run b).machine.ip = (m.run a).machine.ip := by
  have hPlain : ∀ fault, (a.ending n.stack.room).fault = some fault → fault.2.Settled := by
    intro fault hFault
    apply hSettled ⟨fault.1, faultLine? a fault.1, fault.2⟩
    rw [run_fault, hRooms.ending_eq, Ending.report, hFault, Option.map_some]
  have hEnding : b.ending n.stack.room = a.ending m.stack.room :=
    (hGrows.ending_eq hInStep hPlain).trans hRooms.ending_eq.symm
  rw [run_fault, run_fault, values_run, values_run, ip_run, ip_run, hEnding]
  refine ⟨?_, rfl, rfl⟩
  rw [← hRooms.ending_eq] at hPlain
  cases hFault : (a.ending m.stack.room).fault with
  | none => rw [Ending.report, Ending.report, hFault, Option.map_none, Option.map_none]
  | some fault =>
      have hInside := offset_lt_of_settled hFault (hPlain fault hFault)
      rw [Ending.report, Ending.report, hFault, Option.map_some, Option.map_some,
        hGrows.faultLine?_eq hInStep hInside]

/-- The way to the end of a run is taken again, and from there the later run goes on or ends. -/
theorem exists_common_way :
    ∃ trail last again lastAgain more final, m.reset.Follows a trail last ∧
      m.EndsAt a last ∧ n.reset.Follows b again lastAgain ∧ SameTrail trail again ∧
      last.Alike lastAgain ∧ lastAgain.Follows b more final ∧ n.EndsAt b final ∧
      last.ip ≤ final.ip := by
  obtain ⟨q, steps, run, hStops⟩ := exists_run_to_ending a m.stack.room
  obtain ⟨r, others, ending, rest, hStopsLater⟩ := exists_stop b n.stack.room q
  obtain ⟨trail, again, last, lastAgain, hBefore, hLast, hAfter, hLastAgain, hSame⟩ :=
    exists_common_trail hGrows hInStep m.standsAt_reset n.standsAt_reset (Nat.min_le_left _ _)
      (Nat.min_le_right _ _) (hRooms.runsFor_min run)
  obtain ⟨more, final, hMore, hFinal⟩ := exists_trail hLastAgain rest
  have hAhead : last.ip ≤ final.ip := by
    rw [hLast.ip, hFinal.ip]
    exact rest.start_le
  exact ⟨trail, last, again, lastAgain, more, final, hBefore,
    endsAt_of_stops hBefore hLast hStops, hAfter, hSame, hLast.alike hLastAgain, hMore,
    endsAt_of_stops (hAfter.trans hMore) hFinal hStopsLater, hAhead⟩

end Machine

end TwoRuns

/-- A run that has settled is not disturbed by further building. It is compared with the run of
another machine that has the same limit, and both machines can hold a value for each byte that was
there before. If the first run ends with a return, or with a fault that does not come from missing
code or constants, the later one ends in the same way. In any case the instructions before its end
are executed again with the same effects, and the later run ends there or behind. A run that is
out of code is completed by a return. -/
theorem settled_runs_survive_building {a b : Chunk} (hBuilt : a.Reachable)
    (hMore : a.BuildsUpTo b) {m n : Machine} (hLimit : m.stack.limit = n.stack.limit)
    (hFirst : m.stack.CanHold a.size) (hSecond : n.stack.CanHold a.size) :
    ((∀ fault, (m.run a).fault = some fault → fault.kind.Settled) →
      (n.run b).fault = (m.run a).fault ∧
        (n.run b).machine.stack.values = (m.run a).machine.stack.values ∧
        (n.run b).machine.ip = (m.run a).machine.ip) ∧
    (∃ trail last again lastAgain more final, m.reset.Follows a trail last ∧
      m.EndsAt a last ∧ n.reset.Follows b again lastAgain ∧ Machine.SameTrail trail again ∧
      last.Alike lastAgain ∧ lastAgain.Follows b more final ∧ n.EndsAt b final ∧
      last.ip ≤ final.ip) ∧
    ∀ offset line, (m.run a).fault = some ⟨offset, line, .unexpectedEndOfCode⟩ →
      ∀ heap returnLine, Chunk.Builds (Chunk.writeOpcode heap .ret returnLine a)
        (fun _ next => (n.run next).fault = none ∧ (n.run next).machine.ip = offset + 1)
        (fun _ => True) := by
  have hGrows := hMore.growsTo
  have hInStep := hBuilt.inStep
  have hRooms : a.Indifferent m.stack.room n.stack.room :=
    hFirst.indifferent_of_limit hSecond hLimit
  refine ⟨Machine.run_eq_of_settled hGrows hInStep hRooms,
    Machine.exists_common_way hGrows hInStep hRooms, ?_⟩
  intro offset line hFault heap returnLine
  rw [Machine.run_fault, hRooms.ending_eq, Ending.report] at hFault
  obtain ⟨⟨_, _⟩, hEnding, hSame⟩ := Option.map_eq_some_iff.mp hFault
  cases hSame
  refine (writeOpcode_ret_completes hInStep hEnding heap returnLine).imp ?_ (fun _ => id)
  rintro _ next ⟨hNone, hPointer⟩
  rw [Machine.run_fault, Machine.ip_run, Ending.report, hNone]
  exact ⟨rfl, hPointer⟩

def unfed : Chunk := (BuildStep.writeOpcode .negate 7).leave .standard .empty

def unended : Chunk := (BuildStep.writeConstant (.number 1) 7).leave .standard .empty

/-- A constant that comes too late does not feed the negation. A return ends the load. A small stack
never asks for slots, so it makes no difference that the later run would be refused them. -/
theorem unfed_underflows_and_unended_returns :
    ((Machine.new {} .refusing).run
        ((BuildStep.writeConstant (.number 1) 8).leave .standard unfed)).fault =
        some ⟨0, some 7, .stackUnderflow⟩ ∧
      ∃ next, Chunk.writeOpcode .standard .ret 8 unended = .ok () next ∧
        ((Machine.new {} .refusing).run next).fault = none ∧
        ((Machine.new {} .refusing).run next).machine.ip = 3 := by
  have hGranted (heap : Allocator) (size : Nat) : (Machine.new {} heap).stack.CanHold size :=
    Stack.canHold_of_limit_le (Nat.le_refl 256) size
  constructor
  · have hBuilt : unfed.Reachable := .step .start .standard trivial
    have hMore :
        unfed.BuildsUpTo ((BuildStep.writeConstant (.number 1) 8).leave .standard unfed) :=
      .step .start .standard trivial
    have hFault : ((Machine.new {}).run unfed).fault = some ⟨0, some 7, .stackUnderflow⟩ := by
      decide +kernel
    have hSettled : ∀ fault, ((Machine.new {}).run unfed).fault = some fault →
        fault.kind.Settled := by
      rw [hFault]
      rintro _ ⟨⟩
      trivial
    obtain ⟨hSame, -, -⟩ := settled_runs_survive_building hBuilt hMore (m := .new {})
      (n := .new {} .refusing) rfl (hGranted _ _) (hGranted _ _)
    rw [(hSame hSettled).1, hFault]
  · have hBuilt : unended.Reachable := .step .start .standard trivial
    have hFault : ((Machine.new {}).run unended).fault =
        some ⟨2, some 7, .unexpectedEndOfCode⟩ := by
      decide +kernel
    have hMemory : ¬Chunk.RanOutOfMemory (Chunk.writeOpcode .standard .ret 8 unended) := by
      decide +kernel
    obtain ⟨-, -, hReturn⟩ := settled_runs_survive_building hBuilt .start (m := .new {})
      (n := .new {} .refusing) rfl (hGranted _ _) (hGranted _ _)
    obtain ⟨_, next, hOk, hNone, hPointer⟩ :=
      (hReturn 2 (some 7) hFault .standard 8).of_memory hMemory
    exact ⟨next, hOk, hNone, hPointer⟩

end StackMachine
