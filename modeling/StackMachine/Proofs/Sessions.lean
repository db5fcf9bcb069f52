import Mathlib.Data.List.Induction
import StackMachine.Proofs.Arguments
import StackMachine.Proofs.Demonstrations
import StackMachine.Proofs.Reuse

/-! What a session shows. The listing, the value and the exit code follow from the program and
the size of the stack. A filter decides what else is shown of the log, and nothing more. -/
namespace StackMachine

/-- A listing is made of whole lines. -/
theorem Listing.exists_text_eq (chunk : Chunk) (name : String) :
    ∃ above, Listing.text chunk name = above ++ "\n" := by
  unfold Listing.text
  rw [← Array.foldl_toList]
  induction (Listing.rows chunk).toList using List.reverseRecOn with
  | nil => exact ⟨"== " ++ name ++ " ==", by simp [String.append_assoc]⟩
  | append_singleton rows row ih => exact ⟨_, List.foldl_append⟩

namespace CommandLine

/-- Whether a line is shown under a filter. Only the log is filtered. -/
def Diagnostic.passes (filter : LogFilter) : Diagnostic → Bool
  | .log _ record => filter.shows record.level
  | .plain _ => true

/-- Whether a line stands outside the log. -/
def Diagnostic.isPlain : Diagnostic → Bool
  | .log _ _ => false
  | .plain _ => true

def runLog (heap : Allocator) (options : Options) (chunk : Chunk) : List LogRecord :=
  ((machineOf heap options).run chunk).events.toList.map Event.record

section Performing

variable {heap : Allocator} {options : Options} {chunk : Chunk}

/-- A fault is told on the error stream and the exit code is one. -/
theorem perform_of_fault {fault : Fault}
    (h : ((machineOf heap options).run chunk).fault = some fault) (filter : LogFilter) :
    perform heap filter options chunk =
      ⟨1, Listing.text chunk options.program, shown filter .machine (runLog heap options chunk) ++
        [.plain ("Runtime error: " ++ fault.message)]⟩ := by
  simp only [perform, h, runLog]

/-- A value left on the stack is printed behind the listing. -/
theorem perform_of_value {value : Value} (h : ((machineOf heap options).run chunk).fault = none)
    (hTop : ((machineOf heap options).run chunk).machine.stack.top? = some value)
    (filter : LogFilter) :
    perform heap filter options chunk =
      ⟨0, Listing.text chunk options.program ++ value.display ++ "\n",
        shown filter .machine (runLog heap options chunk)⟩ := by
  simp only [perform, h, hTop, runLog]

/-- An empty stack prints nothing but the listing. -/
theorem perform_of_empty (h : ((machineOf heap options).run chunk).fault = none)
    (hTop : ((machineOf heap options).run chunk).machine.stack.top? = none) (filter : LogFilter) :
    perform heap filter options chunk =
      ⟨0, Listing.text chunk options.program, shown filter .machine (runLog heap options chunk) ++
        shown filter .commandLine [⟨.info, "program returned with an empty stack", []⟩]⟩ := by
  simp only [perform, h, hTop, runLog]

end Performing

section Filters

variable {less more : LogFilter}

/-- A lesser filter shows of the log what passes it, in order. -/
theorem filter_passes_shown
    (hMore : ∀ level, less.shows level = true → more.shows level = true)
    (component : Component) (records : List LogRecord) :
    (shown more component records).filter (Diagnostic.passes less) =
      shown less component records := by
  unfold shown
  rw [List.filter_map, List.filter_filter]
  refine congrArg (List.map _) (List.filter_congr fun record _ => ?_)
  change (less.shows record.level && more.shows record.level) = less.shows record.level
  cases hLess : less.shows record.level with
  | false => rfl
  | true => exact hMore record.level hLess

/-- A stricter filter only takes lines of the log away. -/
theorem diagnostics_start
    (hMore : ∀ level, less.shows level = true → more.shows level = true) (heap : Allocator)
    (command : String) (options : Options) :
    (start heap less command options).diagnostics =
      (start heap more command options).diagnostics.filter (Diagnostic.passes less) := by
  unfold start
  cases Demo.ofName? options.program with
  | none => rfl
  | some demo =>
      dsimp only
      cases demo.build heap with
      | error error left => exact (filter_passes_shown hMore _ _).symm
      | ok _ chunk =>
          dsimp only
          cases hFault : ((machineOf heap options).run chunk).fault with
          | some fault =>
              rw [perform_of_fault hFault, perform_of_fault hFault, List.filter_append,
                filter_passes_shown hMore]
              rfl
          | none =>
              cases hTop : ((machineOf heap options).run chunk).machine.stack.top? with
              | some value =>
                  rw [perform_of_value hFault hTop, perform_of_value hFault hTop,
                    filter_passes_shown hMore]
              | none =>
                  rw [perform_of_empty hFault hTop, perform_of_empty hFault hTop,
                    List.filter_append, filter_passes_shown hMore, filter_passes_shown hMore]

end Filters

/-- The machine of a session starts empty under the limit asked for, or 256. -/
theorem stack_machineOf (heap : Allocator) (options : Options) :
    (machineOf heap options).stack = .empty (options.stackSize.getD 256) heap := by
  unfold machineOf
  cases options.stackSize <;> rfl

theorem traced_machineOf (heap : Allocator) (options : Options) :
    (machineOf heap options).traced = options.trace := by
  unfold machineOf
  cases options.stackSize <;> rfl

/-- The result of a session does not depend on the filter, nor on the tracing. -/
theorem result_start {options others : Options} (hProgram : options.program = others.program)
    (hSize : options.stackSize = others.stackSize) (heap : Allocator) (filter other : LogFilter)
    (command otherCommand : String) :
    (start heap filter command options).output =
        (start heap other otherCommand others).output ∧
      (start heap filter command options).exitCode =
        (start heap other otherCommand others).exitCode := by
  unfold start
  rw [hProgram]
  cases Demo.ofName? others.program with
  | none => exact ⟨rfl, rfl⟩
  | some demo =>
      dsimp only
      cases demo.build heap with
      | error error left => exact ⟨rfl, rfl⟩
      | ok _ chunk =>
          have hEnding : chunk.ending (machineOf heap options).stack.room =
              chunk.ending (machineOf heap others).stack.room := by
            rw [stack_machineOf, stack_machineOf, hSize]
          obtain ⟨hFault, hValues, -⟩ := Machine.sameOutcome_of_ending hEnding
          have hTops : ((machineOf heap options).run chunk).machine.stack.top? =
              ((machineOf heap others).run chunk).machine.stack.top? :=
            congrArg Array.back? hValues
          dsimp only
          cases hOther : ((machineOf heap others).run chunk).fault with
          | some fault =>
              rw [perform_of_fault hOther, perform_of_fault (hFault.trans hOther), hProgram]
              exact ⟨rfl, rfl⟩
          | none =>
              cases hTop : ((machineOf heap others).run chunk).machine.stack.top? with
              | some value =>
                  rw [perform_of_value hOther hTop,
                    perform_of_value (hFault.trans hOther) (hTops.trans hTop), hProgram]
                  exact ⟨rfl, rfl⟩
              | none =>
                  rw [perform_of_empty hOther hTop,
                    perform_of_empty (hFault.trans hOther) (hTops.trans hTop), hProgram]
                  exact ⟨rfl, rfl⟩

/-- A run that needs no more slots than there are from the start is the same under every
allocator. -/
theorem perform_eq {chunk : Chunk} (h : chunk.size ≤ Stack.firstCapacity)
    (heap other : Allocator) (filter : LogFilter) (options : Options) :
    perform heap filter options chunk = perform other filter options chunk := by
  have hGranted (heap : Allocator) : (machineOf heap options).stack.CanHold chunk.size := by
    rw [stack_machineOf]
    exact Stack.canHold_empty h _ heap
  have hLimits : (machineOf heap options).stack.limit = (machineOf other options).stack.limit := by
    rw [stack_machineOf, stack_machineOf]
    rfl
  have hTraced : (machineOf heap options).traced = (machineOf other options).traced := by
    rw [traced_machineOf, traced_machineOf]
  have hRooms := (hGranted heap).indifferent_of_limit (hGranted other) hLimits
  obtain ⟨hFault, hValues, -⟩ := Machine.sameOutcome_of_ending hRooms.ending_eq
  have hTop : ((machineOf heap options).run chunk).machine.stack.top? =
      ((machineOf other options).run chunk).machine.stack.top? := congrArg Array.back? hValues
  simp only [perform, hFault, hTop, Machine.events_run_eq hRooms hTraced]

namespace Demo

def name : Demo → String
  | .constant => "constant"
  | .arithmetic => "arithmetic"

/-- How many values a program holds on the stack at once. -/
def need : Demo → Nat
  | .constant => 1
  | .arithmetic => 2

theorem need_expression (demo : Demo) : demo.expression.need = demo.need := by
  cases demo <;> rfl

theorem need_le (demo : Demo) : demo.need ≤ Stack.firstCapacity := by
  cases demo <;> decide

theorem ofName?_name (demo : Demo) : ofName? demo.name = some demo := by
  cases demo <;> rfl

theorem ofName?_eq_none {name : String} (h : ∀ demo : Demo, name ≠ demo.name) :
    ofName? name = none :=
  (if_neg (h .constant)).trans (if_neg (h .arithmetic))

end Demo

/-- It makes no difference which of the allocators is there that the programs can be built with. -/
theorem start_eq {heap other : Allocator} (hHeap : heap.Covers Demo.leastHeap)
    (hOther : other.Covers Demo.leastHeap) (filter : LogFilter) (command : String)
    (options : Options) :
    start heap filter command options = start other filter command options := by
  unfold start
  cases Demo.ofName? options.program with
  | none => rfl
  | some demo =>
      obtain ⟨chunk, hBuild, hCode, -⟩ := demo.exists_build
      have hSize : chunk.size ≤ Stack.firstCapacity := by
        change chunk.code.toList.length ≤ Stack.firstCapacity
        rw [hCode]
        cases demo <;> decide
      simp only [hBuild heap hHeap, hBuild other hOther, perform_eq hSize heap other]

/-- The listing is all that is shown, and the fault is told after the log. -/
def Outcome.Overflows (outcome : Outcome) (listing : String) : Prop :=
  outcome.exitCode = 1 ∧ outcome.output = listing ∧
    ∃ fault : Fault, fault.kind = .stackOverflow ∧
      outcome.diagnostics.filter (·.isPlain) = [.plain ("Runtime error: " ++ fault.message)]

/-- The value is shown below the listing, and nothing is told but the log. -/
def Outcome.Returns (outcome : Outcome) (listing : String) (value : Value) : Prop :=
  outcome.exitCode = 0 ∧ outcome.output = listing ++ value.display ++ "\n" ∧
    outcome.diagnostics.filter (·.isPlain) = []

/-- The size of the stack is given, and it is too small for the program. -/
def Options.Short (options : Options) (demo : Demo) : Prop :=
  ∃ size, options.stackSize = some size ∧ size < demo.need

theorem short_iff {options : Options} {demo : Demo} :
    options.Short demo ↔ options.stackSize.getD 256 < demo.need := by
  rw [Options.Short]
  cases options.stackSize with
  | none =>
      constructor
      · rintro ⟨size, hSize, -⟩
        cases hSize
      · exact fun hShort => absurd demo.need_le (Nat.not_le_of_lt hShort)
  | some size =>
      constructor
      · rintro ⟨_, hSize, hShort⟩
        cases hSize
        exact hShort
      · exact fun hShort => ⟨size, rfl, hShort⟩

/-- The stack is never asked to grow by a program, so that it is short of room only if it is too
small. -/
theorem short_iff_room_lt {options : Options} {demo : Demo} (heap : Allocator) :
    options.Short demo ↔
      (machineOf heap options).stack.room < (demo.expression.term 0).need := by
  rw [Expression.need_term, Demo.need_expression, short_iff, stack_machineOf]
  generalize options.stackSize.getD 256 = limit
  have hGranted : (Stack.empty limit heap).CanHold demo.need :=
    Stack.canHold_empty demo.need_le limit heap
  constructor
  · exact Nat.lt_of_le_of_lt (Stack.room_le_limit _)
  · exact fun hRoom => Nat.lt_of_not_le fun hNeed =>
      Nat.not_lt_of_le (hGranted.le_room hNeed) hRoom

theorem filter_isPlain_shown (filter : LogFilter) (component : Component)
    (records : List LogRecord) : (shown filter component records).filter (·.isPlain) = [] := by
  unfold shown
  rw [List.filter_map]
  have hNone : List.filter ((·.isPlain) ∘ Diagnostic.log component)
      (records.filter fun record => filter.shows record.level) = [] :=
    List.filter_eq_nil_iff.mpr fun _ _ => Bool.false_ne_true
  rw [hNone, List.map_nil]

theorem eq_machine_of_mem_shown {filter : LogFilter} {component : Component}
    {records : List LogRecord} {record : LogRecord}
    (h : .log component record ∈ shown filter .machine records) : component = .machine := by
  obtain ⟨_, -, hSame⟩ := List.mem_map.mp h
  cases hSame
  rfl

section Demonstration

variable {options : Options} {demo : Demo} {chunk : Chunk}
  (hCode : chunk.code.toList = (demo.expression.term 0).code ++ [Opcode.ret.byte])
  (hValue : (demo.expression.term 0).value? chunk.constants =
    some (.number demo.expression.eval))

include hCode hValue

/-- A session that is short tells of an overflow under any filter. -/
theorem perform_short (h : options.Short demo) (heap : Allocator) :
    ∃ fault : Fault, fault.kind = .stackOverflow ∧ ∀ filter, perform heap filter options chunk =
      ⟨1, Listing.text chunk options.program,
        shown filter .machine (runLog heap options chunk) ++
          [.plain ("Runtime error: " ++ fault.message)]⟩ := by
  obtain ⟨site, pointer, -, hEnding⟩ :=
    Term.ending_of_short hCode hValue ((short_iff_room_lt heap).mp h)
  refine ⟨⟨site.offset, Machine.faultLine? chunk site.offset, .stackOverflow⟩, rfl,
    perform_of_fault ?_⟩
  rw [Machine.run_fault, hEnding]
  rfl

/-- A session that is not short prints the value of the expression, whatever the heap. -/
theorem perform_roomy (h : ¬options.Short demo) (heap : Allocator) (filter : LogFilter) :
    perform heap filter options chunk =
      ⟨0, Listing.text chunk options.program ++
          (Value.number demo.expression.eval).display ++ "\n",
        shown filter .machine (runLog heap options chunk)⟩ := by
  have hRoom : (demo.expression.term 0).need ≤ (machineOf heap options).stack.room :=
    Nat.le_of_not_lt fun hShort => h ((short_iff_room_lt heap).mpr hShort)
  have hEnding := Term.ending_of_room hCode hValue hRoom
  refine perform_of_value ?_ ?_ filter
  · rw [Machine.run_fault, hEnding]
    rfl
  · rw [Stack.top?, Machine.values_run, hEnding]
    rfl

end Demonstration

/-- A command line that cannot be read, or that asks for a program that there is not. -/
def Refused (line : List String) : Prop :=
  (∃ error, Options.parse {} line = .error error) ∨
    ∃ options, Options.parse {} line = .ok options ∧ ∀ demo : Demo, options.program ≠ demo.name

/-- A line is refused, or read to options that name a demonstration. -/
theorem refused_or_names (line : List String) :
    Refused line ∨ ∃ options, ∃ demo : Demo, Options.parse {} line = .ok options ∧
      options.program = demo.name := by
  cases hParse : Options.parse {} line with
  | error error => exact .inl (.inl ⟨error, hParse⟩)
  | ok options =>
      by_cases hName : ∃ demo : Demo, options.program = demo.name
      · obtain ⟨demo, hDemo⟩ := hName
        exact .inr ⟨options, demo, rfl, hDemo⟩
      · exact .inl (.inr ⟨options, hParse, not_exists.mp hName⟩)

def filterOf (level : Option LogFilter) (line : List String) : LogFilter :=
  level.getD
    (match Options.parse {} line with
    | .ok options => defaultFilter options
    | .error _ => .off)

variable {line : List String}

/-- The level plays no part in a refusal. -/
theorem session_of_refused (h : Refused line) (heap : Allocator) (command : String) :
    ∃ error, ∀ level, session heap level line command = refuse command error := by
  unfold session
  rcases h with ⟨error, hParse⟩ | ⟨options, hParse, hNone⟩
  · rw [hParse]
    exact ⟨error, fun _ => rfl⟩
  · simp only [hParse, start, Demo.ofName?_eq_none hNone]
    exact ⟨_, fun _ => rfl⟩

theorem session_of_options {options : Options} (h : Options.parse {} line = .ok options)
    (heap : Allocator) (level : Option LogFilter) (command : String) :
    session heap level line command = start heap (filterOf level line) command options := by
  simp only [session, filterOf, h]

theorem session_of_name {heap : Allocator} {options : Options} {demo : Demo} {chunk : Chunk}
    (h : Options.parse {} line = .ok options) (hName : options.program = demo.name)
    (hBuild : demo.build heap = .ok () chunk) (level : Option LogFilter) (command : String) :
    session heap level line command = perform heap (filterOf level line) options chunk := by
  rw [session_of_options h, start, hName, demo.ofName?_name]
  simp only [hBuild]

section Served

variable {heap : Allocator} (hHeap : heap.Covers Demo.leastHeap)

include hHeap

/-- Allocators that grant what the demonstrations ask for give the same session. -/
theorem session_eq {other : Allocator} (hOther : other.Covers Demo.leastHeap)
    (level : Option LogFilter) (command : String) :
    session heap level line command = session other level line command := by
  unfold session
  cases Options.parse {} line with
  | error error => rfl
  | ok options => exact start_eq hHeap hOther _ command options

/-- If a program is named, its listing is shown and it is run. -/
theorem session_cases {options : Options} {demo : Demo} (h : Options.parse {} line = .ok options)
    (hName : options.program = demo.name) (level : Option LogFilter) (command : String) :
    let outcome := session heap level line command
    (∃ chunk, demo.build heap = .ok () chunk ∧
      (options.Short demo → outcome.Overflows (Listing.text chunk demo.name)) ∧
      (¬options.Short demo →
        outcome.Returns (Listing.text chunk demo.name) (.number demo.expression.eval))) ∧
    ∀ component record, .log component record ∈ outcome.diagnostics → component = .machine := by
  intro outcome
  obtain ⟨chunk, hBuilds, hCode, hValue⟩ := demo.exists_build
  have hBuild : demo.build heap = .ok () chunk := hBuilds heap hHeap
  have hOutcome : outcome = _ := session_of_name h hName hBuild level command
  by_cases hShort : options.Short demo
  · obtain ⟨fault, hKind, hPerform⟩ := perform_short hCode hValue hShort heap
    rw [hOutcome, hPerform, hName]
    refine ⟨⟨chunk, hBuild, fun _ => ⟨rfl, rfl, fault, hKind, ?_⟩, absurd hShort⟩,
      fun component record hLog => ?_⟩
    · rw [List.filter_append, filter_isPlain_shown]
      rfl
    · rcases List.mem_append.mp hLog with hShown | hTold
      · exact eq_machine_of_mem_shown hShown
      · cases List.mem_singleton.mp hTold
  · rw [hOutcome, perform_roomy hCode hValue hShort heap, hName]
    exact ⟨⟨chunk, hBuild, fun h => absurd h hShort,
      fun _ => ⟨rfl, rfl, filter_isPlain_shown _ _ _⟩⟩, fun _ _ => eq_machine_of_mem_shown⟩

/-- The exit code is two for a refused line only. -/
theorem refused_of_exitCode {level : Option LogFilter} {command : String}
    (h : (session heap level line command).exitCode = 2) : Refused line := by
  refine (refused_or_names line).resolve_right ?_
  rintro ⟨options, demo, hParse, hName⟩
  obtain ⟨⟨chunk, -, hOverflows, hReturns⟩, -⟩ :=
    session_cases hHeap hParse hName level command
  by_cases hShort : options.Short demo
  · exact absurd ((hOverflows hShort).1.symm.trans h) (by decide)
  · exact absurd ((hReturns hShort).1.symm.trans h) (by decide)

/-- The command line itself has nothing to log. -/
theorem eq_machine_of_mem_diagnostics {level : Option LogFilter} {command : String}
    {component : Component} {record : LogRecord}
    (h : .log component record ∈ (session heap level line command).diagnostics) :
    component = .machine := by
  rcases refused_or_names line with hRefused | ⟨options, demo, hParse, hName⟩
  · obtain ⟨error, hError⟩ := session_of_refused hRefused heap command
    rw [hError level] at h
    simp [refuse, usage] at h
  · exact (session_cases hHeap hParse hName level command).2 component record h

end Served

/-- A session under a lesser filter tells what passes it of the same diagnostics. -/
theorem diagnostics_session {less more : Option LogFilter}
    (hMore : ∀ logged, (filterOf less line).shows logged = true →
      (filterOf more line).shows logged = true) (heap : Allocator) (command : String) :
    (session heap less line command).diagnostics =
      (session heap more line command).diagnostics.filter
        (Diagnostic.passes (filterOf less line)) := by
  rcases refused_or_names line with hRefused | ⟨options, demo, hParse, -⟩
  · obtain ⟨error, hError⟩ := session_of_refused hRefused heap command
    rw [hError less, hError more]
    rfl
  · rw [session_of_options hParse, session_of_options hParse]
    exact diagnostics_start hMore heap command options

/-- A stack for one value is asked for at last, where two are needed. -/
def cramped : List String :=
  ["--stack-size", "9", "--trace", "--program", "arithmetic", "--stack-size", "+01"]

end CommandLine

end StackMachine
