import Mathlib.Algebra.GroupWithZero.Nat
import Mathlib.Data.List.Induction
import StackMachine.CommandLine.Options

/-! The grammar of the command line. A command line that can be read is a row of arguments, each
of one or two words, and the options are what the arguments say one after the other. Any other
command line is such a row up to words that begin no argument, and these decide the error. -/
namespace StackMachine

namespace Word

/-- The decimal spellings of a number that fits a word: at least one digit, zeros in front allowed,
and at most one plus sign before them. -/
def Spells (text : String) (n : Nat) : Prop :=
  ∃ digits : List Char, (text.toList = digits ∨ text.toList = '+' :: digits) ∧ digits ≠ [] ∧
    (∀ c ∈ digits, c.isDigit) ∧ Nat.ofDigitChars 10 digits 0 = n ∧ n < 2 ^ 64

/-- Digits are read to the number they write behind what was read so far. -/
theorem digits?_eq_some_iff {text : List Char} {high n : Nat} :
    digits? high text = some n ↔
      (∀ c ∈ text, c.isDigit) ∧ Nat.ofDigitChars 10 text high = n := by
  induction text generalizing high with
  | nil => simp [digits?]
  | cons c rest ih =>
      rw [digits?, List.forall_mem_cons, Nat.ofDigitChars_cons]
      by_cases hDigit : c.isDigit = true
      · rw [if_pos hDigit, ih]
        exact ⟨fun h => ⟨⟨hDigit, h.1⟩, h.2⟩, fun h => ⟨h.1.2, h.2⟩⟩
      · rw [if_neg hDigit]
        exact ⟨nofun, fun h => absurd h.1.1 hDigit⟩

/-- A plus sign is no digit, so it is dropped exactly if digits alone are left. -/
theorem dropPlus_eq_iff {text digits : List Char} (hDigits : ∀ c ∈ digits, c.isDigit)
    (hNe : digits ≠ []) :
    dropPlus text = digits ↔ text = digits ∨ text = '+' :: digits := by
  have hHead : ∀ rest, digits ≠ '+' :: rest := by
    rintro rest rfl
    exact absurd (hDigits '+' List.mem_cons_self) (by decide)
  unfold dropPlus
  split
  · rename_i rest
    rw [List.cons.injEq]
    exact ⟨fun h => .inr ⟨rfl, h⟩, fun h => (h.resolve_left fun h => hHead rest h.symm).2⟩
  · rename_i hPlus
    exact ⟨.inl, fun h => h.resolve_right (hPlus digits)⟩

/-- A number is read exactly from its spellings. -/
theorem parse?_eq_some_iff {text : String} {n : Nat} :
    parse? text = some n ↔ Spells text n := by
  have hRead : parse? text = some n ↔
      dropPlus text.toList ≠ [] ∧ digits? 0 (dropPlus text.toList) = some n ∧ n < 2 ^ 64 := by
    unfold parse?
    cases hText : dropPlus text.toList with
    | nil => simp
    | cons c rest =>
        cases hDigits : digits? 0 (c :: rest) with
        | none => simp [hDigits]
        | some m =>
            have hWord : m ≤ maxWord ↔ m < 2 ^ 64 := Nat.lt_succ_iff.symm
            simp only [hDigits, hWord]
            split
            · rename_i hFits
              refine ⟨fun hSame => ⟨nofun, hSame, ?_⟩, fun h => h.2.1⟩
              exact Option.some.inj hSame ▸ hFits
            · rename_i hLarge
              refine ⟨nofun, fun ⟨_, hSame, hFits⟩ => absurd ?_ hLarge⟩
              exact (Option.some.inj hSame).symm ▸ hFits
  rw [hRead, digits?_eq_some_iff]
  constructor
  · rintro ⟨hNe, ⟨hDigits, hValue⟩, hFits⟩
    exact ⟨_, (dropPlus_eq_iff hDigits hNe).mp rfl, hNe, hDigits, hValue, hFits⟩
  · rintro ⟨digits, hText, hNe, hDigits, hValue, hFits⟩
    rw [(dropPlus_eq_iff hDigits hNe).mpr hText]
    exact ⟨hNe, ⟨hDigits, hValue⟩, hFits⟩

end Word

namespace CommandLine

inductive Argument where
  | trace
  | program (name : String)
  | stackSize (text : String) (size : Nat) (hSize : Word.parse? text = some size)

namespace Argument

def words : Argument → List String
  | trace => ["--trace"]
  | program name => ["--program", name]
  | stackSize text _ _ => ["--stack-size", text]

def apply (options : Options) : Argument → Options
  | trace => { options with trace := true }
  | program name => { options with program := name }
  | stackSize _ size _ => { options with stackSize := some size }

def options (arguments : List Argument) : Options := arguments.foldl apply {}

def name? : Argument → Option String
  | program name => some name
  | trace | stackSize .. => none

def size? : Argument → Option Nat
  | stackSize _ size _ => some size
  | trace | program _ => none

theorem options_concat (arguments : List Argument) (a : Argument) :
    options (arguments ++ [a]) = apply (options arguments) a :=
  List.foldl_append

/-- What the options say about something is what the last argument says that is about it. -/
theorem last_counts {β : Type} (field : Options → β) (says? : Argument → Option β)
    (h : ∀ options a, field (apply options a) = (says? a).getD (field options))
    (arguments : List Argument) :
    field (options arguments) = (arguments.filterMap says?).getLast?.getD (field {}) := by
  induction arguments using List.reverseRecOn with
  | nil => rfl
  | append_singleton arguments a ih =>
      rw [options_concat, h, List.filterMap_append]
      cases hSays : says? a with
      | none =>
          rw [List.filterMap_cons_none hSays, List.filterMap_nil, List.append_nil]
          exact ih
      | some x =>
          rw [List.filterMap_cons_some hSays, List.filterMap_nil, List.getLast?_concat]
          rfl

/-- The last program named counts; without one it is `constant`. -/
theorem program_options (arguments : List Argument) :
    (options arguments).program = (arguments.filterMap name?).getLast?.getD "constant" :=
  last_counts Options.program name? (fun _ a => by cases a <;> rfl) arguments

theorem stackSize_options (arguments : List Argument) :
    (options arguments).stackSize = (arguments.filterMap size?).getLast? := by
  have hLast := last_counts Options.stackSize (fun a => a.size?.map some)
    (fun _ a => by cases a <;> rfl) arguments
  rw [hLast, ← List.map_filterMap, List.getLast?_map]
  cases (arguments.filterMap size?).getLast? <;> rfl

theorem trace_options (arguments : List Argument) :
    (options arguments).trace = true ↔ trace ∈ arguments := by
  induction arguments using List.reverseRecOn with
  | nil => simp [options]
  | append_singleton arguments a ih =>
      rw [options_concat, List.mem_append, List.mem_singleton, ← ih]
      cases a <;> simp [apply]

/-- The reader takes the words of one argument at a time, whatever follows. -/
theorem parse_words (options : Options) (a : Argument) (rest : List String) :
    options.parse (a.words ++ rest) = (apply options a).parse rest := by
  cases a with
  | trace =>
      rw [words, List.singleton_append, Options.parse.eq_def]
      exact if_pos rfl
  | program name => simp [words, apply, Options.parse]
  | stackSize text size hSize => simp [words, apply, Options.parse, hSize]

/-- Behind a row of arguments, reading goes on with what they have said. -/
theorem parse_flatMap_words_append (options : Options) (arguments : List Argument)
    (rest : List String) :
    options.parse (arguments.flatMap words ++ rest) =
      (arguments.foldl apply options).parse rest := by
  induction arguments generalizing options with
  | nil => rfl
  | cons a arguments ih =>
      rw [List.flatMap_cons, List.append_assoc, parse_words, ih, List.foldl_cons]

/-- A line made of arguments is read as their settings in the order of the line. -/
theorem parse_flatMap_words (options : Options) (arguments : List Argument) :
    options.parse (arguments.flatMap words) = .ok (arguments.foldl apply options) := by
  have hRead := parse_flatMap_words_append options arguments []
  rwa [List.append_nil] at hRead

/-- A line that is read at all is made of arguments and nothing else. -/
theorem exists_of_parse {start result : Options} {line : List String}
    (h : start.parse line = .ok result) :
    ∃ arguments : List Argument,
      line = arguments.flatMap words ∧ result = arguments.foldl apply start := by
  fun_induction Options.parse start line with
  | case1 start =>
      cases h
      exact ⟨[], rfl, rfl⟩
  | case2 start rest ih =>
      obtain ⟨arguments, rfl, rfl⟩ := ih h
      exact ⟨.trace :: arguments, rfl, rfl⟩
  | case4 start name rest _ ih =>
      obtain ⟨arguments, rfl, rfl⟩ := ih h
      exact ⟨.program name :: arguments, rfl, rfl⟩
  | case7 start text rest size hSize _ _ ih =>
      obtain ⟨arguments, rfl, rfl⟩ := ih h
      exact ⟨.stackSize text size hSize :: arguments, rfl, rfl⟩
  | case3 | case5 | case6 | case8 => cases h

/-- The command lines that can be read are the rows of arguments. -/
theorem parse_eq_ok_iff {line : List String} {result : Options} :
    Options.parse {} line = .ok result ↔
      ∃ arguments : List Argument, line = arguments.flatMap words ∧ result = options arguments := by
  constructor
  · exact exists_of_parse
  · rintro ⟨arguments, rfl, rfl⟩
    exact parse_flatMap_words {} arguments

end Argument

/-- Words that begin no argument, with the error and what the user is told. A name or a number is
missing only at the end of a command line. -/
inductive Unreadable : List String → UsageError → String → Prop where
  | missingName : Unreadable ["--program"] .missingName "--program needs a name"
  | missingNumber : Unreadable ["--stack-size"] .missingNumber "--stack-size needs a number"
  | invalidNumber {text : String} (rest : List String) (hText : ∀ n, ¬Word.Spells text n) :
    Unreadable ("--stack-size" :: text :: rest) (.invalidNumber text)
      ("invalid stack size '" ++ text ++ "'")
  | unrecognized {word : String} (rest : List String)
    (hWord : word ∉ ["--trace", "--program", "--stack-size"]) :
    Unreadable (word :: rest) (.unrecognized word) ("unrecognized argument '" ++ word ++ "'")

namespace Unreadable

variable {rest : List String} {error : UsageError} {told : String}

theorem message_eq (h : Unreadable rest error told) : error.message = told := by
  cases h <;> rfl

/-- An unreadable rest is refused whatever was set before it. -/
theorem parse_eq (h : Unreadable rest error told) (options : Options) :
    options.parse rest = .error error := by
  cases h with
  | missingName | missingNumber => rfl
  | @invalidNumber text rest hText =>
      have hNone : Word.parse? text = none :=
        Option.eq_none_iff_forall_ne_some.mpr fun n hRead =>
          hText n (Word.parse?_eq_some_iff.mp hRead)
      simp [Options.parse, hNone]
  | unrecognized rest hWord =>
      simp only [List.mem_cons, List.not_mem_nil, or_false, not_or] at hWord
      obtain ⟨hTrace, hProgram, hSize⟩ := hWord
      rw [Options.parse.eq_def]
      simp only [hTrace, hProgram, hSize, if_false]

/-- Words after one that is at fault do not matter. -/
theorem append (h : Unreadable rest error told) (hName : error ≠ .missingName)
    (hNumber : error ≠ .missingNumber) (more : List String) :
    Unreadable (rest ++ more) error told := by
  cases h with
  | missingName => exact absurd rfl hName
  | missingNumber => exact absurd rfl hNumber
  | invalidNumber rest hText => exact .invalidNumber (rest ++ more) hText
  | unrecognized rest hWord => exact .unrecognized (rest ++ more) hWord

end Unreadable

/-- Reading stops at words that begin no argument, behind arguments that can be read. -/
theorem exists_of_parse_error {start : Options} {line : List String} {error : UsageError}
    (h : start.parse line = .error error) :
    ∃ (arguments : List Argument) (rest : List String),
      line = arguments.flatMap Argument.words ++ rest ∧ Unreadable rest error error.message := by
  fun_induction Options.parse start line with
  | case1 => cases h
  | case2 start rest ih =>
      obtain ⟨arguments, others, rfl, hRest⟩ := ih h
      exact ⟨.trace :: arguments, others, rfl, hRest⟩
  | case3 =>
      cases h
      exact ⟨[], _, rfl, .missingName⟩
  | case4 start name rest _ ih =>
      obtain ⟨arguments, others, rfl, hRest⟩ := ih h
      exact ⟨.program name :: arguments, others, rfl, hRest⟩
  | case5 =>
      cases h
      exact ⟨[], _, rfl, .missingNumber⟩
  | case6 start text rest hNone =>
      cases h
      refine ⟨[], _, rfl, .invalidNumber rest fun n hSpells => ?_⟩
      have hRead := Word.parse?_eq_some_iff.mpr hSpells
      exact absurd (hNone.symm.trans hRead) nofun
  | case7 start text rest size hSize _ _ ih =>
      obtain ⟨arguments, others, rfl, hRest⟩ := ih h
      exact ⟨.stackSize text size hSize :: arguments, others, rfl, hRest⟩
  | case8 start word rest hTrace hProgram hSize =>
      cases h
      exact ⟨[], _, rfl, .unrecognized rest (by simp [hTrace, hProgram, hSize])⟩

/-- A refusal names the first place where the line stops being arguments. -/
theorem parse_eq_error_iff {start : Options} {line : List String} {error : UsageError}
    {told : String} :
    start.parse line = .error error ∧ error.message = told ↔
      ∃ (arguments : List Argument) (rest : List String),
        line = arguments.flatMap Argument.words ++ rest ∧ Unreadable rest error told := by
  constructor
  · rintro ⟨hError, rfl⟩
    exact exists_of_parse_error hError
  · rintro ⟨arguments, rest, rfl, hRest⟩
    rw [Argument.parse_flatMap_words_append]
    exact ⟨hRest.parse_eq _, hRest.message_eq⟩

/-- Command lines are read by their grammar. A size is a number in decimal that fits a word. What
can be read are the rows of arguments, and of such a row the last name and the last size count,
and tracing is asked for if any argument asks for it. Whatever else is given is a row of arguments
up to words that begin none, and the error is the one of these words. If it names a word, then
words after it do not matter. A longer command line is read from the options of its beginning on. -/
theorem parse_follows_grammar :
    (∀ text n, Word.parse? text = some n ↔ Word.Spells text n) ∧
    (∀ line options, Options.parse {} line = .ok options ↔
      ∃ arguments : List Argument, line = arguments.flatMap Argument.words ∧
        (options.trace = true ↔ .trace ∈ arguments) ∧
        options.program = (arguments.filterMap Argument.name?).getLast?.getD "constant" ∧
        options.stackSize = (arguments.filterMap Argument.size?).getLast?) ∧
    (∀ line error told, Options.parse {} line = .error error ∧ error.message = told ↔
      ∃ (arguments : List Argument) (rest : List String),
        line = arguments.flatMap Argument.words ++ rest ∧ Unreadable rest error told) ∧
    (∀ line error more, Options.parse {} line = .error error → error ≠ .missingName →
      error ≠ .missingNumber → Options.parse {} (line ++ more) = .error error) ∧
    ∀ line options more, Options.parse {} line = .ok options →
      Options.parse {} (line ++ more) = options.parse more := by
  refine ⟨fun _ _ => Word.parse?_eq_some_iff, fun line options => ?_,
    fun _ _ _ => parse_eq_error_iff, fun line error more hError hName hNumber => ?_,
    fun line options more hRead => ?_⟩
  · rw [Argument.parse_eq_ok_iff]
    refine exists_congr fun arguments => and_congr_right fun _ => ?_
    rw [← Argument.program_options, ← Argument.stackSize_options, ← Argument.trace_options,
      Bool.coe_iff_coe]
    constructor
    · rintro rfl
      exact ⟨rfl, rfl, rfl⟩
    · rintro ⟨hTrace, hProgram, hSize⟩
      obtain ⟨program, trace, stackSize⟩ := options
      cases hTrace
      cases hProgram
      cases hSize
      rfl
  · obtain ⟨arguments, rest, rfl, hRest⟩ := exists_of_parse_error hError
    rw [List.append_assoc, Argument.parse_flatMap_words_append]
    exact (hRest.append hName hNumber more).parse_eq _
  · obtain ⟨arguments, rfl, rfl⟩ := Argument.exists_of_parse hRead
    exact Argument.parse_flatMap_words_append {} arguments more

/-- A program with the name of an option, and a size with a sign and zeros in front. -/
def lookalike : List String := ["--program", "--trace", "--stack-size", "+007"]

/-- What looks like an option is a name, and an option after it is one. A size with another sign is
refused, and the name that is missing after it is not. -/
theorem parse_of_lookalike :
    Options.parse {} lookalike = .ok ⟨"--trace", false, some 7⟩ ∧
    Options.parse {} (lookalike ++ ["--trace"]) = .ok ⟨"--trace", true, some 7⟩ ∧
    Options.parse {} (lookalike ++ ["--stack-size", "-1"]) = .error (.invalidNumber "-1") ∧
    Options.parse {} (lookalike ++ ["--stack-size", "-1"] ++ ["--program"]) =
      .error (.invalidNumber "-1") := by
  have hRead : Options.parse {} lookalike = .ok ⟨"--trace", false, some 7⟩ := by decide +kernel
  have hError : Options.parse {} (lookalike ++ ["--stack-size", "-1"]) =
      .error (.invalidNumber "-1") := by decide +kernel
  obtain ⟨-, -, -, hFinal, hContinues⟩ := parse_follows_grammar
  refine ⟨hRead, ?_, hError, hFinal _ _ _ hError nofun nofun⟩
  rw [hContinues lookalike _ ["--trace"] hRead]
  rfl

end CommandLine

end StackMachine
