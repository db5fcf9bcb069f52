import StackMachine.CommandLine.Options
import StackMachine.Listing
import StackMachine.Machine.Run

/-!
What the command line does: list a demonstration program, run it, and show its result. A session
is a function of the arguments and the log level; its diagnostics are kept as items, so that the
log lines among them can be told from the rest.
-/
namespace StackMachine.CommandLine

inductive Demo where
  | constant
  | arithmetic
  deriving DecidableEq

namespace Demo

def ofName? (name : String) : Option Demo :=
  if name = "constant" then some .constant
  else if name = "arithmetic" then some .arithmetic
  else none

/-- The source line that all demonstration code is recorded under. -/
def line : Nat := 123

/-- `1.2`, returned. The load is written byte by byte. -/
def writeConstantProgram (heap : Allocator) : Build Chunk Unit := do
  let index ← Chunk.addConstant heap (.number 1.2)
  Chunk.writeOpcode heap .constant line
  Chunk.write heap (UInt8.ofNat index) line
  Chunk.writeOpcode heap .ret line

/-- `-((1.2 + 3.4) / 5.6)`, returned. -/
def writeArithmeticProgram (heap : Allocator) : Build Chunk Unit := do
  let _ ← Chunk.writeConstant heap (.number 1.2) line
  let _ ← Chunk.writeConstant heap (.number 3.4) line
  Chunk.writeOpcode heap .add line
  let _ ← Chunk.writeConstant heap (.number 5.6) line
  Chunk.writeOpcode heap .divide line
  Chunk.writeOpcode heap .negate line
  Chunk.writeOpcode heap .ret line

def build (heap : Allocator) : Demo → EStateM.Result BuildError Chunk Unit
  | .constant => writeConstantProgram heap .empty
  | .arithmetic => writeArithmeticProgram heap .empty

end Demo

inductive Component where
  | machine
  | commandLine
  deriving DecidableEq

def Component.name : Component → String
  | .machine => "bvm_core::vm::vm"
  | .commandLine => "bvm_cli"

inductive Diagnostic where
  | log (component : Component) (record : LogRecord)
  | plain (text : String)

/-- A line with its end, under a time stamp if it belongs to the log. -/
def Diagnostic.text (stamp : String) : Diagnostic → String
  | .log component record => record.line stamp component.name ++ "\n"
  | .plain text => text ++ "\n"

structure Outcome where
  exitCode : Nat
  output : String
  diagnostics : List Diagnostic

def usage (command : String) : List Diagnostic :=
  [.plain "Bytecode Virtual Machine (BVM)",
    .plain ("Usage: " ++ command ++
      " [--program constant|arithmetic] [--trace] [--stack-size N]")]

def refuse (command : String) (error : UsageError) : Outcome where
  exitCode := 2
  output := ""
  diagnostics := .plain ("Error: " ++ error.message) :: usage command

def shown (filter : LogFilter) (component : Component) (records : List LogRecord) :
    List Diagnostic :=
  (records.filter fun record => filter.shows record.level).map (.log component)

/-- Without a level of its own, the log shows informative records, and all with `--trace`. -/
def defaultFilter (options : Options) : LogFilter :=
  .upTo (if options.trace then .trace else .info)

def machineOf (heap : Allocator) (options : Options) : Machine :=
  let config : Config := { traced := options.trace }
  .new
    (match options.stackSize with
    | some size => { config with stackLimit := size }
    | none => config)
    heap

/-- List a chunk, run it, and show the value that it leaves on top. -/
def perform (heap : Allocator) (filter : LogFilter) (options : Options) (chunk : Chunk) :
    Outcome :=
  let listing := Listing.text chunk options.program
  let ended := (machineOf heap options).run chunk
  let log := shown filter .machine (ended.events.toList.map Event.record)
  match ended.fault with
  | some fault => ⟨1, listing, log ++ [.plain ("Runtime error: " ++ fault.message)]⟩
  | none =>
    match ended.machine.stack.top? with
    | some value => ⟨0, listing ++ value.display ++ "\n", log⟩
    | none =>
      ⟨0, listing,
        log ++ shown filter .commandLine [⟨.info, "program returned with an empty stack", []⟩]⟩

def start (heap : Allocator) (filter : LogFilter) (command : String) (options : Options) :
    Outcome :=
  match Demo.ofName? options.program with
  | none => refuse command (.unknownProgram options.program)
  | some demo =>
    match demo.build heap with
    | .ok () chunk => perform heap filter options chunk
    | .error error _ =>
      ⟨1, "",
        shown filter .commandLine [⟨.error, "failed to build chunk", [("error", error.message)]⟩]⟩

/-- A whole session. A level given from outside takes the place of the default filter, and the
command has a name of its own if it is not told the one that it was called by. -/
def session (heap : Allocator) (level : Option LogFilter) (arguments : List String)
    (command : String := "bvm-cli") : Outcome :=
  match Options.parse {} arguments with
  | .error error => refuse command error
  | .ok options => start heap (level.getD (defaultFilter options)) command options

end StackMachine.CommandLine
