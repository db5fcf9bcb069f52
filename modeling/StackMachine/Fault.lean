import StackMachine.Text

/-!
What can go wrong. Building a program fails with a `BuildError`; running one stops at a `Fault`,
which names the instruction that could not be executed. `Failure` is either of the two, and
every one of them has a text for the user.
-/
namespace StackMachine

inductive BuildError where
  /-- A buffer could not be given this many slots. -/
  | outOfMemory (requested : Nat)
  /-- The pool holds every constant that an instruction can name. -/
  | tooManyConstants (limit : Nat)
  deriving DecidableEq

inductive FaultKind where
  | invalidOpcode (byte : UInt8)
  | stackUnderflow
  | stackOverflow
  | invalidConstant (index : Nat)
  | truncatedInstruction
  | unexpectedEndOfCode
  deriving DecidableEq

structure Fault where
  offset : Nat
  line : Option Nat
  kind : FaultKind
  deriving DecidableEq

inductive Failure where
  | build (error : BuildError)
  | run (fault : Fault)
  deriving DecidableEq

def BuildError.message : BuildError → String
  | .outOfMemory requested =>
    "out of memory: cannot grow buffer to " ++ toString requested ++ " elements"
  | .tooManyConstants limit =>
    "too many constants in one chunk (limit " ++ toString limit ++ ")"

def FaultKind.message : FaultKind → String
  | .invalidOpcode byte => "invalid opcode 0x" ++ Text.hexByte byte
  | .stackUnderflow => "stack underflow"
  | .stackOverflow => "stack overflow"
  | .invalidConstant index => "invalid constant index " ++ toString index
  | .truncatedInstruction => "instruction operands run past the end of the code"
  | .unexpectedEndOfCode => "reached end of code without a return"

def Fault.lineText (fault : Fault) : String :=
  match fault.line with
  | some line => " (line " ++ toString line ++ ")"
  | none => ""

/-- The cause, the offset in at least four digits, and the line. -/
def Fault.message (fault : Fault) : String :=
  fault.kind.message ++ " at offset " ++ Text.zeroPadded 4 fault.offset ++ fault.lineText

def Failure.message : Failure → String
  | .build error => error.message
  | .run fault => fault.message

end StackMachine
