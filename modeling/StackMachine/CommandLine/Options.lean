import StackMachine.Word

/-!
The arguments of the command line, read from left to right. A later argument overrides an
earlier one, and the first argument that cannot be read decides the error.
-/
namespace StackMachine.CommandLine

structure Options where
  program : String := "constant"
  trace : Bool := false
  stackSize : Option Nat := none
  deriving DecidableEq

inductive UsageError where
  | missingName
  | missingNumber
  | invalidNumber (text : String)
  | unrecognized (argument : String)
  | unknownProgram (name : String)
  deriving DecidableEq

def UsageError.message : UsageError → String
  | .missingName => "--program needs a name"
  | .missingNumber => "--stack-size needs a number"
  | .invalidNumber text => "invalid stack size '" ++ text ++ "'"
  | .unrecognized argument => "unrecognized argument '" ++ argument ++ "'"
  | .unknownProgram name => "unknown program '" ++ name ++ "'"

/-- Read the arguments on top of the options read so far. -/
def Options.parse (options : Options) : List String → Except UsageError Options
  | [] => .ok options
  | argument :: rest =>
    if argument = "--trace" then
      parse { options with trace := true } rest
    else if argument = "--program" then
      match rest with
      | [] => .error .missingName
      | name :: rest => parse { options with program := name } rest
    else if argument = "--stack-size" then
      match rest with
      | [] => .error .missingNumber
      | text :: rest =>
        match Word.parse? text with
        | none => .error (.invalidNumber text)
        | some size => parse { options with stackSize := some size } rest
    else .error (.unrecognized argument)

end StackMachine.CommandLine
