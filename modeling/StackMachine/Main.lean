import StackMachine.CommandLine.Session
import Std.Time

/-!
The command line program. It hands its arguments and the log level of the environment to a
session and prints what the session says.
-/
open StackMachine

/-- The current universal time, to the microsecond. -/
def timeStamp : IO String := do
  let now := Std.Time.WallTime.ofTimestamp (← Std.Time.Timestamp.now) .zero
  return (Std.Time.PlainDateTime.ofWallTime now).format "uuuu-MM-dd'T'HH:mm:ss.SSSSSS'Z'"

/-- Run a session and return its exit code. -/
def main (arguments : List String) : IO UInt32 := do
  let level ← IO.getEnv "RUST_LOG"
  let outcome :=
    CommandLine.session .standard (level.bind LogFilter.ofName?) arguments
  IO.print outcome.output
  for diagnostic in outcome.diagnostics do
    IO.eprint (diagnostic.text (← timeStamp))
  return UInt32.ofNat outcome.exitCode
