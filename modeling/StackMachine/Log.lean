import StackMachine.Text

/-!
Log records and their filtering by level.
-/
namespace StackMachine

inductive Level where
  | error
  | warn
  | info
  | debug
  | trace
  deriving DecidableEq

namespace Level

/-- Zero for errors, growing towards the details. -/
def verbosity : Level → Nat
  | .error => 0
  | .warn => 1
  | .info => 2
  | .debug => 3
  | .trace => 4

def name : Level → String
  | .error => "ERROR"
  | .warn => "WARN"
  | .info => "INFO"
  | .debug => "DEBUG"
  | .trace => "TRACE"

def ofName? (text : String) : Option Level :=
  [error, warn, info, debug, trace].find? fun level => level.name == text.toUpper

end Level

/-- Shows the records of a level and of all more important ones, or none at all. -/
inductive LogFilter where
  | off
  | upTo (level : Level)
  deriving DecidableEq

namespace LogFilter

def shows : LogFilter → Level → Bool
  | .off, _ => false
  | .upTo most, level => decide (level.verbosity ≤ most.verbosity)

def ofName? (text : String) : Option LogFilter :=
  if text.toUpper = "OFF" then some .off else (Level.ofName? text).map .upTo

end LogFilter

structure LogRecord where
  level : Level
  message : String
  /-- Names with their texts. -/
  fields : List (String × String)

/-- One line of the log of a component, under a time stamp. -/
def LogRecord.line (stamp component : String) (record : LogRecord) : String :=
  record.fields.foldl (fun line field => line ++ " " ++ field.1 ++ "=" ++ field.2)
    (stamp ++ " " ++ Text.alignRight 5 ' ' record.level.name ++ " " ++ component ++ ": " ++
      record.message)

end StackMachine
