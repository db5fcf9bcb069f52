import StackMachine.Listing.Row
import StackMachine.Log

/-!
What a machine reports while it runs, and the log records that show it.
-/
namespace StackMachine

inductive Event where
  | started (codeSize constants : Nat)
  /-- An instruction is about to be executed on a stack, given from the bottom to the top. -/
  | executing (row : Row) (stack : Array Value)
  | finished (depth : Nat)
  | faulted (fault : Fault)

namespace Event

def lineText : Option Nat → String
  | some line => "Some(" ++ toString line ++ ")"
  | none => "None"

def record : Event → LogRecord
  | .started codeSize constants =>
    ⟨.debug, "run started", [("code_len", toString codeSize), ("constants", toString constants)]⟩
  | .executing row stack =>
    ⟨.trace, row.text, [("stack", Value.debugList stack.toList)]⟩
  | .finished depth =>
    ⟨.debug, "run finished", [("stack_depth", toString depth)]⟩
  | .faulted fault =>
    ⟨.debug, "run faulted",
      [("offset", toString fault.offset), ("line", lineText fault.line),
        ("kind", fault.kind.message)]⟩

end Event

end StackMachine
