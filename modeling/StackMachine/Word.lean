/-!
Machine words. Counts, offsets, indices and limits are natural numbers; the places where a
64-bit word could run out compare with `maxWord`. `Word.parse?` reads a word as a user writes it.
-/
namespace StackMachine

/-- The largest 64-bit word. -/
def maxWord : Nat := 18446744073709551615

namespace Word

/-- The value of a run of ASCII digits read after `high`, or `none` at any other character. -/
def digits? (high : Nat) : List Char → Option Nat
  | [] => some high
  | c :: rest => if c.isDigit then digits? (10 * high + (c.toNat - 48)) rest else none

/-- One plus sign may stand before a number. -/
def dropPlus : List Char → List Char
  | '+' :: rest => rest
  | text => text

/-- A word in decimal: at most one plus sign, then at least one ASCII digit, leading zeros
allowed, and a value that fits. -/
def parse? (text : String) : Option Nat :=
  match dropPlus text.toList with
  | [] => none
  | c :: rest =>
    match digits? 0 (c :: rest) with
    | some n => if n ≤ maxWord then some n else none
    | none => none

end Word

end StackMachine
