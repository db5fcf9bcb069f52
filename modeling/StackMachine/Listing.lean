import StackMachine.Listing.Row

/-!
Listings: all rows of a chunk from its first byte to its last, and their text under a heading.
-/
namespace StackMachine.Listing

/-- The row at an offset below a row of line `previous`: a recorded line that repeats it is only
marked as continued. -/
def rowBelow? (chunk : Chunk) (previous : Option Nat) (offset : Nat) : Option Row :=
  (Row.at? chunk offset).map fun row =>
    let line := chunk.lineAt? offset
    if line.isSome && line == previous then { row with line := .continued } else row

/-- A listed row takes at least one byte and ends inside the code. -/
theorem next_of_rowBelow? {chunk : Chunk} {previous : Option Nat} {offset : Nat} {row : Row}
    (h : rowBelow? chunk previous offset = some row) :
    offset < row.next ∧ row.next ≤ chunk.size := by
  obtain ⟨plain, found, rfl⟩ := Option.map_eq_some_iff.1 h
  have := Row.offset_lt_next_of_at? found
  dsimp only
  split <;> exact this

/-- `done` followed by the rows from `offset` on. -/
def rowsFrom (chunk : Chunk) (previous : Option Nat) (offset : Nat) (done : Array Row) :
    Array Row :=
  match _ : rowBelow? chunk previous offset with
  | none => done
  | some row => rowsFrom chunk (chunk.lineAt? offset) row.next (done.push row)
termination_by chunk.size - offset
decreasing_by
  have := next_of_rowBelow? ‹rowBelow? chunk previous offset = some row›
  omega

def rows (chunk : Chunk) : Array Row :=
  rowsFrom chunk none 0 #[]

/-- The heading with the name of a chunk, then a line for every row. -/
def text (chunk : Chunk) (name : String) : String :=
  (rows chunk).foldl (fun above row => above ++ row.text ++ "\n") ("== " ++ name ++ " ==\n")

end StackMachine.Listing
