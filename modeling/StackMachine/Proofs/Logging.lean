import StackMachine.Proofs.Growth
import StackMachine.Proofs.Tiling

/-! Logs of traced runs. They are told row by row from the listing, and each row is told together
with the stack that its instruction meets. -/
namespace StackMachine

/-- In a listing the offsets grow. -/
theorem Tiles.pairwise_offset {rows : List Row} {start stop : Nat} (h : Tiles start rows stop) :
    rows.Pairwise (fun above below => above.offset < below.offset) ∧
      ∀ row ∈ rows, start ≤ row.offset := by
  induction rows generalizing start with
  | nil => exact ⟨.nil, nofun⟩
  | cons first rest ih =>
      obtain ⟨rfl, hMoves, hRest⟩ := h
      obtain ⟨hPairwise, hBelow⟩ := ih hRest
      have hLater : ∀ row ∈ rest, first.offset < row.offset := fun row hRow =>
        Nat.lt_of_lt_of_le hMoves (hBelow row hRow)
      refine ⟨List.pairwise_cons.mpr ⟨hLater, hPairwise⟩, List.forall_mem_cons.mpr ⟨?_, ?_⟩⟩
      · exact Nat.le_refl first.offset
      · exact fun row hRow => Nat.le_of_lt (hLater row hRow)

/-- Up to the offset of a row there are the rows above it and the row itself. -/
theorem Tiles.countP_offset_le {front rest : List Row} {row : Row} {start stop : Nat}
    (h : Tiles start (front ++ row :: rest) stop) :
    (front ++ row :: rest).countP (fun other => other.offset ≤ row.offset) =
      front.length + 1 := by
  obtain ⟨-, hRest, hFront⟩ := List.pairwise_append.mp h.pairwise_offset.1
  have hAbove : front.countP (fun other => other.offset ≤ row.offset) = front.length := by
    rw [List.countP_eq_length]
    intro other hOther
    exact decide_eq_true (Nat.le_of_lt (hFront other hOther row List.mem_cons_self))
  have hBelow : rest.countP (fun other => other.offset ≤ row.offset) = 0 := by
    rw [List.countP_eq_zero]
    intro other hOther hLe
    exact Nat.not_le_of_lt ((List.pairwise_cons.mp hRest).1 other hOther) (of_decide_eq_true hLe)
  rw [List.countP_append, List.countP_cons, hAbove, hBelow, Nat.zero_add,
    if_pos (decide_eq_true (Nat.le_refl row.offset))]

/-- A row as it is seen on its own: a mark that continues the line above is replaced by the
line that is recorded. -/
def Row.alone (chunk : Chunk) (row : Row) : Row :=
  { row with line := Row.lineMark chunk row.offset }

/-- A row told by itself shows its own line, whatever stood above it. -/
theorem Row.alone_of_at? {chunk : Chunk} {offset : Nat} {row : Row}
    (h : Row.at? chunk offset = some row) (mark : LineMark) :
    Row.alone chunk { row with line := mark } = row := by
  have hOffset := Row.offset_of_at? h
  subst hOffset
  rw [Row.alone, ← Row.line_of_at? h]

/-- The events of a traced machine that meets the instructions of rows, one after the other, in
the given states. -/
def narrate (chunk : Chunk) (rows : List Row) (states : List Machine) : List Event :=
  List.zipWith (fun row state => .executing (row.alone chunk) state.stack.values) rows states

namespace Machine

variable {chunk : Chunk} {m : Machine}

def told (m : Machine) (chunk : Chunk) (rows : List Row) (states : List Machine) :
    Array Event :=
  if m.traced then (narrate chunk rows states).toArray else #[]

/-- What is told of two stretches of a run is told of the run. -/
theorem told_append {front rest : List Row} {earlier later : List Machine}
    (h : front.length = earlier.length) :
    m.told chunk (front ++ rest) (earlier ++ later) =
      m.told chunk front earlier ++ m.told chunk rest later := by
  unfold told narrate
  split
  · rw [List.zipWith_append h, List.append_toArray]
  · rfl

/-- An untraced machine tells nothing, a traced one everything. -/
theorem toList_told (m : Machine) (chunk : Chunk) (rows : List Row) (states : List Machine) :
    (m.told chunk rows states).toList = if m.traced then narrate chunk rows states else [] := by
  unfold told
  split <;> rfl

/-- A state tells of one row only. -/
theorem told_cons (row : Row) (rest : List Row) (state : Machine) :
    m.told chunk (row :: rest) [state] = m.told chunk [row] [state] := by
  unfold told narrate
  rw [List.zipWith_cons_cons, List.zipWith_cons_cons, List.zipWith_nil_right,
    List.zipWith_nil_right]

/-- The first of the rows that are left is told, if there is one. -/
theorem report_eq_told {p : Position} {state : Machine} (h : m.StandsAt p state)
    (above : Option Nat) (log : Array Event) :
    state.report chunk log =
      log ++ m.told chunk (Listing.rowsBelow chunk above p.ip) [state] := by
  unfold report told
  rw [h.traced]
  by_cases hTraced : m.traced = true
  · rw [if_pos hTraced, if_pos hTraced, upcoming?, h.ip]
    cases hRow : Row.at? chunk p.ip with
    | none =>
        rw [Listing.rowsBelow_of_none hRow]
        rfl
    | some row =>
        obtain ⟨mark, hBelow⟩ := Listing.rowBelow?_of_at? hRow above
        rw [Listing.rowsBelow_of_some hBelow, narrate, List.zipWith_cons_cons,
          Row.alone_of_at? hRow, List.zipWith_nil_right]
        exact Array.push_eq_append
  · rw [if_neg hTraced, if_neg hTraced, Array.append_empty]

/-- The run has come to a position. The rows above it are those of the executed instructions, and
they are told with the states that came before it. -/
structure Tells (chunk : Chunk) (m : Machine) (p : Position) (state : Machine)
    (trail : List (Instruction × Machine)) (front : List Row) (earlier : List Machine) :
    Prop where
  stands : m.StandsAt p state
  follows : m.reset.Follows chunk trail state
  states : m.reset :: trail.map Prod.snd = earlier ++ [state]
  rows : ∃ above, (Listing.rows chunk).toList = front ++ Listing.rowsBelow chunk above p.ip
  offsets : front.map Row.offset = earlier.map Machine.ip
  executes : ∀ log, execute chunk m.reset log =
    execute chunk state (log ++ m.told chunk front earlier)

theorem tells_start (m : Machine) (chunk : Chunk) :
    m.Tells chunk ⟨0, []⟩ m.reset [] [] [] where
  stands := m.standsAt_reset
  follows := .start
  states := rfl
  rows := ⟨none, rfl⟩
  offsets := rfl
  executes := by
    intro log
    have hNothing : m.told chunk [] [] = #[] := by
      unfold told
      split <;> rfl
    rw [hNothing, Array.append_empty]

namespace Tells

variable {p q : Position} {state : Machine} {trail : List (Instruction × Machine)}
  {front : List Row} {earlier : List Machine}

theorem length_eq (h : m.Tells chunk p state trail front earlier) :
    front.length = earlier.length := by
  have hLengths := congrArg List.length h.offsets
  rwa [List.length_map, List.length_map] at hLengths

theorem length_trail (h : m.Tells chunk p state trail front earlier) :
    front.length = trail.length := by
  have hLengths := congrArg List.length h.states
  rw [List.length_cons, List.length_map, List.length_append, List.length_singleton] at hLengths
  exact h.length_eq.trans (Nat.succ.inj hLengths).symm

/-- An instruction that is executed is told with the state that it meets. Its row is the first one
of those that are left. -/
theorem advance (h : m.Tells chunk p state trail front earlier)
    (hNext : Advances chunk m.stack.room p q) :
    ∃ i row next,
      m.Tells chunk q next (trail ++ [(i, next)]) (front ++ [row]) (earlier ++ [state]) := by
  obtain ⟨i, next, -, hFollows, hStep, hStands⟩ := h.follows.advance h.stands hNext
  obtain ⟨above, hRows⟩ := h.rows
  obtain ⟨row, hRow, -, hIp⟩ := hNext
  obtain ⟨mark, hBelow⟩ := Listing.rowBelow?_of_at? hRow above
  have hSplit := Listing.rowsBelow_of_some hBelow
  refine ⟨i, { row with line := mark }, next, ⟨hStands, hFollows, ?_, ?_, ?_, ?_⟩⟩
  · rw [List.map_append, ← List.cons_append, h.states]
    rfl
  · refine ⟨chunk.lineAt? p.ip, ?_⟩
    rw [hRows, hSplit, hIp, List.append_assoc]
    rfl
  · have hOffset : row.offset = state.ip :=
      (Listing.offset_of_rowBelow? hBelow).trans h.stands.ip.symm
    rw [List.map_append, List.map_append, h.offsets, List.map_singleton, List.map_singleton,
      ← hOffset]
  · intro log
    rw [h.executes log, execute_of_step h.stands.running hStep, report_eq_told h.stands above,
      hSplit, told_cons, told_append h.length_eq, Array.append_assoc]

end Tells

/-- Every run over positions is told, row by row and state by state. -/
theorem exists_tells {p : Position} {steps : Nat}
    (run : RunsFor chunk m.stack.room ⟨0, []⟩ p steps) :
    ∃ state trail front earlier, m.Tells chunk p state trail front earlier := by
  induction run with
  | zero => exact ⟨m.reset, [], [], [], m.tells_start chunk⟩
  | succ prior last ih =>
      obtain ⟨state, trail, front, earlier, hTells⟩ := ih
      obtain ⟨i, row, next, hNext⟩ := hTells.advance last
      exact ⟨next, _, _, _, hNext⟩

end Machine

/-- A run ends for want of code exactly where the listing has no row. -/
theorem endOfCode_iff_of_stops {chunk : Chunk} {limit : Nat} {p : Position} {ending : Ending}
    (h : Stops chunk limit p ending) :
    (ending.report chunk).map Fault.kind = some .unexpectedEndOfCode ↔
      Row.at? chunk p.ip = none := by
  cases h with
  | outOfCode hRow => exact ⟨fun _ => hRow, fun _ => rfl⟩
  | returned hRow => exact ⟨nofun, fun hNone => absurd (hRow.symm.trans hNone) nofun⟩
  | faulted hRow hEffect =>
      refine ⟨fun hKind => ?_, fun hNone => absurd (hRow.symm.trans hNone) nofun⟩
      cases hKind
      exact absurd hEffect (RowContent.effect_ne_endOfCode _ _ _)

namespace Machine.Tells

variable {chunk : Chunk} {m state : Machine} {p : Position}
  {trail : List (Instruction × Machine)} {front : List Row} {earlier : List Machine}

/-- The row of the instruction at hand comes next, if there is one. -/
theorem rows_cases (h : m.Tells chunk p state trail front earlier) :
    (Row.at? chunk p.ip = none ∧ (Listing.rows chunk).toList = front) ∨
      ∃ row rest, Row.at? chunk p.ip ≠ none ∧ row.offset = p.ip ∧
        (Listing.rows chunk).toList = front ++ row :: rest := by
  obtain ⟨above, hRows⟩ := h.rows
  cases hRow : Row.at? chunk p.ip with
  | none =>
      rw [Listing.rowsBelow_of_none hRow, List.append_nil] at hRows
      exact .inl ⟨rfl, hRows⟩
  | some row =>
      obtain ⟨mark, hBelow⟩ := Listing.rowBelow?_of_at? hRow above
      rw [Listing.rowsBelow_of_some hBelow] at hRows
      exact .inr ⟨_, _, nofun, Listing.offset_of_rowBelow? hBelow, hRows⟩

/-- A state is about to execute the instruction of its row. -/
theorem ip_eq (h : m.Tells chunk p state trail front earlier) {k : Nat} {row : Row}
    (hRow : (Listing.rows chunk).toList[k]? = some row) {other : Machine}
    (hState : (m.reset :: trail.map Prod.snd)[k]? = some other) : other.ip = row.offset := by
  rw [h.states] at hState
  have hLength := h.length_eq
  rcases Nat.lt_or_ge k front.length with hAbove | hHere
  · have hFront : front[k]? = some row := by
      obtain ⟨above, hRows⟩ := h.rows
      rwa [hRows, List.getElem?_append_left hAbove] at hRow
    rw [List.getElem?_append_left (hLength ▸ hAbove)] at hState
    have hOffsets := congrArg (fun offsets => offsets[k]?) h.offsets
    simp only [List.getElem?_map, hFront, hState, Option.map_some] at hOffsets
    exact (Option.some.inj hOffsets).symm
  · obtain ⟨hBound, -⟩ := List.getElem?_eq_some_iff.mp hState
    rw [List.length_append, List.length_singleton] at hBound
    obtain rfl : k = front.length := by omega
    rw [hLength, List.getElem?_concat_length] at hState
    cases hState
    rcases h.rows_cases with ⟨-, hRows⟩ | ⟨first, rest, -, hOffset, hRows⟩
    · rw [hRows, List.getElem?_eq_none (Nat.le_refl _)] at hRow
      cases hRow
    · rw [hRows, List.getElem?_append_right (Nat.le_refl _), Nat.sub_self] at hRow
      cases hRow
      exact h.stands.ip.trans hOffset.symm

/-- As many rows are told as there are up to the offset of the position. -/
theorem length_told (h : m.Tells chunk p state trail front earlier) :
    min (Listing.rows chunk).toList.length (trail.length + 1) =
        (Listing.rows chunk).toList.countP (fun row => row.offset ≤ p.ip) ∧
      min (Listing.rows chunk).toList.length (trail.length + 1) =
        if Row.at? chunk p.ip = none then trail.length else trail.length + 1 := by
  have hLength := h.length_trail
  rcases h.rows_cases with ⟨hNone, hRows⟩ | ⟨row, rest, hSome, hOffset, hRows⟩
  · have hTold : min (Listing.rows chunk).toList.length (trail.length + 1) = trail.length := by
      rw [hRows, hLength]
      exact Nat.min_eq_left (Nat.le_succ trail.length)
    have hEvery : (Listing.rows chunk).toList.countP (fun row => row.offset ≤ p.ip) =
        (Listing.rows chunk).toList.length := by
      rw [List.countP_eq_length]
      intro row hRow
      obtain ⟨mark, hPlain⟩ := Listing.at?_of_mem_rowsBelow hRow
      have hInside := Row.lt_size_of_at? hPlain
      have hEnd := Row.size_le_of_at?_eq_none hNone
      exact decide_eq_true (by omega)
    rw [if_pos hNone, hEvery, hTold, hRows]
    exact ⟨hLength.symm, rfl⟩
  · have hTold : min (Listing.rows chunk).toList.length (trail.length + 1) =
        trail.length + 1 := by
      rw [hRows, List.length_append, List.length_cons, hLength]
      omega
    have hTiles := Listing.tiles_rows chunk
    rw [hRows] at hTiles
    have hCount := hTiles.countP_offset_le
    rw [← hRows, hOffset, hLength] at hCount
    rw [if_neg hSome, hTold, hCount]
    exact ⟨rfl, rfl⟩

/-- Where the program stops, the log has told the rows as far as there are states. The last state
tells the row at hand, or nothing at the end of the code. -/
theorem events_eq (h : m.Tells chunk p state trail front earlier) {ending : Ending}
    (hStops : Stops chunk m.stack.room p ending) (log : Array Event) :
    (execute chunk m.reset log).events =
      log ++ m.told chunk (Listing.rows chunk).toList (m.reset :: trail.map Prod.snd) := by
  obtain ⟨above, hRows⟩ := h.rows
  obtain ⟨last, hEnded, -, -⟩ :=
    execute_of_stops h.stands hStops (log ++ m.told chunk front earlier)
  rw [h.executes, hEnded, report_eq_told h.stands above, Array.append_assoc,
    ← told_append h.length_eq, ← hRows, ← h.states]

end Machine.Tells

/-- A load and its negation from one line, and an addition that lacks an operand. -/
def starved : Chunk :=
  (BuildStep.writeOpcode .add 8).leave .standard
    ((BuildStep.writeOpcode .negate 7).leave .standard
      ((BuildStep.writeConstant (.number 1) 7).leave .standard .empty))

end StackMachine
