import StackMachine.Proofs.Terms

/-! Running the code of a tree. It may stand anywhere in the code of a chunk and on any values.
Whether it overflows is decided by the number of values that it needs at once. -/
namespace StackMachine

variable {chunk : Chunk} {limit : Nat}

/-- Executing the instruction that stands at an offset. -/
theorem RunsFor.of_executes {ip : Nat} {i : Instruction} {values after : List Value}
    (hForm : i.WellFormed) (hCode : Carries chunk.code.toArray ip i.encode)
    (h : Executes chunk.constants limit i values after) :
    RunsFor chunk limit ⟨ip, values⟩ ⟨ip + i.width, after⟩ 1 :=
  .single (advances_iff.mpr ⟨i, Instruction.decode_of_carries hForm hCode, h, rfl⟩)

/-- A load of a constant that is there stops the program if the stack is full. -/
theorem stops_of_full {ip : Nat} {source : Load} {value : Value} {values : List Value}
    (hCode : Carries chunk.code.toArray ip source.instruction.encode)
    (hValue : chunk.constants.get? source.index = some value)
    (hFull : values.length = limit) :
    ∃ pointer,
      Stops chunk limit ⟨ip, values⟩ ⟨some (ip, .stackOverflow), pointer, []⟩ := by
  obtain ⟨operand, hOperand, hIndex⟩ := source.operand_instruction
  have hDecode := Instruction.decode_of_carries source.wellFormed_instruction hCode
  have hEffect : (Row.contentOf chunk source.instruction).effect limit values =
      .faults .stackOverflow := by
    simp only [Row.contentOf, hOperand, Chunk.constant?, hIndex, hValue]
    exact if_pos (Nat.le_of_eq hFull.symm)
  exact ⟨_, .faulted (Row.at?_eq_some_iff.mpr (.inl ⟨_, hDecode, rfl⟩)) hEffect⟩

namespace Term

/-- How many values lie on the stack at once while a tree is evaluated. -/
def need : Term → Nat
  | .load _ => 1
  | .negate operand => operand.need
  | .binary _ left right => max left.need (1 + right.need)

theorem need_pos (t : Term) : 0 < t.need := by
  induction t with
  | load source => exact Nat.one_pos
  | negate operand ih => exact ih
  | binary operator left right ihLeft ihRight =>
      exact Nat.lt_of_lt_of_le ihLeft (Nat.le_max_left _ _)

/-- No term needs more room than it has instructions. -/
theorem need_le_length (t : Term) : t.need ≤ t.instructions.length := by
  induction t with
  | load source => exact Nat.le_refl 1
  | negate operand ih =>
      rw [need, instructions, List.length_append]
      omega
  | binary operator left right ihLeft ihRight =>
      rw [need, instructions, List.length_append, List.length_append, List.length_singleton]
      omega

theorem value?_negate_eq_some {constants : ConstantPool} {operand : Term} {value : Value}
    (h : (negate operand).value? constants = some value) :
    ∃ x, operand.value? constants = some x ∧ value = .number (-x.toFloat) := by
  rw [value?] at h
  cases hOperand : operand.value? constants with
  | none => simp [hOperand] at h
  | some x =>
      simp only [hOperand, Option.some_inj] at h
      exact ⟨x, rfl, h.symm⟩

/-- A term has a value when both of its operands have. -/
theorem value?_binary_eq_some {constants : ConstantPool} {operator : Operator}
    {left right : Term} {value : Value}
    (h : (binary operator left right).value? constants = some value) :
    ∃ x y, left.value? constants = some x ∧ right.value? constants = some y ∧
      value = .number (operator.apply x.toFloat y.toFloat) := by
  rw [value?] at h
  cases hLeft : left.value? constants with
  | none => simp [hLeft] at h
  | some x =>
      cases hRight : right.value? constants with
      | none => simp [hLeft, hRight] at h
      | some y =>
          simp only [hLeft, hRight, Option.some_inj] at h
          exact ⟨x, y, rfl, rfl, h.symm⟩

/-- With enough room the code of a tree leaves exactly one value more, the value of the tree.
The values below are not touched. -/
theorem exists_run {t : Term} {ip : Nat} {value : Value} {values : List Value}
    (hCode : Carries chunk.code.toArray ip t.code)
    (hValue : t.value? chunk.constants = some value)
    (hRoom : values.length + t.need ≤ limit) :
    ∃ steps, RunsFor chunk limit ⟨ip, values⟩ ⟨ip + t.code.length, value :: values⟩ steps := by
  induction t generalizing ip value values with
  | load source =>
      rw [code_load] at hCode ⊢
      rw [Instruction.length_encode]
      exact ⟨1, .of_executes source.wellFormed_instruction hCode (.load hValue hRoom)⟩
  | negate operand ih =>
      obtain ⟨x, hOperand, rfl⟩ := value?_negate_eq_some hValue
      rw [code_negate] at hCode ⊢
      obtain ⟨hFirst, hLast⟩ := carries_append_iff.mp hCode
      obtain ⟨steps, run⟩ := ih hFirst hOperand hRoom
      have hBelow : values.length < limit := by
        have := need_pos operand
        rw [need] at hRoom
        omega
      have last := RunsFor.of_executes (i := ⟨.negate, none⟩) rfl hLast (.negate (x := x) hBelow)
      refine ⟨steps + 1, ?_⟩
      rw [List.length_append, ← Nat.add_assoc]
      exact run.trans last
  | binary operator left right ihLeft ihRight =>
      obtain ⟨x, y, hLeft, hRight, rfl⟩ := value?_binary_eq_some hValue
      rw [code_binary] at hCode ⊢
      obtain ⟨hOperands, hLast⟩ := carries_append_iff.mp hCode
      obtain ⟨hFirst, hSecond⟩ := carries_append_iff.mp hOperands
      rw [need] at hRoom
      have hLeftRoom : values.length + left.need ≤ limit := by omega
      have hRightRoom : (x :: values).length + right.need ≤ limit := by
        rw [List.length_cons]
        omega
      obtain ⟨first, runLeft⟩ := ihLeft hFirst hLeft hLeftRoom
      obtain ⟨second, runRight⟩ := ihRight hSecond hRight hRightRoom
      have hBelow : values.length < limit := by
        have := need_pos left
        omega
      rw [List.length_append, ← Nat.add_assoc, ← encode_operator] at hLast
      have last := RunsFor.of_executes (wellFormed_operator operator) hLast
        (.binary (x := x) (y := y) hBelow)
      refine ⟨first + second + 1, ?_⟩
      rw [List.length_append, List.length_append, ← Nat.add_assoc, ← Nat.add_assoc,
        ← encode_operator, Instruction.length_encode]
      exact (runLeft.trans runRight).trans last

/-- A load in the code of a tree: where it stands, and how many values it finds. -/
structure Site where
  offset : Nat
  depth : Nat

/-- The loads of a tree in postfix order, for code that begins at an offset with `depth`
values below. A right operand finds the value of the left one. -/
def sites (offset depth : Nat) : Term → List Site
  | .load _ => [⟨offset, depth⟩]
  | .negate operand => operand.sites offset depth
  | .binary _ left right =>
    left.sites offset depth ++ right.sites (offset + left.code.length) (depth + 1)

/-- Every load of a term stands below its need. -/
theorem depth_lt_of_mem_sites {t : Term} {offset depth : Nat} {site : Site}
    (h : site ∈ t.sites offset depth) : site.depth < depth + t.need := by
  induction t generalizing offset depth with
  | load source =>
      rw [List.mem_singleton.mp h]
      exact Nat.lt_succ_self depth
  | negate operand ih => exact ih h
  | binary operator left right ihLeft ihRight =>
      rw [need]
      rcases List.mem_append.mp h with hLeft | hRight
      · have := ihLeft hLeft
        omega
      · have := ihRight hRight
        omega

/-- The first load that finds as many values as there may be. -/
def overflow? (limit : Nat) (sites : List Site) : Option Site :=
  sites.find? (fun site => site.depth == limit)

/-- With room for the need no load overflows. -/
theorem overflow?_eq_none {t : Term} {depth : Nat} (h : depth + t.need ≤ limit)
    (offset : Nat) : overflow? limit (t.sites offset depth) = none := by
  apply List.find?_eq_none.mpr
  intro site hSite hFull
  have hBelow := depth_lt_of_mem_sites hSite
  rw [beq_iff_eq] at hFull
  omega

/-- Without enough room the code of a tree is executed up to the first load that finds the
stack full, and stops there. -/
theorem exists_overflow {t : Term} {ip : Nat} {value : Value} {values : List Value}
    (hCode : Carries chunk.code.toArray ip t.code)
    (hValue : t.value? chunk.constants = some value) (hBelow : values.length ≤ limit)
    (hShort : limit < values.length + t.need) :
    ∃ site steps present pointer,
      overflow? limit (t.sites ip values.length) = some site ∧
      RunsFor chunk limit ⟨ip, values⟩ ⟨site.offset, present⟩ steps ∧
      Stops chunk limit ⟨site.offset, present⟩
        ⟨some (site.offset, .stackOverflow), pointer, []⟩ := by
  induction t generalizing ip value values with
  | load source =>
      have hFull : values.length = limit := by
        rw [need] at hShort
        omega
      rw [code_load] at hCode
      obtain ⟨pointer, hStops⟩ := stops_of_full hCode hValue hFull
      refine ⟨⟨ip, values.length⟩, 0, values, pointer, ?_, .zero _, hStops⟩
      exact List.find?_cons_of_pos (beq_iff_eq.mpr hFull)
  | negate operand ih =>
      obtain ⟨x, hOperand, -⟩ := value?_negate_eq_some hValue
      rw [code_negate] at hCode
      exact ih (carries_append_iff.mp hCode).1 hOperand hBelow hShort
  | binary operator left right ihLeft ihRight =>
      obtain ⟨x, y, hLeft, hRight, -⟩ := value?_binary_eq_some hValue
      rw [code_binary] at hCode
      obtain ⟨hFirst, hSecond⟩ := carries_append_iff.mp (carries_append_iff.mp hCode).1
      by_cases hLeftShort : limit < values.length + left.need
      · obtain ⟨site, steps, present, pointer, hSite, run, hStops⟩ :=
          ihLeft hFirst hLeft hBelow hLeftShort
        refine ⟨site, steps, present, pointer, ?_, run, hStops⟩
        rw [sites, overflow?, List.find?_append]
        exact Option.or_eq_some_iff.mpr (.inl hSite)
      · have hLeftRoom : values.length + left.need ≤ limit := Nat.le_of_not_lt hLeftShort
        have hRightBelow : (x :: values).length ≤ limit := by
          have := need_pos left
          rw [List.length_cons]
          omega
        have hRightShort : limit < (x :: values).length + right.need := by
          rw [need] at hShort
          rw [List.length_cons]
          omega
        obtain ⟨first, runLeft⟩ := exists_run hFirst hLeft hLeftRoom
        obtain ⟨site, second, present, pointer, hSite, runRight, hStops⟩ :=
          ihRight hSecond hRight hRightBelow hRightShort
        refine ⟨site, first + second, present, pointer, ?_, runLeft.trans runRight, hStops⟩
        have hNone := overflow?_eq_none hLeftRoom ip
        rw [overflow?] at hNone
        rw [sites, overflow?, List.find?_append, hNone, Option.none_or]
        exact hSite

/-- The code of several trees leaves their values, the last one on top. -/
theorem exists_run_forest {forest : List Term} {ip : Nat} {results values : List Value}
    (hCode : Carries chunk.code.toArray ip (codeAll forest))
    (hValues : forest.map (value? chunk.constants) = results.map some)
    (hRoom : values.length + (forest.flatMap instructions).length ≤ limit) :
    ∃ steps, RunsFor chunk limit ⟨ip, values⟩
      ⟨ip + (codeAll forest).length, results.reverse ++ values⟩ steps := by
  induction forest generalizing ip results values with
  | nil =>
      rw [List.map_nil] at hValues
      rw [List.map_eq_nil_iff.mp hValues.symm]
      exact ⟨0, .zero _⟩
  | cons t rest ih =>
      rw [List.map_cons] at hValues
      obtain ⟨value, others, rfl, hValue, hOthers⟩ := List.map_eq_cons_iff.mp hValues.symm
      rw [List.flatMap_cons, List.length_append] at hRoom
      have hNeed := need_le_length t
      have hPos := need_pos t
      have hFirstRoom : values.length + t.need ≤ limit := by omega
      have hRestRoom :
          (value :: values).length + (rest.flatMap instructions).length ≤ limit := by
        rw [List.length_cons]
        omega
      obtain ⟨hFirst, hRest⟩ := carries_append_iff.mp hCode
      obtain ⟨first, runFirst⟩ := exists_run hFirst hValue.symm hFirstRoom
      obtain ⟨second, runRest⟩ := ih hRest hOthers.symm hRestRoom
      refine ⟨first + second, ?_⟩
      have hLength : (codeAll (t :: rest)).length = t.code.length + (codeAll rest).length :=
        List.length_append
      rw [hLength, ← Nat.add_assoc, List.reverse_cons, List.append_assoc]
      exact runFirst.trans runRest

end Term

end StackMachine
