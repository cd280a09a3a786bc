import LogicTrainer.Proofs.Entries
import LogicTrainer.Proofs.TruthTable.Tabulation
import LogicTrainer.TruthTable.Grading

/-! Grading is sound.

A mark is made by grading and goes stale with the next entry, so every change of an entry has
to take it back. That this happens everywhere is said of one cell (`Cell.IsSound`) and carried
over to tables by what each call does to the cells: an entry replaces the one at its place
(`enter_of_cell`), and grading and revealing change them all alike (`cell_mapCells`). What is
not entered or marked is what is left when the entries are cleared (`cleared`), and no call
changes that.

The main statement is `grading_is_sound`. -/
namespace LogicTrainer

/-! ### Cells -/

/-- The mark of a cell, if it has one, is right. -/
def Cell.IsSound (c : Cell) : Prop :=
  (c.status = .correct → c.entered = some c.expected) ∧
    (c.status = .error → c.entered ≠ some c.expected)

theorem Cell.isSound_of_idle {c : Cell} (h : c.status = .idle) : c.IsSound :=
  ⟨fun hc => (by rw [h] at hc; cases hc), fun he => (by rw [h] at he; cases he)⟩

theorem Cell.isSound_grade (c : Cell) : c.grade.IsSound := by
  by_cases h : c.entered = some c.expected <;> simp [IsSound, grade, h]

theorem Cell.status_grade_eq_correct_iff {c : Cell} :
    c.grade.status = .correct ↔ c.entered = some c.expected := by
  by_cases h : c.entered = some c.expected <;> simp [grade, h]

theorem Cell.status_grade_ne_idle (c : Cell) : c.grade.status ≠ .idle := by
  by_cases h : c.entered = some c.expected <;> simp [grade, h]

/-! ### Rows -/

theorem Row.mapCells_mapCells (φ ψ : Cell → Cell) (r : Row) :
    (r.mapCells φ).mapCells ψ = r.mapCells (ψ ∘ φ) := by
  simp [Row.mapCells]

theorem Row.allCells_mapCells (φ : Cell → Cell) (r : Row) :
    (r.mapCells φ).allCells = r.allCells.map φ := by
  simp [Row.allCells, Row.mapCells]

namespace TruthTable
section
variable {r : Row} {c : Cell} {column : Option Text}

theorem cellIn_mapCells (φ : Cell → Cell) (r : Row) (column : Option Text) :
    cellIn (r.mapCells φ) column = (cellIn r column).map φ := by
  cases column with
  | none => rfl
  | some name =>
    simp only [cellIn, Row.mapCells, Entries.get?_map]
    cases Entries.get? name r.cells <;> rfl

/-- After a cell is replaced, it is the cell of its column, and the others are as before. -/
theorem cellIn_setIn (c : Cell) (column : Option Text) (r : Row) (other : Option Text) :
    cellIn (setIn c column r) other = if other = column then .ok c else cellIn r other := by
  cases column with
  | none => cases other <;> rfl
  | some name =>
    cases other with
    | none => rfl
    | some key =>
      by_cases hkey : name = key
      · simp [cellIn, setIn, Entries.get?_insert, hkey]
      · simp [cellIn, setIn, Entries.get?_insert, hkey, Ne.symm hkey]

/-- A row has a cell in each of its columns, and the final one. -/
theorem exists_cellIn_iff :
    (∃ c, cellIn r column = .ok c) ↔ ∀ name, column = some name → name ∈ r.cells.keys := by
  cases column with
  | none => exact ⟨fun _ _ hname => (by cases hname), fun _ => ⟨r.final, rfl⟩⟩
  | some name =>
    simp only [cellIn, Option.some.injEq, forall_eq', ← Entries.isSome_get?_iff]
    cases Entries.get? name r.cells <;> simp

theorem mapCells_setIn (φ : Cell → Cell) (c : Cell) (column : Option Text) (r : Row) :
    (setIn c column r).mapCells φ = setIn (φ c) column (r.mapCells φ) := by
  cases column with
  | none => rfl
  | some name => simp only [setIn, Row.mapCells, Entries.map_insert]

/-- Replacing a cell by itself does nothing. -/
theorem setIn_of_cellIn (h : cellIn r column = .ok c) : setIn c column r = r := by
  cases column with
  | none =>
    cases h
    rfl
  | some name =>
    simp only [cellIn] at h
    split at h
    · next hget =>
      cases h
      rw [setIn, Entries.insert_of_get? hget]
    · cases h

theorem mem_allCells_setIn {d : Cell} (h : d ∈ (setIn c column r).allCells) :
    d = c ∨ d ∈ r.allCells := by
  cases column with
  | none =>
    rcases List.mem_append.1 h with h | h
    · exact .inr (List.mem_append_left _ h)
    · exact .inl (List.mem_singleton.1 h)
  | some name =>
    rcases List.mem_append.1 h with h | h
    · obtain ⟨entry, he, rfl⟩ := List.mem_map.1 h
      rcases Entries.mem_insert he with rfl | he
      · exact .inl rfl
      · exact .inr (List.mem_append_left _ (List.mem_map_of_mem he))
    · exact .inr (List.mem_append_right _ h)

end

/-! ### Tables -/

/-- The table with nothing entered. -/
def cleared (t : TruthTable) : TruthTable := t.mapCells fun c => .blank c.expected

section
variable {t : TruthTable}

theorem rowIndex?_mapCells (φ : Cell → Cell) (t : TruthTable) (index : Int) :
    (t.mapCells φ).rowIndex? index = t.rowIndex? index := by
  simp only [rowIndex?, mapCells, List.length_map]

theorem cell_mapCells (φ : Cell → Cell) (t : TruthTable) (index : Int) (column : Option Text) :
    (t.mapCells φ).cell index column = (t.cell index column).map φ := by
  rw [cell, cell, rowIndex?_mapCells]
  cases t.rowIndex? index with
  | none => rfl
  | some i =>
    simp only [Option.bind_some, mapCells, List.getElem?_map]
    cases t.rows[i]? with
    | none => rfl
    | some r => exact cellIn_mapCells φ r column

/-- What a change of cells leaves in a cell, it leaves at every place. -/
theorem map_cell_mapCells {φ : Cell → Cell} {β : Type} {p : Cell → β} (hp : ∀ c, p (φ c) = p c)
    (index : Int) (column : Option Text) :
    ((t.mapCells φ).cell index column).map p = (t.cell index column).map p := by
  rw [cell_mapCells]
  cases t.cell index column with
  | error e => rfl
  | ok c => exact congrArg Except.ok (hp c)

theorem allCells_mapCells (φ : Cell → Cell) (t : TruthTable) :
    (t.mapCells φ).allCells = t.allCells.map φ := by
  simp only [allCells, mapCells, List.flatMap_map, List.map_flatMap, Row.allCells_mapCells]

theorem mapCells_mapCells (φ ψ : Cell → Cell) (t : TruthTable) :
    (t.mapCells φ).mapCells ψ = t.mapCells (ψ ∘ φ) := by
  have hrows : Row.mapCells ψ ∘ Row.mapCells φ = Row.mapCells (ψ ∘ φ) :=
    funext (Row.mapCells_mapCells φ ψ)
  rw [mapCells, mapCells, List.map_map, hrows]
  rfl

/-- Changing cells alike leaves what is expected in them. -/
theorem cleared_mapCells {φ : Cell → Cell} (h : ∀ c, (φ c).expected = c.expected)
    (t : TruthTable) : (t.mapCells φ).cleared = t.cleared := by
  rw [cleared, mapCells_mapCells, cleared]
  simp only [Function.comp_def, h]

theorem rowIndex?_eq_some_iff {index : Int} {i : Nat} : t.rowIndex? index = some i ↔
    i < t.rows.length ∧ ((i : Int) = index ∨ (i : Int) = index + t.rows.length) := by
  by_cases hneg : index < 0
  · simp only [rowIndex?, if_pos hneg]
    split <;> simp only [Option.some.injEq, reduceCtorEq, false_iff] <;> omega
  · simp only [rowIndex?, if_neg hneg]
    split <;> simp only [Option.some.injEq, reduceCtorEq, false_iff] <;> omega

/-- A row that an index means is there. -/
theorem exists_row_of_rowIndex? {index : Int} {i : Nat} (h : t.rowIndex? index = some i) :
    ∃ r, t.rows[i]? = some r :=
  ⟨_, List.getElem?_eq_getElem (rowIndex?_eq_some_iff.1 h).1⟩

/-- The indices from the end and from the start. -/
theorem exists_rowIndex?_iff {index : Int} : (∃ i, t.rowIndex? index = some i) ↔
    -(t.rows.length : Int) ≤ index ∧ index < t.rows.length := by
  simp only [rowIndex?_eq_some_iff]
  constructor
  · rintro ⟨i, hi, hindex⟩
    omega
  · rintro ⟨hlow, hhigh⟩
    by_cases hneg : index < 0
    · exact ⟨(index + t.rows.length).toNat, by omega, by omega⟩
    · exact ⟨index.toNat, by omega, by omega⟩

/-- A cell stands in a row that the index means. -/
theorem exists_of_cell_eq_ok {index : Int} {column : Option Text} {c : Cell}
    (h : t.cell index column = .ok c) :
    ∃ i r, t.rowIndex? index = some i ∧ t.rows[i]? = some r ∧ cellIn r column = .ok c := by
  rw [cell] at h
  split at h
  · cases h
  · next r hr =>
    obtain ⟨i, hi, hr⟩ := Option.bind_eq_some_iff.1 hr
    exact ⟨i, r, hi, hr, h⟩

/-! ### Entering -/

/-- The table with a cell replaced. -/
def setCell (t : TruthTable) (i : Nat) (column : Option Text) (c : Cell) : TruthTable :=
  {t with rows := t.rows.modify i (setIn c column)}

theorem rowIndex?_setCell (i : Nat) (column : Option Text) (c : Cell) (index : Int) :
    (t.setCell i column c).rowIndex? index = t.rowIndex? index := by
  simp only [rowIndex?, setCell, List.length_modify]

/-- Where a cell is replaced, no other changes. -/
theorem cell_setCell {index : Int} {i : Nat} (hi : t.rowIndex? index = some i)
    (column : Option Text) (c : Cell) (j : Int) (other : Option Text) :
    (t.setCell i column c).cell j other =
      if t.rowIndex? j = t.rowIndex? index ∧ other = column then .ok c else t.cell j other := by
  rw [cell, cell, rowIndex?_setCell, hi]
  cases hj : t.rowIndex? j with
  | none => simp
  | some k =>
    obtain ⟨r, hr⟩ := exists_row_of_rowIndex? hj
    simp only [Option.bind_some, setCell, List.getElem?_modify, hr, Option.map_eq_map,
      Option.map_some, Option.some.injEq]
    by_cases hk : k = i
    · rw [if_pos hk.symm, cellIn_setIn]
      simp only [hk, true_and]
    · rw [if_neg (Ne.symm hk), if_neg fun h => hk h.1]

/-- Replacing a cell by one that expects the same leaves the rest of the table. -/
theorem cleared_setCell {i : Nat} {column : Option Text} {c d : Cell} {r : Row}
    (hr : t.rows[i]? = some r) (hc : cellIn r column = .ok c) (hd : d.expected = c.expected) :
    (t.setCell i column d).cleared = t.cleared := by
  have hrow : (setIn d column r).mapCells (fun c => .blank c.expected) =
      r.mapCells fun c => .blank c.expected := by
    rw [mapCells_setIn]
    exact setIn_of_cellIn (by rw [cellIn_mapCells, hc, hd]; rfl)
  simp only [cleared, setCell, mapCells, TruthTable.mk.injEq, true_and, and_true]
  refine List.ext_getElem? fun k => ?_
  rw [List.getElem?_map, List.getElem?_map, List.getElem?_modify]
  by_cases hk : i = k
  · subst hk
    simp [hr, hrow]
  · simp [hk]

theorem mem_allCells_setCell {i : Nat} {column : Option Text} {c d : Cell}
    (h : d ∈ (t.setCell i column c).allCells) : d = c ∨ d ∈ t.allCells := by
  obtain ⟨row, hrow, hd⟩ := List.mem_flatMap.1 h
  obtain ⟨k, hk⟩ := List.mem_iff_getElem?.1 hrow
  simp only [setCell, List.getElem?_modify, Option.map_eq_map, Option.map_eq_some_iff] at hk
  obtain ⟨r, hr, rfl⟩ := hk
  have hmem : r ∈ t.rows := List.mem_iff_getElem?.2 ⟨k, hr⟩
  split at hd
  · rcases mem_allCells_setIn hd with rfl | hd
    · exact .inl rfl
    · exact .inr (List.mem_flatMap.2 ⟨r, hmem, hd⟩)
  · exact .inr (List.mem_flatMap.2 ⟨r, hmem, hd⟩)

section
variable {index : Int} {column : Option Text} {value : Json} {entry : Option Bool}

/-- What may not be entered is refused, whatever the place. -/
theorem enter_of_refused (h : entryValue? value = none) :
    t.enter index column value = .ok (false, t) := by
  rw [enter, h]

/-- What may be entered fails where there is no cell. -/
theorem enter_of_error {e : PlaceError} (h : entryValue? value = some entry)
    (he : t.cell index column = .error e) : t.enter index column value = .error e := by
  rw [enter, h, he]

/-- What may be entered replaces the entry of the cell, and takes its mark back. -/
theorem enter_of_cell {c : Cell} {i : Nat} (h : entryValue? value = some entry)
    (hi : t.rowIndex? index = some i) (hc : t.cell index column = .ok c) :
    t.enter index column value = .ok (true, t.setCell i column ⟨c.expected, entry, .idle⟩) := by
  rw [enter, h, hc, hi]
  rfl

end

/-! ### The invariant -/

/-- A table that has grown out of another by entries and grading. -/
structure Grades (start t : TruthTable) : Prop where
  cleared : t.cleared = start
  sound : ∀ c ∈ t.allCells, c.IsSound

end

namespace Grades
variable {start t : TruthTable}

/-- Changing cells alike keeps the table, if it makes every cell sound. -/
theorem mapCells (h : Grades start t) {φ : Cell → Cell} (hφ : ∀ c, (φ c).expected = c.expected)
    (hsound : ∀ c, (φ c).IsSound) : Grades start (t.mapCells φ) where
  cleared := (cleared_mapCells hφ t).trans h.cleared
  sound c hc := by
    rw [allCells_mapCells] at hc
    obtain ⟨d, -, rfl⟩ := List.mem_map.1 hc
    exact hsound d

theorem grade (h : Grades start t) : Grades start t.grade :=
  h.mapCells (fun _ => rfl) Cell.isSound_grade

theorem fillExpected (h : Grades start t) : Grades start t.fillExpected :=
  h.mapCells (fun _ => rfl) fun _ => Cell.isSound_of_idle rfl

theorem setCell (h : Grades start t) {index : Int} {column : Option Text} {c : Cell} {i : Nat}
    (hi : t.rowIndex? index = some i) (hc : t.cell index column = .ok c) (entry : Option Bool) :
    Grades start (t.setCell i column ⟨c.expected, entry, .idle⟩) where
  cleared := by
    obtain ⟨k, r, hk, hr, hcell⟩ := exists_of_cell_eq_ok hc
    obtain rfl : i = k := Option.some.inj (hi.symm.trans hk)
    have hsame : (t.setCell i column ⟨c.expected, entry, .idle⟩).cleared = t.cleared :=
      cleared_setCell hr hcell rfl
    exact hsame.trans h.cleared
  sound d hd := by
    rcases mem_allCells_setCell hd with rfl | hd
    · exact Cell.isSound_of_idle rfl
    · exact h.sound d hd

theorem perform (h : Grades start t) (action : Action) : Grades start (t.perform action) := by
  cases action with
  | grade => exact h.grade
  | fillExpected => exact h.fillExpected
  | enter index column value =>
    rw [TruthTable.perform]
    cases hvalue : entryValue? value with
    | none =>
      rw [enter_of_refused hvalue]
      exact h
    | some entry =>
      cases hc : t.cell index column with
      | error e =>
        rw [enter_of_error hvalue hc]
        exact h
      | ok c =>
        obtain ⟨i, -, hi, -⟩ := exists_of_cell_eq_ok hc
        rw [enter_of_cell hvalue hi hc]
        exact h.setCell hi hc entry

theorem run (h : Grades start t) (actions : List Action) : Grades start (t.run actions) := by
  induction actions generalizing t with
  | nil => exact h
  | cons action actions ih => exact ih (h.perform action)

end Grades

/-! ### What the table starts from -/

section
variable (maxDepth : Int) (formula : Text)

/-- The rows of a table are made from its columns and the inputs. -/
theorem exists_rowOf_of_mem_rows {r : Row} (h : r ∈ (build maxDepth formula).rows) :
    ∃ (columns : Entries Formula) (f : Formula) (inputs : Assignment),
      (build maxDepth formula).columns = columns.keys ∧ columns.keys.Nodup ∧
        rowOf columns f inputs = r := by
  have happlicable : (build maxDepth formula).applicable = true := by
    rw [applicable, Bool.not_eq_true', List.isEmpty_eq_false_iff]
    exact List.ne_nil_of_mem h
  obtain ⟨⟨f, hf⟩, hvars⟩ := applicable_build.1 happlicable
  obtain ⟨inputs, hr⟩ := exists_inputs_of_mem_rows hf hvars h
  exact ⟨columnsOf f, f, inputs, by rw [build_of_ofText hf hvars], keys_columnsOf_nodup f, hr⟩

/-- Nothing is entered in a new table. -/
theorem cleared_build : (build maxDepth formula).cleared = build maxDepth formula := by
  have hrow : ∀ r ∈ (build maxDepth formula).rows,
      r.mapCells (fun c => .blank c.expected) = id r := by
    intro r hr
    obtain ⟨columns, f, inputs, -, -, rfl⟩ := exists_rowOf_of_mem_rows maxDepth formula hr
    simp [rowOf, Row.mapCells, Cell.blank]
  generalize build maxDepth formula = t at hrow ⊢
  rw [cleared, mapCells, List.map_congr_left hrow, List.map_id]

theorem grades_build : Grades (build maxDepth formula) (build maxDepth formula) where
  cleared := cleared_build maxDepth formula
  sound c hc := by
    rw [← cleared_build, cleared, allCells_mapCells] at hc
    obtain ⟨d, -, rfl⟩ := List.mem_map.1 hc
    exact Cell.isSound_of_idle rfl

/-- The columns are the same in every row. -/
theorem keys_of_mem_build {r : Row} (h : r ∈ (build maxDepth formula).rows) :
    r.cells.keys = (build maxDepth formula).columns := by
  obtain ⟨columns, f, inputs, hcolumns, -, rfl⟩ := exists_rowOf_of_mem_rows maxDepth formula h
  rw [hcolumns]
  exact Entries.keys_map (fun g : Formula => Cell.blank (g.evaluate inputs.loosen)) _

end

/-! ### Counting -/

namespace Grades
variable {maxDepth : Int} {formula : Text} {t : TruthTable}
  (h : Grades (build maxDepth formula) t)
include h

/-- The columns are the same in every row, whatever was entered. -/
theorem keys_of_mem {r : Row} (hr : r ∈ t.rows) : r.cells.keys = t.columns := by
  have hmem : r.mapCells (fun c => .blank c.expected) ∈ t.cleared.rows := List.mem_map_of_mem hr
  have hcolumns : t.columns = t.cleared.columns := rfl
  rw [h.cleared] at hmem hcolumns
  rw [hcolumns, ← keys_of_mem_build maxDepth formula hmem]
  exact (Entries.keys_map (fun c : Cell => Cell.blank c.expected) r.cells).symm

/-- Each row has a cell for each column and the final one. -/
theorem length_allCells : t.allCells.length = t.rows.length * (t.columns.length + 1) := by
  have hrow : ∀ r ∈ t.rows, r.allCells.length = t.columns.length + 1 := by
    intro r hr
    rw [← h.keys_of_mem hr]
    simp [Row.allCells, Entries.keys]
  rw [allCells, List.length_flatMap, List.map_congr_left hrow, List.map_const',
    List.sum_replicate, smul_eq_mul]

/-- There is a cell where an index means a row, in each column and the final one. -/
theorem exists_cell_iff {index : Int} {column : Option Text} :
    (∃ c, t.cell index column = .ok c) ↔ -(t.rows.length : Int) ≤ index ∧
      index < t.rows.length ∧ ∀ name, column = some name → name ∈ t.columns := by
  have hcell : ∀ r ∈ t.rows, (∃ c, cellIn r column = .ok c) ↔
      ∀ name, column = some name → name ∈ t.columns := by
    intro r hr
    rw [← h.keys_of_mem hr]
    exact exists_cellIn_iff
  rw [← and_assoc, ← exists_rowIndex?_iff]
  constructor
  · rintro ⟨c, hc⟩
    obtain ⟨i, r, hi, hr, hc⟩ := exists_of_cell_eq_ok hc
    exact ⟨⟨i, hi⟩, (hcell r (List.mem_of_getElem? hr)).1 ⟨c, hc⟩⟩
  · rintro ⟨⟨i, hi⟩, hcolumn⟩
    obtain ⟨r, hr⟩ := exists_row_of_rowIndex? hi
    obtain ⟨c, hc⟩ := (hcell r (List.mem_of_getElem? hr)).2 hcolumn
    exact ⟨c, by rw [cell, hi, Option.bind_some, hr]; exact hc⟩

end Grades

section
variable (t : TruthTable)

/-- Every cell is counted. -/
theorem total_summary : t.summary.total = t.allCells.length := by
  rw [Summary.total, summary, List.length_eq_countP_add_countP (·.status == .correct)]
  simp only [Bool.not_eq_true, Bool.decide_eq_false, bne]

theorem correct_summary_grade :
    t.grade.summary.correct = t.allCells.countP fun c => c.entered == some c.expected := by
  show t.grade.allCells.countP _ = _
  rw [grade, allCells_mapCells, List.countP_map]
  refine List.countP_congr fun c _ => ?_
  simp only [Function.comp_apply, beq_iff_eq]
  exact Cell.status_grade_eq_correct_iff

theorem allCorrect_summary_grade_iff : t.grade.summary.allCorrect = true ↔
    t.allCells ≠ [] ∧ ∀ c ∈ t.allCells, c.entered = some c.expected := by
  have htotal := total_summary t.grade
  have hcorrect := correct_summary_grade t
  have hall := List.countP_eq_length (p := fun c : Cell => c.entered == some c.expected)
    (l := t.allCells)
  simp only [beq_iff_eq] at hall
  rw [grade, allCells_mapCells, List.length_map, ← grade, Summary.total] at htotal
  rw [Summary.allCorrect, Bool.and_eq_true, decide_eq_true_eq, beq_iff_eq, ← hall, Summary.total,
    ← List.length_pos_iff]
  omega

end

/-- A table has cells if it has rows. -/
theorem allCells_ne_nil_iff {t : TruthTable} : t.allCells ≠ [] ↔ t.rows ≠ [] := by
  rw [Ne, allCells, List.flatMap_eq_nil_iff, Ne, not_iff_not]
  constructor
  · intro h
    refine List.eq_nil_iff_forall_not_mem.2 fun r hr => ?_
    have := h r hr
    simp [Row.allCells] at this
  · intro h
    simp [h]

/-- Revealing makes all correct, if there is anything to reveal. -/
theorem allCorrect_summary_fillExpected (t : TruthTable) :
    t.fillExpected.grade.summary.allCorrect = t.applicable := by
  have hentered : ∀ c ∈ t.fillExpected.allCells, c.entered = some c.expected := by
    intro c hc
    rw [fillExpected, allCells_mapCells] at hc
    obtain ⟨d, -, rfl⟩ := List.mem_map.1 hc
    rfl
  have hrows : t.fillExpected.rows ≠ [] ↔ t.rows ≠ [] := by simp [fillExpected, mapCells]
  rw [Bool.eq_iff_iff, allCorrect_summary_grade_iff, and_iff_left hentered, allCells_ne_nil_iff,
    hrows, applicable, Bool.not_eq_true', List.isEmpty_eq_false_iff]

/-- Whatever has been entered and graded, a table is made of what it was, and no mark is wrong. An
entry sets its cell and takes its mark back, or is turned down and changes nothing. Grading counts
the cells with the expected value, and all is correct if there are rows and all cells have it. -/
theorem grading_is_sound (maxDepth : Int) (formula : Text) (actions : List Action) :
    let start := build maxDepth formula
    let t := start.run actions
    (t.cleared = start ∧ t.variables = start.variables ∧ t.columns = start.columns ∧
      t.rows.map (·.inputs) = start.rows.map (·.inputs) ∧
      ∀ index column, (t.cell index column).map (·.expected) =
        (start.cell index column).map (·.expected)) ∧
    (∀ c ∈ t.allCells, (c.status = .correct → c.entered = some c.expected) ∧
      (c.status = .error → c.entered ≠ some c.expected)) ∧
    (∀ index column, (∃ c, t.cell index column = .ok c) ↔ -(t.rows.length : Int) ≤ index ∧
      index < t.rows.length ∧ ∀ name, column = some name → name ∈ t.columns) ∧
    (∀ index column value,
      (entryValue? value = none → t.enter index column value = .ok (false, t)) ∧
      ∀ entry, entryValue? value = some entry →
        (∀ e, t.cell index column = .error e → t.enter index column value = .error e ∧
          t.perform (.enter index column value) = t) ∧
        ∀ c, t.cell index column = .ok c →
          ∃ t', t.enter index column value = .ok (true, t') ∧ t'.cleared = start ∧
            ∀ j other, t'.cell j other =
              if t.rowIndex? j = t.rowIndex? index ∧ other = column then
                .ok ⟨c.expected, entry, .idle⟩
              else t.cell j other) ∧
    ((∀ index column, (t.grade.cell index column).map (·.entered) =
        (t.cell index column).map (·.entered)) ∧
      (∀ c ∈ t.grade.allCells, c.status ≠ .idle) ∧ t.grade.grade = t.grade ∧
      t.grade.summary.total = t.rows.length * (t.columns.length + 1) ∧
      t.grade.summary.correct = t.allCells.countP (fun c => c.entered == some c.expected) ∧
      (t.grade.summary.allCorrect = true ↔
        t.rows ≠ [] ∧ ∀ c ∈ t.allCells, c.entered = some c.expected)) ∧
    t.fillExpected.grade.summary.allCorrect = t.applicable := by
  intro start t
  have h : Grades start t := (grades_build maxDepth formula).run actions
  have hsame : (t.cleared : TruthTable) = start := h.cleared
  refine ⟨⟨h.cleared, congrArg (·.variables) hsame, congrArg (·.columns) hsame, ?_, ?_⟩, h.sound,
    fun index column => h.exists_cell_iff,
    fun index column value => ⟨enter_of_refused, fun entry hvalue => ⟨fun e he => ?_,
      fun c hc => ?_⟩⟩,
    ⟨map_cell_mapCells fun _ => rfl, ?_, ?_, ?_, correct_summary_grade t, ?_⟩, ?_⟩
  · rw [← hsame, cleared, mapCells, List.map_map]
    rfl
  · intro index column
    rw [← hsame]
    exact (map_cell_mapCells (φ := fun c => .blank c.expected) (fun _ => rfl) index column).symm
  · have hfails := enter_of_error hvalue he
    exact ⟨hfails, by rw [perform, hfails]⟩
  · obtain ⟨i, -, hi, -⟩ := exists_of_cell_eq_ok hc
    exact ⟨_, enter_of_cell hvalue hi hc, (h.setCell hi hc entry).cleared, cell_setCell hi column _⟩
  · intro c hc
    rw [grade, allCells_mapCells] at hc
    obtain ⟨d, -, rfl⟩ := List.mem_map.1 hc
    exact d.status_grade_ne_idle
  · exact mapCells_mapCells Cell.grade Cell.grade t
  · rw [total_summary, grade, allCells_mapCells, List.length_map, h.length_allCells]
  · rw [allCorrect_summary_grade_iff, allCells_ne_nil_iff]
  · exact allCorrect_summary_fillExpected t

/-- After an entry from the end and one in a column, both right, an entry below the table fails
and a bad value is refused; clearing the first takes back its mark and no other. -/
theorem grading_is_sound_conjunction :
    let t := (build 3 "~p & q".toList).run
      [.enter (-2) none (.str ['1']), .enter 0 (some "(¬ p)".toList) (.str ['0']), .grade];
    t.enter 0 none (.str ['2']) = .ok (false, t) ∧ t.perform (.enter 4 none (.str ['1'])) = t ∧
      t.cell 2 none = .ok ⟨true, some true, .correct⟩ ∧
      ∃ t', t.enter 2 none (.str []) = .ok (true, t') ∧
        t'.cell (-2) none = .ok ⟨true, none, .idle⟩ ∧
        t'.cell 0 (some "(¬ p)".toList) = .ok ⟨false, some false, .correct⟩ := by
  intro t
  have ht : t = ⟨"~p & q".toList, [['P'], ['Q']], ["(¬ p)".toList],
      [⟨[(['P'], true), (['Q'], true)],
          [("(¬ p)".toList, ⟨false, some false, .correct⟩)], ⟨false, none, .error⟩⟩,
        ⟨[(['P'], true), (['Q'], false)],
          [("(¬ p)".toList, ⟨false, none, .error⟩)], ⟨false, none, .error⟩⟩,
        ⟨[(['P'], false), (['Q'], true)],
          [("(¬ p)".toList, ⟨true, none, .error⟩)], ⟨true, some true, .correct⟩⟩,
        ⟨[(['P'], false), (['Q'], false)],
          [("(¬ p)".toList, ⟨true, none, .error⟩)], ⟨false, none, .error⟩⟩],
      some "((¬ p) ∧ q)".toList⟩ := by decide +kernel
  have hright : t.cell 2 none = .ok ⟨true, some true, .correct⟩ := by rw [ht]; rfl
  have hcolumn : t.cell 0 (some "(¬ p)".toList) = .ok ⟨false, some false, .correct⟩ := by
    rw [ht]; rfl
  have hbelow : t.cell 4 none = .error .rowOutOfRange := by rw [ht]; rfl
  have hsame : t.rowIndex? (-2) = t.rowIndex? 2 := by rw [ht]; rfl
  obtain ⟨-, -, -, henter, -⟩ := grading_is_sound 3 "~p & q".toList
    [.enter (-2) none (.str ['1']), .enter 0 (some "(¬ p)".toList) (.str ['0']), .grade]
  obtain ⟨hrefused, -⟩ := henter 0 none (.str ['2'])
  obtain ⟨-, hmay⟩ := henter 4 none (.str ['1'])
  obtain ⟨-, hclear⟩ := henter 2 none (.str [])
  obtain ⟨hfails, -⟩ := hmay _ rfl
  obtain ⟨-, hsets⟩ := hclear _ rfl
  obtain ⟨t', ht', -, hcells⟩ := hsets _ hright
  refine ⟨hrefused rfl, (hfails _ hbelow).2, hright, t', ht', ?_, ?_⟩
  · exact (hcells (-2) none).trans (if_pos ⟨hsame, rfl⟩)
  · exact (hcells 0 _).trans ((if_neg fun h => nomatch h.2).trans hcolumn)

end TruthTable
end LogicTrainer
