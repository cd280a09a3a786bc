import LogicTrainer.Proofs.TruthTable.Grading

/-! Filling in a truth table from left to right.

A learner who works out a column looks at its operands. An operand that is an atom is a literal or
one of the inputs. Any other has a column of its own, under its strict form, and since this form is
shorter than that of the column, it stands further to the left (`exists_column_before`). The forms
of different parts are different, even where only the case of a letter tells them apart, so the cell
there holds the value of the operand (`shown?_rowOf`). So what belongs in a cell can always be read
off the row, from what stands to the left of it.

The main statement is `columns_fill_left_to_right`. -/
namespace LogicTrainer
open Formula

/-! ### What a row shows -/

namespace Row

/-- The value that is expected in a column. -/
def expected? (r : Row) (column : Text) : Option Bool :=
  (Entries.get? column r.cells).map (·.expected)

/-- The value that a row shows for a formula: a literal's own, the input of a variable, and for any
other formula what is expected in the column of its strict form. -/
def shown? (r : Row) : Formula → Option Bool
  | .atom name => (Atom.literal? name).or (Entries.get? name.upper r.inputs)
  | .neg operand => r.expected? (neg operand).render
  | .binary op left right => r.expected? (binary op left right).render

/-- The value of a formula from those that a row shows for its operands. -/
def combined? (r : Row) : Formula → Option Bool
  | .atom name => r.shown? (.atom name)
  | .neg operand => (r.shown? operand).map (!·)
  | .binary op left right =>
    (r.shown? left).bind fun l => (r.shown? right).map fun m => op.apply l m

theorem shown?_of_isCompound (r : Row) {x : Formula} (h : x.IsCompound) :
    r.shown? x = r.expected? x.render := by
  cases x with
  | atom name => exact absurd rfl (h name)
  | neg | binary => rfl

section
variable {φ : Cell → Cell} (hφ : ∀ c, (φ c).expected = c.expected) (r : Row)
include hφ

theorem expected?_mapCells (column : Text) :
    (r.mapCells φ).expected? column = r.expected? column := by
  have hget : Entries.get? column (r.mapCells φ).cells = (Entries.get? column r.cells).map φ :=
    Entries.get?_map φ r.cells column
  rw [expected?, expected?, hget, Option.map_map]
  exact congrArg (Option.map · _) (funext hφ)

theorem shown?_mapCells (x : Formula) : (r.mapCells φ).shown? x = r.shown? x := by
  cases x with
  | atom => rfl
  | neg | binary => exact expected?_mapCells hφ r _

/-- What cells hold besides the expected values is not looked at. -/
theorem combined?_mapCells (x : Formula) : (r.mapCells φ).combined? x = r.combined? x := by
  cases x with
  | atom => rfl
  | neg operand => rw [combined?, combined?, shown?_mapCells hφ]
  | binary op left right => simp only [combined?, shown?_mapCells hφ]

end

end Row

namespace TruthTable

/-! ### The order of the columns -/

section
variable {f x : Formula}

/-- A shorter column stands further to the left. -/
theorem exists_column_before {i : Nat} {c d : Text} (hi : (columnsOf f).keys[i]? = some c)
    (hd : d ∈ (columnsOf f).keys) (hlt : d.length < c.length) :
    ∃ j < i, (columnsOf f).keys[j]? = some d := by
  obtain ⟨j, hj⟩ := List.mem_iff_getElem?.1 hd
  obtain ⟨hil, rfl⟩ := List.getElem?_eq_some_iff.1 hi
  obtain ⟨hjl, rfl⟩ := List.getElem?_eq_some_iff.1 hj
  refine ⟨j, ?_, hj⟩
  rcases Nat.lt_trichotomy i j with hij | rfl | hji
  · have hbefore := List.pairwise_iff_getElem.1 (pairwise_columnsOf f) i j hil hjl hij
    rcases hbefore with hshorter | ⟨hsame, -⟩ <;> omega
  · exact absurd hlt (Nat.lt_irrefl _)
  · exact hji

/-- An operand of a part has a column, if it has an operator. -/
theorem mem_keys_columnsOf_of_isOperand {g : Formula} (hg : g.IsPart f) (hx : x.IsOperand g)
    (hcompound : x.IsCompound) : x.render ∈ (columnsOf f).keys :=
  mem_keys_columnsOf_iff.2 ⟨x, .head' hx hg, hcompound, rfl⟩

end

/-! ### The values of a row -/

/-- The inputs of a row are an assignment in normal form. -/
theorem isNormal_of_mem_assignments {t : Text} {inputs : Assignment}
    (h : inputs ∈ assignments (Token.variables (Token.ofFormula t))) : inputs.IsNormal := by
  obtain ⟨r, -, rfl⟩ := List.mem_map.1 h
  exact isNormal_inputsOfRow t r

section
variable {maxDepth : Int} {t : Text} {f x : Formula} {inputs : Assignment}
  (hf : Formula.ofText maxDepth t = .ok f)
  (hinputs : inputs ∈ assignments (Token.variables (Token.ofFormula t)))
include hf hinputs

/-- A row shows the value of every leaf. -/
theorem shown?_atom {name : Text} (hname : name ∈ f.leaves) :
    (rowOf (columnsOf f) f inputs).shown? (.atom name) = some (atomValue inputs.value name) := by
  have hs : Spells (Token.ofFormula t) f := (parse_eq_ok_iff.1 hf).1
  have hatom := hs.isProper name hname
  have hmark : (atom name).isErrorMark = false :=
    IsProper.not_isErrorMark fun n hn => List.mem_singleton.1 hn ▸ hatom
  have hrow : (rowOf (columnsOf f) f inputs).shown? (.atom name) =
      (Atom.literal? name).or (Entries.get? name.upper inputs) := rfl
  rw [hrow, atomValue, hmark, if_neg (by decide)]
  rcases Atom.isAtom_cases hatom with ⟨b, hb⟩ | ⟨hnone, hvar⟩
  · rw [hb]
    rfl
  · have hkeys := (mem_assignments_iff (Token.variables_nodup _)).1 hinputs
    have hmem : name.upper ∈ Entries.keys inputs :=
      hkeys ▸ hs.mem_variables_iff.2 (mem_atoms_iff.2 ⟨name, hname, hvar⟩)
    rw [hnone, Assignment.get?_eq_some_value hmem]
    rfl

/-- A row shows the value of every proper part. -/
theorem shown?_rowOf (hx : x.IsProperPart f) :
    (rowOf (columnsOf f) f inputs).shown? x = some (x.value inputs.value) := by
  by_cases hcompound : x.IsCompound
  · obtain ⟨hp, hd⟩ := isProper_of_ofText hf
    have hcolumn := mem_keys_columnsOf_iff.2 ⟨x, hx, hcompound, rfl⟩
    obtain ⟨cell, hcell, hexpected⟩ := expected_rowOf_column hf hcolumn _
    rw [evaluateText_of_ofText (hx.ofText_render hp hd),
      (isNormal_of_mem_assignments hinputs).normalize_loosen] at hexpected
    rw [Row.shown?_of_isCompound _ hcompound, Row.expected?, hcell, Option.map_some, hexpected]
  · cases x with
    | atom name =>
      have hleaves := IsPart.leaves_subset (isPart_iff.2 (.inr hx))
      exact shown?_atom hf hinputs (hleaves List.mem_cons_self)
    | neg | binary => exact absurd (fun _ h => by cases h) hcompound

/-- The values that a row shows for the operands of a part combine to that of the part. -/
theorem combined?_rowOf (hx : x.IsPart f) :
    (rowOf (columnsOf f) f inputs).combined? x = some (x.value inputs.value) := by
  have hoperand : ∀ y : Formula, y.IsOperand x →
      (rowOf (columnsOf f) f inputs).shown? y = some (y.value inputs.value) :=
    fun y hy => shown?_rowOf hf hinputs (.head' hy hx)
  cases x with
  | atom name => exact shown?_atom hf hinputs (hx.leaves_subset List.mem_cons_self)
  | neg y =>
    rw [Row.combined?, hoperand y (.neg y)]
    rfl
  | binary op y z =>
    rw [Row.combined?, hoperand y (.left op y z), hoperand z (.right op y z)]
    rfl

omit hinputs in
/-- The columns of a table are those of its formula, whatever was entered. -/
theorem columns_of_grades (hvars : Token.variables (Token.ofFormula t) ≠ []) {table : TruthTable}
    (h : Grades (build maxDepth t) table) : table.columns = (columnsOf f).keys := by
  have hsame : table.columns = table.cleared.columns := rfl
  rw [hsame, h.cleared, build_of_ofText hf hvars]

omit hinputs in
/-- Without what was entered, the rows of a table are those of the assignments. -/
theorem exists_rowOf_of_grades (hvars : Token.variables (Token.ofFormula t) ≠ []) {table : TruthTable}
    (h : Grades (build maxDepth t) table) {row : Row} (hrow : row ∈ table.rows) :
    ∃ inputs ∈ assignments (Token.variables (Token.ofFormula t)),
      rowOf (columnsOf f) f inputs = row.mapCells fun c => .blank c.expected := by
  have hmem : row.mapCells (fun c => .blank c.expected) ∈ table.cleared.rows :=
    List.mem_map_of_mem hrow
  rwa [h.cleared, rows_build hf hvars, List.mem_map] at hmem

end

/-- What has an operator among the operands of a column's formula has a column further to the left.
In each row, what is expected in a column is what its operator makes of the values of the operands,
and the same holds of the final cell and the operands of the whole. -/
theorem columns_fill_left_to_right {maxDepth : Int} {t : Text}
    (h : (build maxDepth t).applicable = true) (actions : List Action) :
    let table := (build maxDepth t).run actions
    ∃ f, Formula.ofText maxDepth t = .ok f ∧
      (∀ x : Formula, x.IsOperand f → x.IsCompound → x.render ∈ table.columns) ∧
      (∀ row ∈ table.rows, row.combined? f = some row.final.expected) ∧
      ∀ (i : Nat) (c : Text), table.columns[i]? = some c →
        ∃ g, Formula.ofText maxDepth c = .ok g ∧ g.render = c ∧ g.IsCompound ∧
          (∀ x : Formula, x.IsOperand g → x.IsCompound →
            ∃ j < i, table.columns[j]? = some x.render) ∧
          ∀ row ∈ table.rows, ∃ b, row.expected? c = some b ∧ row.combined? g = some b := by
  intro table
  obtain ⟨⟨f, hf⟩, hvars⟩ := applicable_build.1 h
  have hgrades : Grades (build maxDepth t) table := (grades_build maxDepth t).run actions
  have hcolumns : table.columns = (columnsOf f).keys := columns_of_grades hf hvars hgrades
  have hblank : ∀ c : Cell, (Cell.blank c.expected).expected = c.expected := fun _ => rfl
  refine ⟨f, hf, fun x hx hcompound => ?_, fun row hrow => ?_, fun i c hi => ?_⟩
  · rw [hcolumns]
    exact mem_keys_columnsOf_of_isOperand .refl hx hcompound
  · obtain ⟨inputs, hinputs, hcleared⟩ := exists_rowOf_of_grades hf hvars hgrades hrow
    have hfinal : row.final.expected = (row.mapCells fun c => .blank c.expected).final.expected :=
      rfl
    rw [← Row.combined?_mapCells hblank, hfinal, ← hcleared, combined?_rowOf hf hinputs .refl,
      final_rowOf (isNormal_of_mem_assignments hinputs)]
  · rw [hcolumns] at hi ⊢
    obtain ⟨g, hpart, hcompound, rfl⟩ := mem_keys_columnsOf_iff.1 (List.mem_of_getElem? hi)
    obtain ⟨hp, hd⟩ := isProper_of_ofText hf
    have hg : g.IsPart f := isPart_iff.2 (.inr hpart)
    refine ⟨g, hpart.ofText_render hp hd, rfl, hcompound, fun x hx hx' => ?_, fun row hrow => ?_⟩
    · exact exists_column_before hi (mem_keys_columnsOf_of_isOperand hg hx hx') hx.length_render_lt
    · obtain ⟨inputs, hinputs, hcleared⟩ := exists_rowOf_of_grades hf hvars hgrades hrow
      refine ⟨g.value inputs.value, ?_, ?_⟩
      · rw [← Row.shown?_of_isCompound row hcompound, ← Row.shown?_mapCells hblank, ← hcleared,
          shown?_rowOf hf hinputs hpart]
      · rw [← Row.combined?_mapCells hblank, ← hcleared, combined?_rowOf hf hinputs hg]

/-- Two conjunctions that differ in the case of their letters have a column each, and the negation
of one of them stands behind it and has the other value in every row. -/
theorem columns_fill_left_to_right_both_cases :
    let start := build 3 "~(p & P) -> (P & p) | 1".toList
    let table := start.run [.enter 0 none (.str ['1']), .grade]
    start.applicable = true ∧ table.columns[2]? = some "(¬ (p ∧ P))".toList ∧
      (∃ j < 2, table.columns[j]? = some "(p ∧ P)".toList) ∧
      ∀ row ∈ table.rows, ∃ b, row.expected? "(p ∧ P)".toList = some b ∧
        row.expected? "(¬ (p ∧ P))".toList = some !b := by
  intro start table
  let x := binary .and (atom ['p']) (atom ['P'])
  let f := binary .implies (neg x) (binary .or (binary .and (atom ['P']) (atom ['p'])) (atom ['1']))
  have hf : Formula.ofText 3 "~(p & P) -> (P & p) | 1".toList = .ok f := by cbv
  have hvars : Token.variables (Token.ofFormula "~(p & P) -> (P & p) | 1".toList) ≠ [] := by
    decide +kernel
  have happlicable : start.applicable = true := applicable_build.2 ⟨⟨f, hf⟩, hvars⟩
  have hcolumn : table.columns[2]? = some "(¬ (p ∧ P))".toList := by
    rw [columns_of_grades hf hvars ((grades_build _ _).run _)]
    cbv
  obtain ⟨-, -, -, -, hcolumns⟩ :=
    columns_fill_left_to_right happlicable [.enter 0 none (.str ['1']), .grade]
  obtain ⟨g, hg, -, -, hbefore, hrows⟩ := hcolumns 2 _ hcolumn
  have hcompound : (binary .and (atom ['p']) (atom ['P'])).IsCompound := fun _ h => by cases h
  have hread : Formula.ofText 3 "(¬ (p ∧ P))".toList = .ok (neg x) := by cbv
  obtain rfl := Except.ok.inj (hread.symm.trans hg)
  refine ⟨happlicable, hcolumn, hbefore x (.neg x) hcompound, fun row hrow => ?_⟩
  obtain ⟨b, hb, hcombined⟩ := hrows row hrow
  obtain ⟨a, ha, rfl⟩ := Option.map_eq_some_iff.1 hcombined
  exact ⟨a, ha, hb⟩

end TruthTable
end LogicTrainer
