import LogicTrainer.Proofs.TruthTable.Columns
import LogicTrainer.Proofs.TruthTable.Rows

/-! A truth table is the table of its formula.

The variables of a table come from the tokens and its columns from the tree; the columns are
named by strict forms, and the cells are filled by evaluating the trees that were found under
these names. All of this fits together: a column is read back as the tree that it was named
for, so each cell holds the value that its column has by itself in its row
(`expected_rowOf_column`), and the final cell that of the text that was typed
(`expected_rowOf_final`).

The main statement is `build_tabulates`. -/
namespace LogicTrainer.TruthTable
open Formula

section
variable {maxDepth : Int} {t : Text} {f : Formula} (hf : Formula.ofText maxDepth t = .ok f)
include hf

/-- Under a column stands the value of the formula that the column spells. -/
theorem expected_rowOf_column {c : Text} (hc : c ∈ (columnsOf f).keys) (inputs : Assignment) :
    ∃ cell, Entries.get? c (rowOf (columnsOf f) f inputs).cells = some cell ∧
      cell.expected = evaluateText maxDepth c inputs.loosen := by
  obtain ⟨g, hg⟩ := Option.isSome_iff_exists.1 (Entries.isSome_get?_iff.2 hc)
  obtain ⟨hpart, -, rfl⟩ := isProperPart_of_mem_columnsOf (Entries.mem_of_get? hg)
  obtain ⟨hp, hd⟩ := isProper_of_ofText hf
  refine ⟨.blank (g.evaluate inputs.loosen), ?_, ?_⟩
  · show Entries.get? g.render ((columnsOf f).map _) = _
    rw [Entries.get?_map fun g : Formula => Cell.blank (g.evaluate inputs.loosen), hg,
      Option.map_some]
  · rw [evaluateText_of_ofText (hpart.ofText_render hp hd)]
    rfl

/-- The final cell holds the value of the text. -/
theorem expected_rowOf_final (inputs : Assignment) :
    (rowOf (columnsOf f) f inputs).final.expected = evaluateText maxDepth t inputs.loosen := by
  rw [evaluateText_of_ofText hf]
  rfl

variable (hvars : Token.variables (Token.ofFormula t) ≠ [])
include hvars

/-- The inputs of the rows are the assignments of the variables. -/
theorem inputs_build : (build maxDepth t).rows.map (·.inputs) =
    assignments (Token.variables (Token.ofFormula t)) := by
  rw [rows_build hf hvars, List.map_map]
  exact List.map_id _

theorem exists_inputs_of_mem_rows {row : Row} (h : row ∈ (build maxDepth t).rows) :
    ∃ inputs, rowOf (columnsOf f) f inputs = row := by
  rw [rows_build hf hvars, List.mem_map] at h
  obtain ⟨inputs, -, hrow⟩ := h
  exact ⟨inputs, hrow⟩

end

/-- What cannot be read or has no variables has no rows. -/
theorem rows_build_eq_nil {maxDepth : Int} {t : Text}
    (h : (∃ e, Formula.parse maxDepth (Token.ofFormula t) = .error e) ∨
      Token.variables (Token.ofFormula t) = []) : (build maxDepth t).rows = [] := by
  by_contra hrows
  have happlicable : (build maxDepth t).applicable = true := by
    simpa [applicable] using hrows
  obtain ⟨⟨f, hf⟩, hvars⟩ := applicable_build.1 happlicable
  rcases h with ⟨e, he⟩ | h
  · cases he.symm.trans hf
  · exact hvars h

/-- Without a formula or without variables a table has no rows. Otherwise its columns are the strict
forms of the proper parts with an operator, the shorter first, its rows the assignments from all
true to all false, and each cell holds the value of its column, read by itself. -/
theorem build_tabulates (maxDepth : Int) (t : Text) :
    let table := build maxDepth t
    let names := Token.variables (Token.ofFormula t)
    table.variables = names ∧
    ((∃ e, Formula.parse maxDepth (Token.ofFormula t) = .error e) ∨ names = [] →
      table.rows = []) ∧
    ∀ f, Formula.parse maxDepth (Token.ofFormula t) = .ok f → names ≠ [] →
      table.canonical = some f.render ∧
      ((∀ c, c ∈ table.columns ↔
          ∃ g : Formula, g.IsProperPart f ∧ g.IsCompound ∧ g.render = c) ∧
        table.columns.Nodup ∧ table.columns.Pairwise ColumnBefore ∧
        ∀ c ∈ table.columns, Atom.isAtom c = false ∧ c ≠ f.render) ∧
      (table.rows.length = 2 ^ names.length ∧ (table.rows.map (·.inputs)).Nodup ∧
        (∀ a : Assignment, a ∈ table.rows.map (·.inputs) ↔ Entries.keys a = names) ∧
        (table.rows.map (·.inputs)).head? = some (names.map fun name => (name, true)) ∧
        (table.rows.map (·.inputs)).getLast? = some (names.map fun name => (name, false))) ∧
      ∀ row ∈ table.rows, Entries.keys row.cells = table.columns ∧
        (∀ c ∈ table.columns, ∃ cell, Entries.get? c row.cells = some cell ∧
          cell.expected = evaluateText maxDepth c row.inputs.loosen) ∧
        row.final.expected = evaluateText maxDepth t row.inputs.loosen := by
  intro table names
  refine ⟨variables_build maxDepth t, rows_build_eq_nil, fun f hparse hvars => ?_⟩
  have hf : Formula.ofText maxDepth t = .ok f := hparse
  have htable : table = ⟨t, names, (columnsOf f).keys, _, some f.render⟩ := build_of_ofText hf hvars
  have hcolumns : table.columns = (columnsOf f).keys := by rw [htable]
  have hinputs : table.rows.map (·.inputs) = assignments names := inputs_build hf hvars
  have hnames : names.Nodup := Token.variables_nodup _
  refine ⟨by rw [htable], ?_, ?_, fun row hrow => ?_⟩
  · rw [hcolumns]
    refine ⟨fun c => mem_keys_columnsOf_iff, keys_columnsOf_nodup f, pairwise_columnsOf f,
      fun c hc => ?_⟩
    obtain ⟨g, hpart, hcompound, rfl⟩ := mem_keys_columnsOf_iff.1 hc
    exact ⟨hcompound.not_isAtom_render, hpart.render_ne⟩
  · have hlength : table.rows.length = (assignments names).length := by
      rw [← hinputs, List.length_map]
    rw [hinputs]
    exact ⟨hlength.trans (length_assignments names), assignments_nodup hnames,
      fun a => mem_assignments_iff hnames, head?_assignments hnames, getLast?_assignments hnames⟩
  · obtain ⟨inputs, rfl⟩ := exists_inputs_of_mem_rows hf hvars hrow
    rw [hcolumns]
    refine ⟨?_, fun c hc => expected_rowOf_column hf hc inputs, expected_rowOf_final hf inputs⟩
    exact Entries.keys_map (fun g : Formula => Cell.blank (g.evaluate inputs.loosen)) _

/-- A conjunction in both letter cases is two columns, and its two variables have four rows. -/
theorem build_tabulates_both_cases :
    let f := binary .implies (binary .and (atom ['p']) (atom ['q']))
      (neg (binary .and (atom ['P']) (atom ['q'])))
    let table := build 3 "p & q -> ~(P & q)".toList
    Formula.parse 3 (Token.ofFormula "p & q -> ~(P & q)".toList) = .ok f ∧
      Token.variables (Token.ofFormula "p & q -> ~(P & q)".toList) = [['P'], ['Q']] ∧
      "(p ∧ q)".toList ∈ table.columns ∧ "(P ∧ q)".toList ∈ table.columns ∧
      f.render ∉ table.columns ∧ table.rows.length = 4 ∧
      [(['P'], true), (['Q'], false)] ∈ table.rows.map (·.inputs) := by
  have hf : Formula.parse 3 (Token.ofFormula "p & q -> ~(P & q)".toList) =
      .ok (binary .implies (binary .and (atom ['p']) (atom ['q']))
        (neg (binary .and (atom ['P']) (atom ['q'])))) := by cbv
  have hvars : Token.variables (Token.ofFormula "p & q -> ~(P & q)".toList) = [['P'], ['Q']] := by
    decide +kernel
  have hne : Token.variables (Token.ofFormula "p & q -> ~(P & q)".toList) ≠ [] := by
    rw [hvars]
    exact List.cons_ne_nil _ _
  obtain ⟨-, -, h⟩ := build_tabulates 3 "p & q -> ~(P & q)".toList
  obtain ⟨-, ⟨hcolumns, -, -, hwhole⟩, ⟨hlength, -, hinputs, -⟩, -⟩ := h _ hf hne
  have hcompound : ∀ name, ∀ f g, binary .and f g ≠ atom name := fun _ _ _ he => (by cases he)
  refine ⟨hf, hvars, ?_, ?_, fun hmem => (hwhole _ hmem).2 rfl, ?_, ?_⟩
  · exact (hcolumns _).2 ⟨_, .single (.left _ _ _), fun name => hcompound name _ _, rfl⟩
  · exact (hcolumns _).2
      ⟨_, .tail (.single (.neg _)) (.right _ _ _), fun name => hcompound name _ _, rfl⟩
  · rw [hlength, hvars]
    rfl
  · exact (hinputs _).2 hvars.symm

end LogicTrainer.TruthTable
