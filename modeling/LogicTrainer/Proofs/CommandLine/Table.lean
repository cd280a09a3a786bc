import LogicTrainer.Proofs.CommandLine.Agreement
import LogicTrainer.Proofs.Json.Printed
import LogicTrainer.Proofs.Text.Pieces
import LogicTrainer.Proofs.TruthTable.Grading

/-! The printed table can be read back.

A bar may be typed for a connective, but no header has one: a header is the letter of a variable or a
strict form, and strict forms are written with glyphs, parentheses, blanks and the characters of
atoms (`Formula.forall_mem_render`). So a line is split at the bars that its cells were joined with. A
cell is as wide as its header and has nothing in it but a bit with blanks around.

The main statement is `printed_table_decodes`. -/
namespace LogicTrainer

theorem Atom.isPrinted {c : Char} (h : isAtom [c] = true) : 0x20 ≤ c.toNat := by
  have hcontrol : ∀ n < 0x20, isAtom [Char.ofNat n] = false := by decide +kernel
  by_contra hlow
  have hc := hcontrol c.toNat (by omega)
  rw [Char.ofNat_toNat, h] at hc
  cases hc

namespace TruthTable
open Formula

/-! ### Headers -/

/-- A header is not empty, has no bar in it and is on one line. -/
structure IsHeader (header : Text) : Prop where
  ne_nil : header ≠ []
  not_mem : '|' ∉ header
  isPrinted : header.IsPrinted

theorem isHeader_variable {v : Text} (h : v ∈ Atom.variables) : IsHeader v := by
  rw [Atom.variables_eq] at h
  simp only [List.mem_cons, List.not_mem_nil, or_false] at h
  rcases h with rfl | rfl | rfl | rfl | rfl <;>
    exact ⟨List.cons_ne_nil _ _, by decide, by simp⟩

theorem isHeader_render {f : Formula} (h : f.IsProper) : IsHeader f.render where
  ne_nil := by
    cases f with
    | atom name =>
      obtain ⟨c, rfl, -⟩ := h.atom_char
      exact List.cons_ne_nil _ _
    | neg | binary => exact List.cons_ne_nil _ _
  not_mem hbar := by
    have hglyph : ∀ op : Connective, op.glyph ≠ '|' := by
      intro op
      cases op <;> decide
    have hleaf : ∀ c, Atom.isAtom [c] = true → c ≠ '|' := by
      rintro c hc rfl
      exact absurd hc (by decide)
    exact forall_mem_render (p := (· ≠ '|')) (by decide) hglyph hleaf h _ hbar rfl
  isPrinted := by
    have hglyph : ∀ op : Connective, 0x20 ≤ op.glyph.toNat := by
      intro op
      cases op <;> decide
    exact forall_mem_render (by decide) hglyph (fun _ => Atom.isPrinted) h

section
variable {maxDepth : Int} {t : Text} {f : Formula} (hf : Formula.ofText maxDepth t = .ok f)
  (hvars : Token.variables (Token.ofFormula t) ≠ [])
include hf hvars

theorem headers_build : (build maxDepth t).headers =
    Token.variables (Token.ofFormula t) ++ (columnsOf f).keys ++ [f.render] := by
  rw [headers, build_of_ofText hf hvars, Option.toList]

theorem isHeader_of_mem {header : Text} (h : header ∈ (build maxDepth t).headers) :
    IsHeader header := by
  have hproper := (isProper_of_ofText hf).1
  rw [headers_build hf hvars, List.mem_append, List.mem_append, List.mem_singleton] at h
  rcases h with (h | h) | rfl
  · exact isHeader_variable (Token.mem_variables_iff.1 h).1
  · obtain ⟨g, hpart, -, rfl⟩ := mem_keys_columnsOf_iff.1 h
    exact isHeader_render (hpart.isProper hproper)
  · exact isHeader_render hproper

end

/-! ### Cells -/

/-- A bit as it is printed under a header. -/
def cellText (header : Text) (value : Bool) : Text := Text.centre header.length (Atom.bit value)

section
variable {header : Text} (h : IsHeader header) (value : Bool)

theorem stripped_cellText : (cellText header value).stripped = Atom.bit value := by
  cases value <;> exact Text.stripped_centre (by decide) _

theorem isPrinted_cellText : (cellText header value).IsPrinted := by
  cases value <;> simp [cellText, Text.centre, Atom.bit]

theorem bar_not_mem_cellText : '|' ∉ cellText header value := by
  cases value <;> simp [cellText, Text.centre, Atom.bit]

include h

theorem length_cellText : (cellText header value).length = header.length := by
  have hbit : (Atom.bit value).length = 1 := by cases value <;> rfl
  have hpos := List.length_pos_iff.2 h.ne_nil
  rw [cellText, Text.length_centre, hbit]
  omega

end

/-! ### Lines -/

/-- The cells of a row as they are printed. -/
def cellTexts (t : TruthTable) (row : Row) : List Text :=
  (t.headers.zip (t.rowValues row)).map fun entry => cellText entry.1 entry.2

section
variable {t : TruthTable}

theorem rowLine_eq_join (row : Row) : t.rowLine row = Text.join bar (t.cellTexts row) := rfl

/-- Texts between bars are found again. -/
theorem pieces_join_bar {parts : List Text} (hne : parts ≠ []) (h : ∀ piece ∈ parts, '|' ∉ piece) :
    Text.pieces bar (Text.join bar parts) = parts :=
  Text.pieces_join (by decide) hne h

theorem mem_cellTexts {row : Row} {cell : Text} (h : cell ∈ t.cellTexts row) :
    ∃ header value, cell = cellText header value := by
  obtain ⟨entry, -, rfl⟩ := List.mem_map.1 h
  exact ⟨entry.1, entry.2, rfl⟩

/-- The values of a row are those of its inputs and of its cells, in order. -/
theorem rowValues_eq {row : Row} (hinputs : Entries.keys row.inputs = t.variables)
    (hvariables : t.variables.Nodup) (hcells : row.cells.keys = t.columns)
    (hcolumns : t.columns.Nodup) :
    t.rowValues row = row.inputs.map (·.2) ++ row.allCells.map (·.expected) := by
  rw [← hinputs] at hvariables
  rw [← hcells] at hcolumns
  have hfirst : t.variables.map row.inputs.value = row.inputs.map (·.2) := by
    rw [← hinputs]
    exact Entries.map_keys (ψ := id) hvariables fun key value hget => by rw [Assignment.value, hget]; rfl
  have hmiddle : t.columns.map
      (fun column => ((Entries.get? column row.cells).map (·.expected)).getD false) =
      row.cells.map fun entry => entry.2.expected := by
    rw [← hcells]
    exact Entries.map_keys (ψ := Cell.expected) hcolumns fun key value hget => by rw [hget]; rfl
  rw [rowValues, hfirst, hmiddle, Row.allCells, List.map_append, List.map_map, List.append_assoc]
  rfl

section
variable {form : Text} (hform : t.canonical = some form)
include hform

theorem length_rowValues (row : Row) : (t.rowValues row).length = t.headers.length := by
  simp [rowValues, headers, hform]

theorem headers_ne_nil : t.headers ≠ [] := by simp [headers, hform]

theorem length_cellTexts (row : Row) : (t.cellTexts row).length = t.headers.length := by
  rw [cellTexts, List.length_map, List.length_zip, length_rowValues hform row, Nat.min_self]

theorem cellTexts_ne_nil (row : Row) : t.cellTexts row ≠ [] := by
  have hpos := List.length_pos_iff.2 (headers_ne_nil hform)
  exact List.ne_nil_of_length_pos (by rwa [length_cellTexts hform])

/-- The cells hold the values of the row. -/
theorem stripped_cellTexts (row : Row) :
    (t.cellTexts row).map Text.stripped = (t.rowValues row).map Atom.bit := by
  have hvalues := List.map_snd_zip (Nat.le_of_eq (length_rowValues hform row))
  rw [← hvalues, List.map_map, cellTexts, List.map_map]
  exact List.map_congr_left fun entry _ => stripped_cellText entry.2

/-- The cells are as wide as their headers. -/
theorem length_rowLine (h : ∀ header ∈ t.headers, IsHeader header) (row : Row) :
    (t.rowLine row).length = (Text.join bar t.headers).length := by
  have hheaders := List.map_fst_zip (Nat.le_of_eq (length_rowValues hform row).symm)
  rw [rowLine_eq_join]
  refine Text.length_join_congr bar ?_
  rw [← hheaders, List.map_map, cellTexts, List.map_map]
  refine List.map_congr_left fun entry hentry => ?_
  exact length_cellText (h entry.1 (List.of_mem_zip hentry).1) entry.2

/-- A row is split into its cells. -/
theorem pieces_rowLine (row : Row) : Text.pieces bar (t.rowLine row) = t.cellTexts row := by
  rw [rowLine_eq_join]
  refine pieces_join_bar (cellTexts_ne_nil hform row) fun cell hcell => ?_
  obtain ⟨header, value, rfl⟩ := mem_cellTexts hcell
  exact bar_not_mem_cellText value

/-- All lines are as long as the line of the headers. -/
theorem length_of_mem_lines (h : ∀ header ∈ t.headers, IsHeader header) {line : Text}
    (hline : line ∈ t.lines) : line.length = (Text.join bar t.headers).length := by
  rcases List.mem_cons.1 hline with rfl | hrow
  · rfl
  · obtain ⟨row, -, rfl⟩ := List.mem_map.1 hrow
    exact length_rowLine hform h row

end

theorem isPrinted_of_mem_lines (h : ∀ header ∈ t.headers, IsHeader header) {line : Text}
    (hline : line ∈ t.lines) : line.IsPrinted := by
  have hbar : bar.IsPrinted := by simp [bar]
  rcases List.mem_cons.1 hline with rfl | hrow
  · exact Text.isPrinted_join hbar fun header hh => (h header hh).isPrinted
  · obtain ⟨row, -, rfl⟩ := List.mem_map.1 hrow
    refine Text.isPrinted_join hbar fun cell hcell => ?_
    obtain ⟨header, value, rfl⟩ := mem_cellTexts hcell
    exact isPrinted_cellText value

end

section
variable {maxDepth : Int} {t : Text} {f : Formula} (hf : Formula.ofText maxDepth t = .ok f)
  (hvars : Token.variables (Token.ofFormula t) ≠ [])
include hf hvars

theorem canonical_build : (build maxDepth t).canonical = some f.render := by
  rw [build_of_ofText hf hvars]

/-- What stands in a row has the names of the variables and of the columns. -/
theorem keys_of_getElem? {i : Nat} {row : Row} (h : (build maxDepth t).rows[i]? = some row) :
    Entries.keys row.inputs = Token.variables (Token.ofFormula t) ∧
      row.cells.keys = (build maxDepth t).columns := by
  have hmem := List.mem_of_getElem? h
  have hinputs : row.inputs ∈ (build maxDepth t).rows.map (·.inputs) := List.mem_map_of_mem hmem
  rw [inputs_build hf hvars, mem_assignments_iff (Token.variables_nodup _)] at hinputs
  exact ⟨hinputs, keys_of_mem_build maxDepth t hmem⟩

theorem rowValues_of_getElem? {i : Nat} {row : Row} (h : (build maxDepth t).rows[i]? = some row) :
    (build maxDepth t).rowValues row =
      row.inputs.map (·.2) ++ row.allCells.map (·.expected) := by
  obtain ⟨hinputs, hcells⟩ := keys_of_getElem? hf hvars h
  rw [← variables_build maxDepth t] at hinputs
  refine rowValues_eq hinputs ?_ hcells ?_
  · rw [variables_build]
    exact Token.variables_nodup _
  · rw [build_of_ofText hf hvars]
    exact keys_columnsOf_nodup f

end

end TruthTable

namespace CommandLine
open TruthTable

/-- For a formula with variables the table is printed on lines of one length, one more than there
are rows. Split at the bars, the first is the variables, the columns and the strict form, and the
others are the bits of the rows under these. -/
theorem printed_table_decodes {maxDepth : Int} {t : Text} {f : Formula}
    (hf : Formula.ofText maxDepth t = .ok f) (hvars : Token.variables (Token.ofFormula t) ≠ []) :
    (table maxDepth t).status = 0 ∧ Text.lines (table maxDepth t).text = (table maxDepth t).lines ∧
    (table maxDepth t).lines.length = 1 + Nat.pow 2 (Token.variables (Token.ofFormula t)).length ∧
    (∀ line ∈ (table maxDepth t).lines, ∀ other ∈ (table maxDepth t).lines,
      line.length = other.length) ∧
    (table maxDepth t).lines.head?.map (Text.pieces bar) =
      some (Token.variables (Token.ofFormula t) ++ (build maxDepth t).columns ++ [f.render]) ∧
    ∀ (i : Nat) (line : Text), (table maxDepth t).lines[i + 1]? = some line →
      ∃ row, (build maxDepth t).rows[i]? = some row ∧
        Entries.keys row.inputs = Token.variables (Token.ofFormula t) ∧
        row.cells.keys = (build maxDepth t).columns ∧
        (Text.pieces bar line).length =
          (Token.variables (Token.ofFormula t)).length + (build maxDepth t).columns.length + 1 ∧
        (Text.pieces bar line).map Text.stripped =
          (row.inputs.map (·.2) ++ row.allCells.map (·.expected)).map Atom.bit := by
  obtain ⟨hstatus, hlines⟩ := table_of_ofText hf
  have hform := canonical_build hf hvars
  have hheader : ∀ header ∈ (build maxDepth t).headers, IsHeader header :=
    fun _ hh => isHeader_of_mem hf hvars hh
  have hnames := variables_build maxDepth t
  have hlength : ∀ line ∈ (build maxDepth t).lines,
      line.length = (Text.join bar (build maxDepth t).headers).length :=
    fun _ hline => length_of_mem_lines hform hheader hline
  rw [Report.text, hlines hvars]
  refine ⟨hstatus, ?_, ?_, ?_, ?_, fun i line hline => ?_⟩
  · exact Text.lines_flatMap fun line hline => isPrinted_of_mem_lines hheader hline
  · rw [TruthTable.lines, List.length_cons, List.length_map, rows_build hf hvars, List.length_map,
      length_assignments, Nat.add_comm]
  · exact fun line hline other hother => (hlength line hline).trans (hlength other hother).symm
  · have hsplit := pieces_join_bar (headers_ne_nil hform) fun header hh => (hheader header hh).not_mem
    rw [TruthTable.lines, List.head?_cons, Option.map_some, hsplit, headers, hform, hnames]
    rfl
  · rw [TruthTable.lines, List.getElem?_cons_succ, List.getElem?_map, Option.map_eq_some_iff] at hline
    obtain ⟨row, hrow, rfl⟩ := hline
    obtain ⟨hinputs, hcells⟩ := keys_of_getElem? hf hvars hrow
    have hvalues := rowValues_of_getElem? hf hvars hrow
    rw [pieces_rowLine hform]
    refine ⟨row, hrow, hinputs, hcells, ?_, ?_⟩
    · rw [length_cellTexts hform, headers, hform, hnames, List.length_append, List.length_append]
      rfl
    · rw [stripped_cellTexts hform, hvalues]

/-- A table with a bar in its formula and a header that is wider than its cells. -/
theorem printed_table_decodes_disjunction :
    (table defaultMaxDepth "~p | Q".toList).lines.length = 5 ∧
    (table defaultMaxDepth "~p | Q".toList).lines.head?.map (Text.pieces bar) =
      some [['P'], ['Q'], "(¬ p)".toList, "((¬ p) ∨ Q)".toList] ∧
    ∃ line, (table defaultMaxDepth "~p | Q".toList).lines[2]? = some line ∧
      (Text.pieces bar line).map Text.stripped = [['1'], ['0'], ['0'], ['0']] := by
  have hf : Formula.ofText defaultMaxDepth "~p | Q".toList =
      .ok (.binary .or (.neg (.atom ['p'])) (.atom ['Q'])) := by cbv
  have hnames : Token.variables (Token.ofFormula "~p | Q".toList) = [['P'], ['Q']] := by
    decide +kernel
  have hcolumns : (build defaultMaxDepth "~p | Q".toList).columns = ["(¬ p)".toList] := by
    decide +kernel
  have hrow : (build defaultMaxDepth "~p | Q".toList).rows[1]? = some ⟨[(['P'], true), (['Q'], false)],
      [("(¬ p)".toList, .blank false)], .blank false⟩ := by decide +kernel
  obtain ⟨-, -, hcount, -, hheader, hrows⟩ :=
    printed_table_decodes hf (by rw [hnames]; exact List.cons_ne_nil _ _)
  rw [hnames] at hcount hheader
  rw [hcolumns] at hheader
  have hlength : 2 < (table defaultMaxDepth "~p | Q".toList).lines.length := by
    rw [hcount]
    decide
  have hline := List.getElem?_eq_getElem hlength
  refine ⟨hcount, hheader, _, hline, ?_⟩
  obtain ⟨row, hrow', -, -, -, hcells⟩ := hrows 1 _ hline
  obtain rfl := Option.some.inj (hrow.symm.trans hrow')
  exact hcells

end CommandLine
end LogicTrainer
