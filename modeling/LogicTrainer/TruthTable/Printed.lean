import LogicTrainer.TruthTable.Basic

/-! The printed truth table.

One line of headers and one for each row, with bars between the cells: the variables, the
columns, and the strict form of the whole. Every value stands in the middle under its
header. -/
namespace LogicTrainer.TruthTable

/-- What stands between two cells of a line. -/
def bar : Text := [' ', '|', ' ']

/-- What stands above each cell. -/
def headers (t : TruthTable) : List Text := t.variables ++ t.columns ++ t.canonical.toList

/-- The truth values of a row from left to right. -/
def rowValues (t : TruthTable) (r : Row) : List Bool :=
  t.variables.map r.inputs.value ++
    t.columns.map (fun column => ((Entries.get? column r.cells).map (·.expected)).getD false) ++
    [r.final.expected]

/-- The line of a row. -/
def rowLine (t : TruthTable) (r : Row) : Text :=
  Text.join bar ((t.headers.zip (t.rowValues r)).map fun (header, value) =>
    Text.centre header.length (Atom.bit value))

/-- The table, line by line. -/
def lines (t : TruthTable) : List Text := Text.join bar t.headers :: t.rows.map t.rowLine

end LogicTrainer.TruthTable
