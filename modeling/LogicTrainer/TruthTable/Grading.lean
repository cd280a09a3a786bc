import LogicTrainer.TruthTable.Basic

/-! Filling in and grading a truth table.

A learner enters values in cells, and may clear them again. Entering puts a cell back to
idle; grading marks every cell, empty ones as errors. Nothing else is ever changed: not the
inputs, nor the columns, nor what is expected. -/
namespace LogicTrainer

/-- Marks a cell by comparing what was entered with what is expected. -/
def Cell.grade (c : Cell) : Cell :=
  {c with status := if c.entered = some c.expected then .correct else .error}

/-- A cell with a new entry. -/
def Cell.enter (entry : Option Bool) (c : Cell) : Cell := {c with entered := entry, status := .idle}

/-- A cell with the expected value entered. -/
def Cell.reveal (c : Cell) : Cell := c.enter (some c.expected)

/-- Changes every cell of a row. -/
def Row.mapCells (f : Cell → Cell) (r : Row) : Row :=
  {r with cells := r.cells.map fun entry => (entry.1, f entry.2), final := f r.final}

namespace TruthTable

/-- Why there is no cell in a row and a column. -/
inductive PlaceError where
  | rowOutOfRange
  | unknownColumn (column : Text)
  deriving DecidableEq, Repr

/-- The row that an index means: rows are counted from 0, and from the end by negative
indices. -/
def rowIndex? (t : TruthTable) (index : Int) : Option Nat :=
  let i := if index < 0 then index + t.rows.length else index
  if 0 ≤ i ∧ i < t.rows.length then some i.toNat else none

/-- The cell of a row in a column. -/
def cellIn (r : Row) : Option Text → Except PlaceError Cell
  | none => .ok r.final
  | some column =>
    match Entries.get? column r.cells with
    | some c => .ok c
    | none => .error (.unknownColumn column)

/-- The cell at an index and a column, the final one if no column is named. -/
def cell (t : TruthTable) (index : Int) (column : Option Text) : Except PlaceError Cell :=
  match (t.rowIndex? index).bind fun i => t.rows[i]? with
  | none => .error .rowOutOfRange
  | some r => cellIn r column

/-- Replaces the cell of a row in a column that it has. -/
def setIn (c : Cell) (column : Option Text) (r : Row) : Row :=
  match column with
  | none => {r with final := c}
  | some name => {r with cells := Entries.insert name c r.cells}

/-- What may be entered: a bit, or nothing to clear the cell. -/
def entryValue? : Json → Option (Option Bool)
  | .str ['1'] => some (some true)
  | .str ['0'] => some (some false)
  | .str [] => some none
  | _ => none

/-- Enters a value at a place. The value is looked at first: one that may not be entered is
turned down without looking at the place. -/
def enter (t : TruthTable) (index : Int) (column : Option Text) (value : Json) :
    Except PlaceError (Bool × TruthTable) :=
  match entryValue? value with
  | none => .ok (false, t)
  | some entry =>
    match t.cell index column, t.rowIndex? index with
    | .ok c, some i => .ok (true, {t with rows := t.rows.modify i (setIn (c.enter entry) column)})
    | .ok _, none => .error .rowOutOfRange
    | .error e, _ => .error e

/-- How many cells are right and wrong. -/
structure Summary where
  correct : Nat
  errors : Nat
  deriving DecidableEq, Repr

def Summary.total (s : Summary) : Nat := s.correct + s.errors

def Summary.allCorrect (s : Summary) : Bool := s.total > 0 && s.errors == 0

/-- The cells of a table, row by row. -/
def allCells (t : TruthTable) : List Cell := t.rows.flatMap Row.allCells

/-- How many cells are marked correct, and how many are not. -/
def summary (t : TruthTable) : Summary :=
  ⟨t.allCells.countP (·.status == .correct), t.allCells.countP (·.status != .correct)⟩

/-- Changes every cell. -/
def mapCells (f : Cell → Cell) (t : TruthTable) : TruthTable :=
  {t with rows := t.rows.map (Row.mapCells f)}

/-- Marks every cell. -/
def grade (t : TruthTable) : TruthTable := t.mapCells Cell.grade

/-- Enters what is expected everywhere. -/
def fillExpected (t : TruthTable) : TruthTable := t.mapCells Cell.reveal

/-- What a learner may do with a table. -/
inductive Action where
  | enter (index : Int) (column : Option Text) (value : Json)
  | grade
  | fillExpected

/-- The table after an action; an entry that fails changes nothing. -/
def perform (t : TruthTable) : Action → TruthTable
  | .enter index column value =>
    match t.enter index column value with
    | .ok (_, t') => t'
    | .error _ => t
  | .grade => t.grade
  | .fillExpected => t.fillExpected

/-- The table after a list of actions. -/
def run (t : TruthTable) (actions : List Action) : TruthTable := actions.foldl perform t

end TruthTable
end LogicTrainer
