import LogicTrainer.Formula.Compound
import LogicTrainer.Formula.Value

/-! Truth tables.

A table has a row for every assignment of the formula's variables, from all true down to all
false, and a column for every compound part, shorter ones first. The whole formula has the
final column. Each cell knows the value that belongs in it, and what the learner entered. A
formula that cannot be read or has no variables has a table without rows. -/
namespace LogicTrainer

inductive CellStatus where
  | idle
  | correct
  | error
  deriving DecidableEq, Repr

/-- The short name of a status. -/
def CellStatus.code : CellStatus → Text
  | .idle => "idle".toList
  | .correct => "correct".toList
  | .error => "error".toList

structure Cell where
  expected : Bool
  entered : Option Bool
  status : CellStatus
  deriving DecidableEq, Repr

/-- A cell that nothing was entered in. -/
def Cell.blank (expected : Bool) : Cell := ⟨expected, none, .idle⟩

structure Row where
  inputs : Assignment
  cells : Entries Cell
  final : Cell
  deriving DecidableEq, Repr

/-- The cells of a row, the final one last. -/
def Row.allCells (r : Row) : List Cell := r.cells.map (·.2) ++ [r.final]

structure TruthTable where
  formula : Text
  «variables» : List Text
  columns : List Text
  rows : List Row
  canonical : Option Text
  deriving DecidableEq, Repr

namespace TruthTable

/-- Row `r` of the assignments of `n` names. The name at place `k` gets the bit of weight
`2 ^ (n - 1 - k)` of the number `2 ^ n - 1 - r`. -/
def inputsOfRow (names : List Text) (r : Nat) : Assignment :=
  let n := names.length
  Entries.ofPairs
    (names.zipIdx.map fun (name, k) => (name, (Nat.pow 2 n - 1 - r).testBit (n - 1 - k)))

/-- All assignments of a list of names, all true first and all false last. -/
def assignments (names : List Text) : List Assignment :=
  (List.range (Nat.pow 2 names.length)).map (inputsOfRow names)

theorem length_assignments (names : List Text) :
    (assignments names).length = Nat.pow 2 names.length := by
  rw [assignments, List.length_map, List.length_range]

/-- Whether one column stands no later than another: the shorter first, and equally long
ones in code point order. -/
def columnNoLater (a b : Text) : Bool :=
  a.length < b.length || (a.length == b.length && Text.noLater a b)

/-- The columns of a formula: its compound parts but the whole. -/
def columnsOf (f : Formula) : Entries Formula :=
  (f.compoundsByForm.filter fun entry => entry.1 != f.render).mergeSort
    fun a b => columnNoLater a.1 b.1

/-- The row of an assignment, with nothing entered. -/
def rowOf (columns : Entries Formula) (f : Formula) (inputs : Assignment) : Row :=
  ⟨inputs, columns.map fun entry => (entry.1, .blank (entry.2.evaluate inputs.loosen)),
    .blank (f.evaluate inputs.loosen)⟩

/-- The table of the formula that a text spells. -/
def build (maxDepth : Int) (formula : Text) : TruthTable :=
  let tokens := Token.ofFormula formula
  let names := Token.variables tokens
  match Formula.parse maxDepth tokens with
  | .error _ => ⟨formula, names, [], [], none⟩
  | .ok f =>
    if names.isEmpty then ⟨formula, names, [], [], none⟩
    else
      let columns := columnsOf f
      ⟨formula, names, columns.keys, (assignments names).map (rowOf columns f),
        some f.render⟩

/-- Whether the table has rows. -/
def applicable (t : TruthTable) : Bool := !t.rows.isEmpty

end TruthTable
end LogicTrainer
