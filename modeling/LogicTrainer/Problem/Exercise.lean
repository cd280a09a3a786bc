import LogicTrainer.Problem.Bounds
import LogicTrainer.Problem.Formula
import LogicTrainer.Grouping
import LogicTrainer.Assignment

/-! Practice problems.

Three kinds: a flat formula to be grouped, a formula with an assignment to be reduced, and a
formula for a truth table. -/
namespace LogicTrainer.Problem
variable {σ : Type} (src : Source σ)

/-- A flat formula and its strict form. -/
def groupingOf (raw : Text) : Grouping.Problem :=
  ⟨raw, (Formula.orErrorMark (Formula.ofText defaultMaxDepth raw)).render⟩

/-- Whether the strict form adds more than one pair of parentheses. -/
def worthGrouping (p : Grouping.Problem) : Bool := p.raw.length + 2 < p.expected.length

/-- Draws flat formulas until one is worth grouping, and keeps the last after a number of
attempts. -/
def groupingWithin (bounds : Bounds) : Nat → Grouping.Problem → Draw σ Grouping.Problem
  | 0, last => return last
  | attempts + 1, _ => do
    let length ← src.between bounds.syntaxMinTerms bounds.syntaxMaxTerms
    let problem := groupingOf (← flat src length Atom.variables)
    if worthGrouping problem then return problem else groupingWithin bounds attempts problem

/-- A flat formula to be grouped. -/
def grouping (bounds : Bounds) : Draw σ Grouping.Problem :=
  groupingWithin src bounds bounds.syntaxAttempts.toNat ⟨[], []⟩

/-- A formula to be reduced, and the values of its variables. -/
structure Evaluation where
  formula : Text
  assignment : Assignment
  deriving DecidableEq, Repr

/-- A value for each of a list of names. -/
def valuesFor : List Text → Draw σ Assignment
  | [] => return []
  | name :: rest => do
    let value ← src.happens ⟨1, 2⟩
    return (name, value) :: (← valuesFor rest)

/-- A formula to be reduced. -/
def evaluation (bounds : Bounds) : Draw σ Evaluation := do
  let formula ← longEnough src bounds.evaluationMaxDepth bounds.evaluationMinLength Atom.variables
    bounds.maxAttempts.toNat
  return ⟨formula, ← valuesFor src (Token.variables (Token.ofFormula formula))⟩

/-- A formula for a truth table. -/
def table (bounds : Bounds) : Draw σ Text :=
  longEnough src bounds.tableMaxDepth bounds.tableMinLength bounds.tableVariables
    bounds.maxAttempts.toNat

end LogicTrainer.Problem
