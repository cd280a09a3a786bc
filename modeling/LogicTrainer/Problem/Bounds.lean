import LogicTrainer.Text.Basic

/-! The bounds within which problems are drawn. -/
namespace LogicTrainer.Problem

structure Bounds where
  /-- The fewest connectives of a flat formula. -/
  syntaxMinTerms : Int
  /-- The most connectives of a flat formula. -/
  syntaxMaxTerms : Int
  /-- How many flat formulas are tried. -/
  syntaxAttempts : Int
  evaluationMaxDepth : Int
  evaluationMinLength : Int
  /-- The variables of truth tables. -/
  tableVariables : List Text
  tableMaxDepth : Int
  tableMinLength : Int
  /-- How many formulas are tried for a length. -/
  maxAttempts : Int
  deriving DecidableEq, Repr

/-- The bounds unless others are set. -/
def Bounds.standard : Bounds := ⟨3, 4, 10, 4, 15, [['P'], ['Q'], ['R']], 3, 5, 50⟩

end LogicTrainer.Problem
