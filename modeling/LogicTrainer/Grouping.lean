import LogicTrainer.Formula.Parser

/-! Grouping.

Two exercises on the strict form. In the first any formula may be typed, and is correct when
it is already grouped strictly, up to blanks and spellings. In the second a given flat
formula is to be grouped, and a wrong answer is told what is wrong with it: its parentheses,
its symbols, or where the parentheses stand. -/
namespace LogicTrainer

inductive GroupingStatus where
  | correct
  | loose
  | invalid
  | unbalanced
  | modified
  | wrongGrouping
  deriving DecidableEq, Repr

namespace GroupingStatus

/-- The short name of a status. -/
def code : GroupingStatus → Text
  | .correct => "correct".toList
  | .loose => "valid_but_loose".toList
  | .invalid => "invalid".toList
  | .unbalanced => "unbalanced".toList
  | .modified => "modified".toList
  | .wrongGrouping => "wrong_grouping".toList

/-- What the learner is told. -/
def message : GroupingStatus → Text
  | .correct => []
  | .loose => "Valid syntax, but not in strict grouping.".toList
  | .invalid => "Syntax error: invalid structure.".toList
  | .unbalanced => "Unbalanced parentheses.".toList
  | .modified => "Variables or connectives were modified.".toList
  | .wrongGrouping => "Incorrect grouping. Check the precedence order.".toList

end GroupingStatus

namespace Grouping

/-- A status, with the strict form where there is one and the failure where there is none. -/
structure Verdict where
  status : GroupingStatus
  canonical : Option Text
  failure : Option ParseFailure
  deriving DecidableEq, Repr

def Verdict.correct (v : Verdict) : Bool := v.status == .correct

/-- How a typed formula is grouped, by what was read of it. -/
def verdictOf (t : Text) : Except ParseFailure Formula → Verdict
  | .error failure => ⟨.invalid, none, some failure⟩
  | .ok f =>
    let ideal := f.render
    ⟨if t.compact = ideal.compact then .correct else .loose, some ideal, none⟩

/-- How a typed formula is grouped, where the stack has room for what is allowed. -/
def classify (maxDepth : Int) (t : Text) : Verdict := verdictOf t (Formula.ofText maxDepth t)

/-- How a typed formula is grouped, read on a stack. -/
def classifyOn (stack : Nat) (maxDepth : Int) (t : Text) : Verdict :=
  verdictOf t (Formula.parseOn stack maxDepth (Token.ofFormula t))

/-- A flat formula and the grouping that is asked for. -/
structure Problem where
  raw : Text
  expected : Text
  deriving DecidableEq, Repr

/-- A text without parentheses. -/
def withoutParens (t : Text) : Text := t.filter fun c => c != '(' && c != ')'

/-- What is wrong with an answer, or that it is correct. -/
def answerStatus (problem : Problem) (answer : Text) : GroupingStatus :=
  let clean := answer.compact
  if clean = problem.expected.compact then .correct
  else if !Token.isBalanced (Token.lex clean) then .unbalanced
  else if withoutParens clean ≠ withoutParens problem.raw.compact then .modified
  else .wrongGrouping

/-- Grades a grouping of a problem's flat formula. -/
def checkAnswer (problem : Problem) (answer : Text) : Verdict :=
  ⟨answerStatus problem answer, some problem.expected, none⟩

end Grouping
end LogicTrainer
