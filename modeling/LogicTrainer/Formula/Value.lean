import LogicTrainer.Formula.Parser
import LogicTrainer.Assignment

/-! Values of formulas.

A literal has its own value, a variable the one that is assigned to its capital, and the
mark of an error is false. So every formula has a value, whatever is assigned and whatever
is not. -/
namespace LogicTrainer.Formula

/-- The value of an atom, given the values of names in capitals. -/
def atomValue (values : Text → Bool) (name : Text) : Bool :=
  if (atom name).isErrorMark then false
  else (Atom.literal? name).getD (values name.upper)

/-- The value of a formula, given the values of names in capitals. -/
def value (values : Text → Bool) : Formula → Bool
  | .atom name => atomValue values name
  | .neg operand => !operand.value values
  | .binary op left right => op.apply (left.value values) (right.value values)

/-- The value of a formula under an assignment in its loose form. -/
def evaluate (f : Formula) (loose : Entries Json) : Bool :=
  f.value (Assignment.normalize loose).value

/-- The value of the formula that a text spells; false if it spells none. -/
def evaluateText (maxDepth : Int) (t : Text) (loose : Entries Json) : Bool :=
  (orErrorMark (ofText maxDepth t)).evaluate loose

/-- All lists of truth values of a length, true before false, the last value changing
fastest. -/
def boolVectors : Nat → List (List Bool)
  | 0 => [[]]
  | n + 1 => [true, false].flatMap fun b => (boolVectors n).map (b :: ·)

/-- Whether the formula that a text spells has variables and is true whatever they are. -/
def isTautology (t : Text) : Bool :=
  let tokens := Token.ofFormula t
  let names := Token.variables tokens
  match parse defaultMaxDepth tokens with
  | .error _ => false
  | .ok f =>
    !names.isEmpty && (boolVectors names.length).all fun bits =>
      f.value (Assignment.value (Entries.ofPairs (names.zip bits)))

end LogicTrainer.Formula
