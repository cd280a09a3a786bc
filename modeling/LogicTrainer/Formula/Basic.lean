import LogicTrainer.Token.Basic

/-! Formulas.

A formula is a tree: atoms at the leaves, negations and binary connectives inside.
Parentheses leave no trace in it. The strict form of a formula has a pair of parentheses
around every operator. -/
namespace LogicTrainer

inductive Formula where
  | atom (name : Text)
  | neg (operand : Formula)
  | binary (op : Connective) (left right : Formula)
  deriving DecidableEq, Repr

namespace Formula

/-- The strict form. -/
def render : Formula → Text
  | .atom name => name
  | .neg operand => '(' :: negationGlyph :: ' ' :: operand.render ++ [')']
  | .binary op left right =>
    '(' :: left.render ++ ' ' :: op.glyph :: ' ' :: right.render ++ [')']

/-- The number of operators on the longest way down. -/
def depth : Formula → Nat
  | .atom _ => 0
  | .neg operand => operand.depth + 1
  | .binary _ left right => max left.depth right.depth + 1

/-- The number of operators. -/
def connectives : Formula → Nat
  | .atom _ => 0
  | .neg operand => operand.connectives + 1
  | .binary _ left right => left.connectives + right.connectives + 1

/-- The names at the leaves, from left to right. -/
def leaves : Formula → List Text
  | .atom name => [name]
  | .neg operand => operand.leaves
  | .binary _ left right => left.leaves ++ right.leaves

/-- The variables of a formula, each once. -/
def atoms : Formula → List Text
  | .atom name => (Atom.asVariable? name).toList
  | .neg operand => operand.atoms
  | .binary _ left right => left.atoms ++ right.atoms.filter fun v => !left.atoms.contains v

/-- The variables of a formula in order. -/
def «variables» (f : Formula) : List Text := f.atoms.mergeSort Text.noLater

/-- The formula in operator-first order, an entry for each node. -/
def polish : Formula → List Text
  | .atom name => [name]
  | .neg operand => [negationGlyph] :: operand.polish
  | .binary op left right => [op.glyph] :: (left.polish ++ right.polish)

/-- What stands in for a formula that cannot be read: an atom that is no variable and no
literal, and false whatever is assigned. -/
def errorMark : Formula := .atom ['E', 'R', 'R']

def isErrorMark (f : Formula) : Bool := f == errorMark

end Formula
end LogicTrainer
