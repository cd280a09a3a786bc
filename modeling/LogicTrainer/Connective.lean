import LogicTrainer.Text.Basic

/-! Connectives.

The four binary connectives with their glyphs, precedence ranks and truth functions, and the
operators: negation beside the four. A higher rank binds tighter; negation binds tightest of
all. -/
namespace LogicTrainer

/-- A binary connective. -/
inductive Connective where
  | and
  | or
  | implies
  | iff
  deriving DecidableEq, Repr

namespace Connective

/-- The binary connectives, the tightest first. -/
def all : List Connective := [.and, .or, .implies, .iff]

def glyph : Connective → Char
  | .and => '∧'
  | .or => '∨'
  | .implies => '⇒'
  | .iff => '⇔'

def rank : Connective → Nat
  | .and => 4
  | .or => 3
  | .implies => 2
  | .iff => 1

def name : Connective → Text
  | .and => "AND".toList
  | .or => "OR".toList
  | .implies => "IMPLIES".toList
  | .iff => "IFF".toList

/-- The truth function. -/
def apply : Connective → Bool → Bool → Bool
  | .and, left, right => left && right
  | .or, left, right => left || right
  | .implies, left, right => !left || right
  | .iff, left, right => left == right

/-- The connective that a text spells by its glyph. -/
def ofText? (t : Text) : Option Connective := all.find? fun op => t == [op.glyph]

/-- The truth function of the connective that a text spells; false if it spells none. -/
def applyText (t : Text) (left right : Bool) : Bool :=
  ((ofText? t).map fun op => op.apply left right).getD false

theorem rank_injective {a b : Connective} (h : a.rank = b.rank) : a = b := by
  cases a <;> cases b <;> first | rfl | exact absurd h (by decide)

end Connective

/-- The glyph of negation. -/
def negationGlyph : Char := '¬'

/-- An operator: negation or a binary connective. -/
inductive Operator where
  | not
  | binary (op : Connective)
  deriving DecidableEq, Repr

namespace Operator

/-- The operators, the tightest first. -/
def all : List Operator := .not :: Connective.all.map .binary

def glyph : Operator → Char
  | .not => negationGlyph
  | .binary op => op.glyph

def rank : Operator → Nat
  | .not => 5
  | .binary op => op.rank

def name : Operator → Text
  | .not => "NOT".toList
  | .binary op => op.name

/-- Negation outranks every binary connective. -/
theorem rank_binary_lt (op : Connective) : (binary op).rank < Operator.not.rank := by
  cases op <;> decide

end Operator
end LogicTrainer
