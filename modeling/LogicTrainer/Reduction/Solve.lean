import LogicTrainer.Assignment
import LogicTrainer.Reduction.Moves
import LogicTrainer.Reduction.Collapse

/-! Substituting and solving.

Substitution leaves operators, parentheses and bits, and nothing else. Solving fires the
leftmost legal move and collapses, until one bit is left or nothing can fire. Every step
makes the list shorter, so it ends. -/
namespace LogicTrainer.Reduction

/-- A token with a bit in the place of a word. -/
def substituteToken (values : Text → Bool) : Token → Token
  | .word t => .bit ((Atom.literal? t).getD (values t.upper))
  | t => t

/-- Puts bits in the place of words, given the values of names in capitals. -/
def substitute (values : Text → Bool) (ts : List Token) : List Token :=
  ts.map (substituteToken values)

/-- Puts bits in the place of words, given an assignment in its loose form. -/
def substituteLoose (loose : Entries Json) (ts : List Token) : List Token :=
  substitute (Assignment.normalize loose).value ts

/-- Whether a list is a single bit. -/
def isTerminal : List Token → Bool
  | [.bit _] => true
  | _ => false

/-- The list after the leftmost legal move. -/
def leftmostMove? (ts : List Token) : Option (List Token) :=
  (legalMoves ts).head?.bind fun c => (fireAt? ts c.index).map collapse

theorem length_leftmostMove?_lt {ts next : List Token} (h : leftmostMove? ts = some next) :
    next.length < ts.length := by
  obtain ⟨c, _, h⟩ := Option.bind_eq_some_iff.1 h
  obtain ⟨fired, hf, rfl⟩ := Option.map_eq_some_iff.1 h
  have := length_fireAt?_lt hf
  have := length_collapse_le fired
  omega

/-- The states that follow a collapsed list. -/
def statesFrom (ts : List Token) : List (List Token) :=
  if isTerminal ts then []
  else
    match _hm : leftmostMove? ts with
    | none => []
    | some next => next :: statesFrom next
termination_by ts.length
decreasing_by exact length_leftmostMove?_lt ‹_›

/-- The states that a list goes through when the leftmost legal move is always fired. -/
def solve (ts : List Token) : List (List Token) := statesFrom (collapse ts)

end LogicTrainer.Reduction
