import LogicTrainer.Text.Capital

/-! Atoms.

What a formula is built from: the letters that serve as variables and the four literals, in
either case. The letter T is in the alphabet, but where it stands for something it is the
literal for truth, so it is never a variable. -/
namespace LogicTrainer.Atom

/-- The letters of the alphabet. -/
def letters : List Text := [['P'], ['Q'], ['R'], ['S'], ['T'], ['U']]

def trueLiterals : List Text := [['1'], ['T']]

def falseLiterals : List Text := [['0'], ['F']]

/-- Whether a text is the capital spelling of a literal. -/
def isLiteralName (t : Text) : Bool := trueLiterals.contains t || falseLiterals.contains t

/-- The letters that stand for something to be assigned, in order. -/
def «variables» : List Text := letters.filter fun v => !isLiteralName v

/-- The value of a literal, in either case. -/
def literal? (t : Text) : Option Bool :=
  if trueLiterals.contains t.upper then some true
  else if falseLiterals.contains t.upper then some false
  else none

/-- The variable that a text names, in either case. -/
def asVariable? (t : Text) : Option Text :=
  if Atom.variables.contains t.upper then some t.upper else none

/-- Whether a text may stand at a leaf of a formula. -/
def isAtom (t : Text) : Bool := letters.contains t.upper || isLiteralName t.upper

/-- A truth value as a literal. -/
def bit (value : Bool) : Text := if value then ['1'] else ['0']

theorem variables_eq : Atom.variables = [['P'], ['Q'], ['R'], ['S'], ['U']] := by decide

end LogicTrainer.Atom
