import LogicTrainer.Text.Blank
import LogicTrainer.Atom
import LogicTrainer.Json.Basic

/-! Assignments.

An assignment gives truth values to names. It may be written loosely: names in either case,
and values of any kind. `normalize` writes it with names in capitals and plain truth values;
of several spellings of one name the last decides. A name without a value is false. -/
namespace LogicTrainer

/-- Truth values of names. -/
abbrev Assignment := Entries Bool

namespace Assignment

/-- The words that mean true, in capitals. -/
def trueWords : List Text := [['1'], ['T'], ['T', 'R', 'U', 'E']]

/-- The truth value that a value of any kind is taken for. Texts are read as words. -/
def coerce : Json → Bool
  | .str t => trueWords.contains t.stripped.upper
  | value => value.isTruthy

/-- An assignment from its loose form. -/
def normalize (loose : Entries Json) : Assignment :=
  Entries.ofPairs (loose.map fun entry => (entry.1.upper, coerce entry.2))

/-- An assignment as a loose one, with plain truth values. -/
def loosen (a : Assignment) : Entries Json := a.map fun entry => (entry.1, .bool entry.2)

/-- The value of a name in capitals; false if it has none. -/
def value (a : Assignment) (name : Text) : Bool := (Entries.get? name a).getD false

theorem coerce_bool (b : Bool) : coerce (.bool b) = b := rfl

end Assignment
end LogicTrainer
