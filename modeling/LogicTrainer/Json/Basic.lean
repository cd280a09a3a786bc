import LogicTrainer.Entries
import LogicTrainer.Binary64.Shortest

/-! Structured values.

Histories and settings are made of these: nothing, truth values, whole and floating point
numbers, texts, lists, and objects whose members have an order. -/
namespace LogicTrainer

inductive Json where
  | null
  | bool (value : Bool)
  | int (value : Int)
  | real (value : Binary64)
  | str (value : Text)
  | arr (items : List Json)
  | obj (members : List (Text × Json))

namespace Json

instance : Inhabited Json := ⟨.null⟩

/-- Whether a value counts as true: all but nothing, false, zero and what is empty. -/
def isTruthy : Json → Bool
  | .null => false
  | .bool value => value
  | .int value => value != 0
  | .real value => !value.isZero
  | .str value => !value.isEmpty
  | .arr items => !items.isEmpty
  | .obj members => !members.isEmpty

/-- The value of a member of an object. -/
def member? (key : Text) : Json → Option Json
  | .obj members => Entries.get? key members
  | _ => none

/-- A text as a value. -/
def ofString (s : String) : Json := .str s.toList

end Json
end LogicTrainer
