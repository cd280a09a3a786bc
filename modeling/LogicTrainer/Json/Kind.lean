import LogicTrainer.Json.Basic
import LogicTrainer.Text.Quoted

/-! Values in words.

The name of a value's kind, as messages give it, and the value itself on one line: texts
inside lists and objects are quoted, a text by itself is not. -/
namespace LogicTrainer.Json

/-- The name of a value's kind. -/
def kind : Json → Text
  | .null => "NoneType".toList
  | .bool _ => "bool".toList
  | .int _ => "int".toList
  | .real _ => "float".toList
  | .str _ => "str".toList
  | .arr _ => "list".toList
  | .obj _ => "dict".toList

mutual

/-- A value on one line, texts quoted. -/
def shown : Json → Text
  | .null => "None".toList
  | .bool value => if value then "True".toList else "False".toList
  | .int value => Text.ofInt value
  | .real value => value.text
  | .str value => value.quoted
  | .arr items => '[' :: Text.join [',', ' '] (shownItems items) ++ [']']
  | .obj members => '\x7b' :: Text.join [',', ' '] (shownMembers members) ++ ['\x7d']

/-- The items of a list, each on one line. -/
def shownItems : List Json → List Text
  | [] => []
  | item :: rest => shown item :: shownItems rest

/-- The members of an object, each on one line. -/
def shownMembers : List (Text × Json) → List Text
  | [] => []
  | (key, value) :: rest => (key.quoted ++ ':' :: ' ' :: shown value) :: shownMembers rest

end

/-- A value as a text: a text is itself, and everything else is shown. -/
def words : Json → Text
  | .str value => value
  | j => shown j

end LogicTrainer.Json
