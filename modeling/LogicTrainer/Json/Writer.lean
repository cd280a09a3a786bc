import LogicTrainer.Json.Basic
import LogicTrainer.Text.Quoted

/-! Writing structured values.

A `Style` says how: whether members are sorted by name, whether characters outside ASCII are
escaped, what stands between items and after names, and whether every item gets a line of
its own with a given indentation. The options that set it can be of the wrong kind. That is found
when something is written in it, and nothing is then, unless it is a string by itself and only
what stands between items is at fault. -/
namespace LogicTrainer.Json

/-- What is wrong with the options that set a style. -/
inductive StyleFault where
  /-- The separators are nothing that can be taken apart. -/
  | notIterable (kind : Text)
  /-- There are not two separators. -/
  | separatorCount (count : Nat)
  /-- A separator is no text. The position is that of the argument it is passed as. -/
  | separator (position : Nat) (kind : Text)
  /-- The indentation is neither a text nor a number of blanks. -/
  | indent (kind : Text)
  deriving DecidableEq, Repr

def StyleFault.message : StyleFault → Text
  | .notIterable kind => "cannot unpack non-iterable ".toList ++ kind ++ " object".toList
  | .separatorCount count =>
    if count < 2 then
      "not enough values to unpack (expected 2, got ".toList ++ Text.ofNat count ++ [')']
    else "too many values to unpack (expected 2)".toList
  | .separator position kind =>
    "make_encoder() argument ".toList ++ Text.ofNat position ++ " must be str, not ".toList ++ kind
  | .indent kind =>
    "can't multiply sequence by non-int of type ".toList ++ apostrophe :: kind ++ [apostrophe]

/-- Whether a string by itself is written all the same. -/
def StyleFault.sparesStrings : StyleFault → Bool
  | .notIterable _ | .separatorCount _ => false
  | .separator .. | .indent _ => true

structure Style where
  /-- Members in the order of their names instead of their own. -/
  sortKeys : Bool
  /-- Only ASCII characters in the output. -/
  ensureAscii : Bool
  itemSeparator : Text
  keySeparator : Text
  /-- What a line is indented with for each level, where items have lines of their own. -/
  indent : Option Text
  /-- What is wrong with the options that set the style. -/
  fault : Option StyleFault := none
  deriving DecidableEq, Repr

/-- Everything on one line, without blanks, and every character as itself. -/
def compactStyle : Style := ⟨false, false, [','], [':'], none, none⟩

/-- What keeps a value from being written in a style. -/
def Style.faultOn (style : Style) (j : Json) : Option StyleFault :=
  match j with
  | .str _ => style.fault.filter fun fault => !fault.sparesStrings
  | _ => style.fault

/-- A unit of sixteen bits as an escape. -/
def escapedUnit (n : Nat) : Text := '\\' :: 'u' :: Text.hex 4 n

/-- A character as an escape: one unit, or a pair of surrogates. -/
def escapedChar (c : Char) : Text :=
  let n := c.toNat
  if n < 0x10000 then escapedUnit n
  else
    escapedUnit (0xd800 + (n - 0x10000) / 0x400) ++ escapedUnit (0xdc00 + (n - 0x10000) % 0x400)

/-- A character inside a string. -/
def writtenChar (ensureAscii : Bool) (c : Char) : Text :=
  if c == '"' then ['\\', '"']
  else if c == '\\' then ['\\', '\\']
  else if c == '\n' then ['\\', 'n']
  else if c == '\r' then ['\\', 'r']
  else if c == '\t' then ['\\', 't']
  else if c.toNat == 8 then ['\\', 'b']
  else if c.toNat == 12 then ['\\', 'f']
  else if c.toNat < 0x20 then escapedChar c
  else if ensureAscii && c.toNat ≥ 0x7f then escapedChar c
  else [c]

/-- A string with its marks. -/
def writtenString (ensureAscii : Bool) (t : Text) : Text :=
  '"' :: t.flatMap (writtenChar ensureAscii) ++ ['"']

/-- A floating point number. -/
def writtenReal : Binary64 → Text
  | .nan => "NaN".toList
  | .infinite negative => if negative then "-Infinity".toList else "Infinity".toList
  | x => x.text

/-- The start of a line at a level, where items have lines of their own. -/
def newLine (style : Style) (level : Nat) : Text :=
  match style.indent with
  | none => []
  | some unit => '\n' :: (List.replicate level unit).flatten

/-- The members in the order in which they are written. -/
def arranged {β : Type} (style : Style) (members : List (Text × β)) : List (Text × β) :=
  if style.sortKeys then members.mergeSort fun a b => Text.noLater a.1 b.1 else members

/-- Written items between two brackets. -/
def enclosed (style : Style) (level : Nat) (opening closing : Char) (items : List Text) : Text :=
  match items with
  | [] => [opening, closing]
  | _ =>
    opening :: newLine style (level + 1) ++
      Text.join (style.itemSeparator ++ newLine style (level + 1)) items ++
      newLine style level ++ [closing]

mutual

/-- A value at a level of nesting. -/
def writeAt (style : Style) (level : Nat) : Json → Text
  | .null => "null".toList
  | .bool value => if value then "true".toList else "false".toList
  | .int value => Text.ofInt value
  | .real value => writtenReal value
  | .str value => writtenString style.ensureAscii value
  | .arr items => enclosed style level '[' ']' (writeItems style (level + 1) items)
  | .obj members =>
    enclosed style level '\x7b' '\x7d'
      ((arranged style (writeMembers style (level + 1) members)).map (·.2))

/-- The items of a list, each written. -/
def writeItems (style : Style) (level : Nat) : List Json → List Text
  | [] => []
  | item :: rest => writeAt style level item :: writeItems style level rest

/-- The members of an object, each written beside its name. -/
def writeMembers (style : Style) (level : Nat) : List (Text × Json) → List (Text × Text)
  | [] => []
  | (key, value) :: rest =>
    (key, writtenString style.ensureAscii key ++ style.keySeparator ++ writeAt style level value) ::
      writeMembers style level rest

end

/-- A value written in a style. -/
def write (style : Style) (j : Json) : Text := writeAt style 0 j

end LogicTrainer.Json
