import LogicTrainer.Text.Printable

/-! Quoted texts.

A text between quotation marks, as messages show it. Single marks are used, unless the text
holds a single mark and no double one. Inside, the mark in use and the backslash are
escaped, and so is every character that cannot be shown. -/
namespace LogicTrainer

/-- The single quotation mark. -/
def apostrophe : Char := Char.ofNat 39

/-- The mark that a text is quoted with. -/
def quotationMark (t : Text) : Char :=
  if t.contains apostrophe && !t.contains '"' then '"' else apostrophe

/-- A character between two of the given quotation marks. -/
def quotedChar (mark c : Char) : Text :=
  if c == mark || c == '\\' then ['\\', c]
  else if c == '\t' then ['\\', 't']
  else if c == '\n' then ['\\', 'n']
  else if c == '\r' then ['\\', 'r']
  else if isPrintable c then [c]
  else if c.toNat < 0x100 then '\\' :: 'x' :: Text.hex 2 c.toNat
  else if c.toNat < 0x10000 then '\\' :: 'u' :: Text.hex 4 c.toNat
  else '\\' :: 'U' :: Text.hex 8 c.toNat

/-- A text as messages quote it. -/
def Text.quoted (t : Text) : Text :=
  let mark := quotationMark t
  mark :: t.flatMap (quotedChar mark) ++ [mark]

end LogicTrainer
