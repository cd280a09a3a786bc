import LogicTrainer.Text.Blank

/-! Lines.

A line ends with a line feed, a carriage return, or the two together. -/
namespace LogicTrainer.Text

/-- A text in which every line ends with a line feed. -/
def unifyNewlines : Text → Text
  | [] => []
  | '\r' :: '\n' :: rest => '\n' :: unifyNewlines rest
  | '\r' :: rest => '\n' :: unifyNewlines rest
  | c :: rest => c :: unifyNewlines rest

/-- The pieces between line feeds. -/
def splitLines : Text → List Text
  | [] => [[]]
  | c :: rest =>
    if c = '\n' then [] :: splitLines rest
    else
      match splitLines rest with
      | line :: lines => (c :: line) :: lines
      | [] => [[c]]

/-- Whether there is nothing but blanks in a text. -/
def isBlankLine (t : Text) : Bool := t.all isBlank

/-- The lines of a text that are not blank. -/
def filledLines (t : Text) : List Text :=
  (splitLines (unifyNewlines t)).filter fun line => !isBlankLine line

end LogicTrainer.Text
