import LogicTrainer.Json.Reader
import LogicTrainer.Text.Lines

/-! Reading history files: every line that is not blank is a record, and a line that is none
makes the whole file unreadable. -/
namespace LogicTrainer.History

/-- The records of a file's text. -/
def records? (text : Text) : Option (List Json) := text.filledLines.mapM Json.read?

end LogicTrainer.History
