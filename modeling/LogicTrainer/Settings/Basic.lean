import LogicTrainer.Json.Kind
import LogicTrainer.Text.Numeral
import LogicTrainer.Text.Capital
import LogicTrainer.Storage.Path
import LogicTrainer.Problem.Bounds

/-! Settings.

Settings are read from a mapping; what it does not mention has a standard value. Numbers may
be given as texts and may have a fraction, which is dropped; texts may be given as anything.
The first member that cannot be used, in the order in which they are read, is reported. -/
namespace LogicTrainer

structure Settings where
  /-- What random problems start from. -/
  seed : Option Int
  /-- The depth that formulas may have. -/
  maxParseDepth : Int
  logLevel : Text
  /-- The file that reductions are added to. -/
  historyLog : Option Path
  bounds : Problem.Bounds
  deriving DecidableEq, Repr

/-- Why settings cannot be used. -/
inductive SettingsError where
  | badNumeral (text : Text)
  | notNumber (kind : Text)
  | infinite
  | notANumber
  | notPath (kind : Text)
  | notMapping (kind : Text)
  | notIterable (kind : Text)
  | wrongDocument (path : Text) (kind : Text)
  | unreadable
  deriving DecidableEq, Repr

namespace SettingsError

/-- The name of a kind between quotation marks. -/
def quotedKind (kind : Text) : Text := apostrophe :: kind ++ [apostrophe]

def message : SettingsError → Text
  | .badNumeral text => text.notInteger
  | .notNumber kind =>
    "int() argument must be a string, a bytes-like object or a real number, not ".toList ++
      quotedKind kind
  | .infinite => "cannot convert float infinity to integer".toList
  | .notANumber => "cannot convert float NaN to integer".toList
  | .notPath kind => "expected str, bytes or os.PathLike object, not ".toList ++ kind
  | .notMapping kind =>
    quotedKind kind ++ " object has no attribute ".toList ++ quotedKind "get".toList
  | .notIterable kind => quotedKind kind ++ " object is not iterable".toList
  | .wrongDocument path kind =>
    "Config ".toList ++ path ++ " must be a YAML mapping, got ".toList ++ kind
  | .unreadable => []

end SettingsError

namespace Settings

/-- The settings unless others are made. -/
def standard : Settings := ⟨none, 200, "INFO".toList, none, .standard⟩

/-- A value as a whole number. -/
def integer : Json → Except SettingsError Int
  | .int n => .ok n
  | .bool b => .ok (if b then 1 else 0)
  | .real .nan => .error .notANumber
  | .real (.infinite _) => .error .infinite
  | .real x => .ok (x.truncate?.getD 0)
  | .str t =>
    match t.integer? with
    | some n => .ok n
    | none => .error (.badNumeral t)
  | j => .error (.notNumber j.kind)

/-- A value as a list of texts: the items of a list, the characters of a text, or the names
of a mapping. -/
def textList : Json → Except SettingsError (List Text)
  | .arr items => .ok (items.map Json.words)
  | .str t => .ok (t.map ([·]))
  | .obj members => .ok (members.map (·.1))
  | j => .error (.notIterable j.kind)

/-- A value as the path of a file; what is empty means that there is none. -/
def pathOf (j : Json) : Except SettingsError (Option Path) :=
  if !j.isTruthy then .ok none
  else
    match j with
    | .str t => .ok (some (.ofText t))
    | j => .error (.notPath j.kind)

/-- The members of a mapping. -/
def membersOf : Json → Except SettingsError (Entries Json)
  | .obj members => .ok members
  | j => .error (.notMapping j.kind)

/-- A number of a mapping, or its standard value. -/
def number (members : Entries Json) (name : String) (standard : Int) : Except SettingsError Int :=
  match Entries.get? name.toList members with
  | none => .ok standard
  | some value => integer value

/-- The variables of truth tables, or the standard ones. -/
def variablesOf : Option Json → Except SettingsError (List Text)
  | none => .ok Problem.Bounds.standard.tableVariables
  | some value => (textList value).map (·.map Text.upper)

/-- The members that set bounds. What counts as false sets none. -/
def boundMembers (j : Json) : Except SettingsError (Entries Json) :=
  if j.isTruthy then membersOf j else .ok []

/-- The bounds that a mapping sets. -/
def boundsOf (j : Json) : Except SettingsError Problem.Bounds := do
  let members ← boundMembers j
  let std := Problem.Bounds.standard
  let syntaxMinTerms ← number members "syntax_min_terms" std.syntaxMinTerms
  let syntaxMaxTerms ← number members "syntax_max_terms" std.syntaxMaxTerms
  let syntaxAttempts ← number members "syntax_attempts" std.syntaxAttempts
  let evaluationMaxDepth ← number members "evaluation_max_depth" std.evaluationMaxDepth
  let evaluationMinLength ← number members "evaluation_min_length" std.evaluationMinLength
  let tableVariables ← variablesOf (Entries.get? "table_variables".toList members)
  let tableMaxDepth ← number members "table_max_depth" std.tableMaxDepth
  let tableMinLength ← number members "table_min_length" std.tableMinLength
  let maxAttempts ← number members "max_attempts" std.maxAttempts
  return ⟨syntaxMinTerms, syntaxMaxTerms, syntaxAttempts, evaluationMaxDepth, evaluationMinLength,
    tableVariables, tableMaxDepth, tableMinLength, maxAttempts⟩

/-- The seed, which there need not be. -/
def seedOf : Option Json → Except SettingsError (Option Int)
  | none | some .null => .ok none
  | some value => (integer value).map some

/-- The level of messages, or the standard one. -/
def logLevelOf : Option Json → Text
  | none => standard.logLevel
  | some value => value.words.upper

/-- The settings that a mapping makes. -/
def ofJson (j : Json) : Except SettingsError Settings := do
  let members ← membersOf j
  let seed ← seedOf (Entries.get? "seed".toList members)
  let maxParseDepth ← number members "max_parse_depth" standard.maxParseDepth
  let logLevel := logLevelOf (Entries.get? "log_level".toList members)
  let historyLog ← pathOf ((Entries.get? "history_log".toList members).getD .null)
  let bounds ← boundsOf ((Entries.get? "generator".toList members).getD (.obj []))
  return ⟨seed, maxParseDepth, logLevel, historyLog, bounds⟩

/-- The settings of a document that was read from a path. An empty document makes none. -/
def ofDocument (path : Text) : Json → Except SettingsError Settings
  | .null => ofJson (.obj [])
  | .obj members => ofJson (.obj members)
  | j => .error (.wrongDocument path j.kind)

end Settings
end LogicTrainer
