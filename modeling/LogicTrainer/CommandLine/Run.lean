import LogicTrainer.CommandLine.Commands
import LogicTrainer.Settings.Basic
import LogicTrainer.History.Writer
import LogicTrainer.Text.Lines

/-! The program.

First the arguments are read, then the settings, then the log level is looked at, and then
the command runs. A reduction may be added to a history file: the one that is named on the
command line, or else that of the settings. -/
namespace LogicTrainer.CommandLine

/-- The names of log levels. -/
def levelNames : List Text :=
  ["CRITICAL", "FATAL", "ERROR", "WARN", "WARNING", "INFO", "DEBUG", "NOTSET"].map String.toList

/-- Why the program stops. -/
inductive Failure where
  | refused (refusal : Refusal)
  | settings (error : SettingsError)
  | unknownLevel (level : Text)
  | draw (error : DrawError)
  | file (error : FileError)
  deriving DecidableEq, Repr

/-- What is said of a log level that is none. -/
def unknownLevelMessage (level : Text) : Text := "Unknown level: ".toList ++ level.quoted

/-- What is printed for arguments that are turned down. -/
def usageText (program : Text) (error : UsageError) : Text :=
  program ++ ": error: ".toList ++ error.message

/-- The last line of it: an argument that is repeated in it may hold line ends. -/
def usageLine (program : Text) (error : UsageError) : Text :=
  ((Text.splitLines (Text.unifyNewlines (usageText program error).stripped)).getLast?).getD []

/-- The first of two texts that is there and not empty. -/
def firstFilled (given : Option Text) (otherwise : Text) : Text :=
  match given with
  | some t => if t.isEmpty then otherwise else t
  | none => otherwise

/-- What a run prints, and the states that it adds to a history file. -/
structure Outcome where
  report : Report
  path : Option Path
  formula : Text
  records : List (Entries Json)

namespace Outcome

/-- A run that adds nothing to a file. -/
def ofReport (r : Report) : Outcome := ⟨r, none, [], []⟩

/-- The lines that a run adds to its history file. -/
def addition (o : Outcome) (session : Text) : Text :=
  o.records.flatMap fun record =>
    History.lineOf Json.compactStyle (History.tagged session o.formula record)

/-- Adds the states of a run to its history file. -/
def save (o : Outcome) (session : Text) (fs : Files) : Except FileError Files :=
  match o.path with
  | none => .ok fs
  | some path => do
    let (writer, fs) ← History.Writer.openAt fs path Json.compactStyle
    return (writer.writeSession session o.formula (o.records.map Json.obj) fs 0).2

end Outcome

/-- The history file of a reduction. -/
def historyPath (given : Option Text) (settings : Settings) : Option Path :=
  match firstFilled given [] with
  | [] => settings.historyLog
  | t => some (.ofText t)

/-- Carries out a request on a stack. Without a seed, problems are drawn from `otherSeed`. -/
def carryOut (stack : Nat) (settings : Settings) (otherSeed : Int) :
    Request → Except Failure Outcome
  | .canon formula =>
    .ok (.ofReport (canon (allowedDepth stack settings.maxParseDepth) formula))
  | .eval formula pairs =>
    .ok (.ofReport (eval (allowedDepth stack settings.maxParseDepth) formula pairs))
  | .table formula =>
    .ok (.ofReport (table (allowedDepth stack settings.maxParseDepth) formula))
  | .reduce formula pairs historyLog =>
    let maxDepth := allowedDepth stack settings.maxParseDepth
    let report := reduce maxDepth formula pairs
    match reduction? maxDepth formula pairs with
    | none => .ok (.ofReport report)
    | some session => .ok ⟨report, historyPath historyLog settings, formula, session.records⟩
  | .generate kind count seed =>
    match generate settings.bounds kind count (seed.getD (settings.seed.getD otherSeed)) with
    | .ok report => .ok (.ofReport report)
    | .error e => .error (.draw e)

/-- Runs the program on its arguments, with settings that may fail to load. -/
def run (arguments : List Text) (load : Except SettingsError Settings) (otherSeed : Int)
    (stack : Nat := standardStack) : Except Failure Outcome := do
  let invocation ← (Invocation.read arguments).mapError .refused
  let settings ← load.mapError .settings
  let level := (firstFilled invocation.logLevel settings.logLevel).upper
  if !levelNames.contains level then throw (.unknownLevel level)
  carryOut stack settings otherSeed invocation.request

end LogicTrainer.CommandLine
