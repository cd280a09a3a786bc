import LogicTrainer.CommandLine.Run
import LogicTrainer.Settings.Document

/-! The command line program.

Everything that touches the outside: the environment, files, and the two output streams. -/
namespace LogicTrainer.Program
open CommandLine

/-- Reads the settings file, or takes the standard settings where there is none. -/
def loadSettings : IO (Except SettingsError Settings) := do
  let named ← IO.getEnv Settings.environmentVariable
  let path := Settings.filePath (named.map String.toList)
  try
    let source ← IO.FS.readFile (String.ofList path.text)
    return Settings.ofText path.text source.toList
  catch e =>
    match e with
    | .noFileOrDirectory .. => return .ok Settings.standard
    | other => throw other

/-- A random name for a session: 32 hexadecimal digits. -/
def sessionName : IO Text := do
  let n ← IO.rand 0 (Nat.pow 16 16 - 1)
  let m ← IO.rand 0 (Nat.pow 16 16 - 1)
  return Text.hex 16 n ++ Text.hex 16 m

/-- Adds lines at the end of a file, in directories that are made for it. -/
def appendTo (path : Path) (text : Text) : IO Unit := do
  unless path.parent.parts.isEmpty do
    IO.FS.createDirAll (String.ofList path.parent.text)
  let handle ← IO.FS.Handle.mk (String.ofList path.text) .append
  handle.putStr (String.ofList text)
  handle.flush

/-- What is printed for a failure, and the status that it leaves. -/
def describe : Failure → Text × UInt32
  | .refused (.usage program e) => (usageText program e, 2)
  | .refused (.help _) => ([], 0)
  | .settings e => (e.message, 1)
  | .unknownLevel level => (unknownLevelMessage level, 1)
  | .draw e => (e.message, 1)
  | .file _ => ("the history file cannot be written".toList, 1)

/-- The usage line of the interface that a program name belongs to. -/
def usageOf (program : Text) : Text :=
  match Command.all.find? fun c => c.interface.program == program with
  | some c => c.interface.usage
  | none => mainInterface.usage

/-- Runs the program. -/
def start (arguments : List String) : IO UInt32 := do
  let settings ← loadSettings
  let seed ← IO.rand 0 (Nat.pow 2 62)
  match run (arguments.map String.toList) settings seed with
  | .ok outcome =>
    IO.print (String.ofList outcome.report.text)
    if let some path := outcome.path then
      appendTo path (outcome.addition (← sessionName))
    return UInt32.ofNat outcome.report.status
  | .error (.refused (.help program)) =>
    IO.println (String.ofList (usageOf program))
    return 0
  | .error failure =>
    let (message, status) := describe failure
    IO.eprintln (String.ofList message)
    return status

end LogicTrainer.Program

/-- The entry point. -/
def main (arguments : List String) : IO UInt32 := LogicTrainer.Program.start arguments
