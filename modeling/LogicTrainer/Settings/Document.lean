import LogicTrainer.Settings.Basic
import LogicTrainer.Storage.Files
import LogicTrainer.Yaml.Reader

/-! Settings files.

Settings are written in YAML, in a file that an environment variable may name. Where there
is nothing at that path, the standard settings hold. -/
namespace LogicTrainer.Settings

/-- The settings that a document makes, which was read from a path. -/
def ofText (path source : Text) : Except SettingsError Settings :=
  match Yaml.document? source with
  | none => .error .unreadable
  | some value => ofDocument path value

/-- The environment variable that names the file. -/
def environmentVariable : String := "LOGIMASTER_CONFIG"

/-- The file that is looked at if none is named. -/
def defaultPath : Text := "config/logimaster.yaml".toList

/-- The path of the settings file, given what the environment variable says. -/
def filePath (named : Option Text) : Path := .ofText (named.getD defaultPath)

/-- Why no settings were loaded. -/
inductive LoadError where
  | file (error : FileError)
  | settings (error : SettingsError)
  deriving DecidableEq, Repr

/-- Loads the settings file that is named, or the standard settings if there is none. -/
def load (fs : Files) (named : Option Text) : Except LoadError Settings :=
  let path := filePath named
  if !fs.holds path then .ok standard
  else
    match fs.read path with
    | .error e => .error (.file e)
    | .ok source => (ofText path.text source).mapError .settings

end LogicTrainer.Settings
