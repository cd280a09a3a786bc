import LogicTrainer.Json.Kind
import LogicTrainer.Json.Writer
import LogicTrainer.Storage.Files

/-! Writing history files.

A history file has one record on each line. A writer adds lines at the end of a file, in the
order in which they are written, and never touches what is there. After closing, it writes
no more. -/
namespace LogicTrainer.History

/-- What is not as it has to be, so that a record cannot be mapped to a line. -/
inductive Misfit where
  /-- The step of a session is no object. -/
  | step (kind : Text)
  | style (fault : Json.StyleFault)
  deriving DecidableEq, Repr

def Misfit.message : Misfit → Text
  | .step kind => apostrophe :: kind ++ apostrophe :: " object is not a mapping".toList
  | .style fault => fault.message

/-- Why a record is not written. -/
inductive WriteError where
  | closed
  | notMapping (misfit : Misfit)
  deriving DecidableEq, Repr

def WriteError.message : WriteError → Text
  | .closed => "Cannot write to a closed JsonlWriter.".toList
  | .notMapping misfit => misfit.message

structure Writer where
  path : Path
  place : List Text
  style : Json.Style
  closed : Bool
  deriving DecidableEq, Repr

/-- The two values that a value is taken apart into: items, characters or names. -/
def unpackTwo : Json → Except Json.StyleFault (Json × Json)
  | .arr items => two items
  | .str t => two (t.map fun c => .str [c])
  | .obj members => two (members.map fun (key, _) => .str key)
  | j => .error (.notIterable j.kind)
where
  two : List Json → Except Json.StyleFault (Json × Json)
    | [a, b] => .ok (a, b)
    | items => .error (.separatorCount items.length)

/-- A separator, which is passed on in a position. -/
def separatorOf (position : Nat) : Json → Except Json.StyleFault Text
  | .str t => .ok t
  | .null => .error (.separator position "None".toList)
  | j => .error (.separator position j.kind)

/-- The separators between items and after names. Those that are set to nothing are the wide
ones, without the blank at the end of a line. The one after names is looked at first. -/
def separatorsOf (indented : Bool) : Option Json → Except Json.StyleFault (Text × Text)
  | none => .ok (Json.compactStyle.itemSeparator, Json.compactStyle.keySeparator)
  | some .null => .ok (if indented then [','] else [',', ' '], [':', ' '])
  | some value => do
    let (item, key) ← unpackTwo value
    let key ← separatorOf 5 key
    return (← separatorOf 6 item, key)

/-- The indentation: none, a text, or a number of blanks. -/
def indentOf : Option Json → Except Json.StyleFault (Option Text)
  | none | some .null => .ok none
  | some (.str t) => .ok (some t)
  | some (.int n) => .ok (some (List.replicate n.toNat ' '))
  | some (.bool b) => .ok (some (if b then [' '] else []))
  | some value => .error (.indent value.kind)

/-- What options say of separators and indentation. -/
def layoutOf (options : Json) : Except Json.StyleFault ((Text × Text) × Option Text) := do
  let indent := indentOf (options.member? "indent".toList)
  let indented := !(indent matches .ok none)
  return (← separatorsOf indented (options.member? "separators".toList), ← indent)

/-- The style of a history file, with options set by name. -/
def styleOf (options : Json) : Json.Style :=
  let isOn name := ((options.member? name).map Json.isTruthy).getD false
  let style : Json.Style := {Json.compactStyle with
    sortKeys := isOn "sort_keys".toList, ensureAscii := isOn "ensure_ascii".toList}
  match layoutOf options with
  | .ok (separators, indent) => {style with
    itemSeparator := separators.1, keySeparator := separators.2, indent := indent}
  | .error fault => {style with fault := some fault}

/-- The line of a record. -/
def lineOf (style : Json.Style) (record : Json) : Text := record.write style ++ ['\n']

/-- The record of a session's step, with the session and the formula in front. -/
def tagged (session formula : Text) (record : Entries Json) : Json :=
  .obj (Entries.insertAll
    [("session".toList, .str session), ("formula".toList, .str formula)] record)

namespace Writer

/-- Opens a file for adding lines, and makes it and its directories where they are missing. -/
def openAt (fs : Files) (path : Path) (style : Json.Style) : Except FileError (Writer × Files) := do
  let fs ← fs.makeDirectory path.parent
  let (place, fs) ← fs.touch path
  return (⟨path, place, style, false⟩, fs)

/-- Adds a record. Nothing is written where the writer is closed or the style at fault. -/
def write (w : Writer) (fs : Files) (record : Json) : Except WriteError Files :=
  if w.closed then .error .closed
  else
    match w.style.faultOn record with
    | some fault => .error (.notMapping (.style fault))
    | none => .ok (fs.append w.place (lineOf w.style record))

/-- Adds the records of a session, up to the first that cannot be, and says how many. -/
def writeSession (w : Writer) (session formula : Text) :
    List Json → Files → Nat → Except WriteError Nat × Files
  | [], fs, count => (.ok count, fs)
  | .obj record :: rest, fs, count =>
    match w.write fs (tagged session formula record) with
    | .ok fs => writeSession w session formula rest fs (count + 1)
    | .error e => (.error e, fs)
  | record :: _, fs, _ => (.error (.notMapping (.step record.kind)), fs)

/-- The text of the writer's file. -/
def text (w : Writer) (fs : Files) : Text := fs.textAt w.place

def close (w : Writer) : Writer := {w with closed := true}

end Writer
end LogicTrainer.History
