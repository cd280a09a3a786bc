import LogicTrainer.Entries
import LogicTrainer.Storage.Path

/-! A tree of files.

Files and directories under one root, each at the list of names that lead to it. Paths are
followed name by name: every name but the last has to be a directory that is there, and two
dots lead back up. -/
namespace LogicTrainer

inductive FileNode where
  | file (text : Text)
  | directory
  deriving DecidableEq, Repr

/-- Why a file cannot be reached. -/
inductive FileError where
  | notFound
  | isDirectory
  | notDirectory
  deriving DecidableEq, Repr

/-- The nodes other than the root, by the names that lead to them, the latest first. -/
structure Files where
  nodes : List (List Text × FileNode)
  deriving DecidableEq, Repr

namespace Files

def empty : Files := ⟨[]⟩

/-- What is at a place. -/
def node? (fs : Files) (place : List Text) : Option FileNode :=
  if place.isEmpty then some .directory else fs.nodes.lookup place

/-- Puts a node at a place. -/
def put (fs : Files) (place : List Text) (node : FileNode) : Files := ⟨(place, node) :: fs.nodes⟩

/-- The place that a name leads to from a directory. -/
def stepTo (place : List Text) (name : Text) : List Text :=
  if name = ['.', '.'] then place.dropLast else place ++ [name]

/-- The place that names lead to from a place. There need not be anything. -/
def follow (fs : Files) : List Text → List Text → Except FileError (List Text)
  | place, [] => .ok place
  | place, name :: rest =>
    match fs.node? place with
    | none => .error .notFound
    | some (.file _) => .error .notDirectory
    | some .directory => follow fs (stepTo place name) rest

/-- The place of a path. -/
def locate (fs : Files) (p : Path) : Except FileError (List Text) := fs.follow [] p.parts

/-- The tree with directories at every name of a way. -/
def ensure (fs : Files) : List Text → List Text → Except FileError Files
  | _, [] => .ok fs
  | place, name :: rest =>
    let next := stepTo place name
    match fs.node? next with
    | some .directory => ensure fs next rest
    | some (.file _) => .error .notDirectory
    | none => ensure (fs.put next .directory) next rest

/-- Whether anything is at a path. -/
def holds (fs : Files) (p : Path) : Bool :=
  match fs.locate p with
  | .ok place => (fs.node? place).isSome
  | .error _ => false

/-- The tree with a directory at a path, unless something is there. -/
def makeDirectory (fs : Files) (p : Path) : Except FileError Files :=
  if fs.holds p then .ok fs else fs.ensure [] p.parts

/-- The text of the file at a path. -/
def read (fs : Files) (p : Path) : Except FileError Text := do
  match fs.node? (← fs.locate p) with
  | some (.file text) => return text
  | some .directory => throw .isDirectory
  | none => throw .notFound

/-- Makes sure that there is a file at a path, and says at which place. -/
def touch (fs : Files) (p : Path) : Except FileError (List Text × Files) := do
  let place ← fs.locate p
  match fs.node? place with
  | some (.file _) => return (place, fs)
  | some .directory => throw .isDirectory
  | none => return (place, fs.put place (.file []))

/-- The text at a place; nothing where there is no file. -/
def textAt (fs : Files) (place : List Text) : Text :=
  match fs.node? place with
  | some (.file text) => text
  | _ => []

/-- Writes at the end of the file at a place. -/
def append (fs : Files) (place : List Text) (text : Text) : Files :=
  fs.put place (.file (fs.textAt place ++ text))

/-- Puts a file with a text at a path, in directories that are made for it. -/
def write (fs : Files) (p : Path) (text : Text) : Except FileError Files := do
  let fs ← fs.makeDirectory p.parent
  let (place, fs) ← fs.touch p
  return fs.put place (.file text)

end Files
end LogicTrainer
