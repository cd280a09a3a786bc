import LogicTrainer.History.Writer

/-! Keeping history.

A desk is a tree of files, the writer that is in use, and the writers that lie aside. Opening a
file brings a new writer into use and puts the one before it aside, from where it may be taken
again. Records are written with the writer in use, and one that is lent for a single record is
closed after it. Closing does not take it away, so what is written after it is turned down. -/
namespace LogicTrainer.History

/-- Why an action fails. -/
inductive DeskError where
  | noWriter
  | file (error : FileError)
  | write (error : WriteError)
  deriving DecidableEq, Repr

structure Desk where
  files : Files
  /-- The writer in use. -/
  writer : Option Writer
  /-- The other writers, the latest first. -/
  aside : List Writer
  deriving DecidableEq, Repr

/-- What may be done at a desk. -/
inductive Action where
  | openFile (path : Path) (style : Json.Style)
  /-- Takes up a writer that lies aside. -/
  | turnTo (index : Nat)
  | write (record : Json)
  | writeSession (session formula : Text) (records : List Json)
  /-- Writes one record and closes the writer, whether it was written or not. -/
  | writeLast (record : Json)
  | close

namespace Desk

/-- A desk with no files and no writer. -/
def empty : Desk := ⟨Files.empty, none, []⟩

/-- The desk with another writer in use. -/
def take (d : Desk) (w : Writer) (files : Files) (aside : List Writer) : Desk :=
  ⟨files, some w, d.writer.toList ++ aside⟩

/-- The text of the current writer's file. -/
def text (d : Desk) : Text :=
  match d.writer with
  | none => []
  | some w => w.text d.files

/-- Writes one record with a writer, which is left on the desk. -/
def writeWith (d : Desk) (w : Writer) (record : Json) (after : Writer) :
    Except DeskError Nat × Desk :=
  match w.write d.files record with
  | .ok files => (.ok 1, {d with files := files, writer := some after})
  | .error e => (.error (.write e), {d with writer := some after})

/-- Does something with the current writer. -/
def withWriter (d : Desk) (f : Writer → Except DeskError Nat × Desk) :
    Except DeskError Nat × Desk :=
  match d.writer with
  | none => (.error .noWriter, d)
  | some w => f w

/-- Does something at a desk, and says how many records were written. -/
def perform (d : Desk) : Action → Except DeskError Nat × Desk
  | .openFile path style =>
    match Writer.openAt d.files path style with
    | .ok (w, files) => (.ok 0, d.take w files d.aside)
    | .error e => (.error (.file e), d)
  | .turnTo index =>
    match d.aside[index]? with
    | some w => (.ok 0, d.take w d.files (d.aside.eraseIdx index))
    | none => (.error .noWriter, d)
  | .write record => d.withWriter fun w => d.writeWith w record w
  | .writeLast record => d.withWriter fun w => d.writeWith w record w.close
  | .writeSession session formula records =>
    d.withWriter fun w =>
      let (outcome, files) := w.writeSession session formula records d.files 0
      (outcome.mapError .write, {d with files := files, writer := some w})
  | .close => d.withWriter fun w => (.ok 0, {d with writer := some w.close})

/-- The desk after a list of actions. -/
def run (d : Desk) (actions : List Action) : Desk :=
  actions.foldl (fun d action => (d.perform action).2) d

end Desk
end LogicTrainer.History
