import Mathlib.Data.List.InsertIdx
import LogicTrainer.Proofs.History.Desk

/-! A history is read back as it was written.

A ledger follows a list of actions without files and without asking what came of them: it knows of
every writer only whether it is open, and enters a record exactly if the writer in use is. A desk
at which a history is kept goes along with the ledger (`Keeps`): the same writers are open, and
the file holds what it held before and the entries. Every action is answered as the ledger says
and keeps this (`Keeps.step`), and so does every run.

The main statement is `history_is_read_back`. -/
namespace LogicTrainer.History
open Text Json

/-! ### Ledgers -/

/-- What is known of a history from its actions alone. -/
structure Ledger where
  /-- Whether the writer in use is open, if there is one. -/
  inUse : Option Bool
  /-- Whether the other writers are open, the latest first. -/
  aside : List Bool
  /-- The records that were written, in their order. -/
  entries : List Json

namespace Ledger

def blank : Ledger := ⟨none, [], []⟩

/-- Another writer is in use, and the one before it lies aside. -/
def take (l : Ledger) (isOpen : Bool) (aside : List Bool) : Ledger :=
  {l with inUse := some isOpen, aside := l.inUse.toList ++ aside}

/-- Records are entered if the writer in use is open. -/
def enter (l : Ledger) (records : List Json) : Ledger :=
  if l.inUse = some true then {l with entries := l.entries ++ records} else l

/-- The writer in use is closed. -/
def close (l : Ledger) : Ledger := {l with inUse := l.inUse.map fun _ => false}

/-- The ledger after an action. A file that is opened brings an open writer into use, and it stays
open until it is closed. -/
def after (l : Ledger) : Action → Ledger
  | .openFile .. => l.take true l.aside
  | .turnTo index =>
    match l.aside[index]? with
    | some isOpen => l.take isOpen (l.aside.eraseIdx index)
    | none => l
  | action =>
    if action.closes then (l.enter action.records).close else l.enter action.records

/-- How an action is answered: with the number of records written, unless there is no such writer,
or there is something to write and the writer is closed. -/
def answer (l : Ledger) : Action → Except DeskError Nat
  | .openFile .. => .ok 0
  | .turnTo index => if index < l.aside.length then .ok 0 else .error .noWriter
  | action =>
    match l.inUse with
    | none => .error .noWriter
    | some true => .ok action.records.length
    | some false => if action.records = [] then .ok 0 else .error (.write .closed)

section
variable {l : Ledger} {action : Action}

theorem after_of_usesWriter (h : action.usesWriter = true) (l : Ledger) : l.after action =
    if action.closes then (l.enter action.records).close else l.enter action.records := by
  cases action with
  | openFile | turnTo => cases h
  | write | writeSession | writeLast | close => rfl

theorem answer_of_usesWriter (h : action.usesWriter = true) (l : Ledger) : l.answer action =
    match l.inUse with
    | none => .error .noWriter
    | some true => .ok action.records.length
    | some false => if action.records = [] then .ok 0 else .error (.write .closed) := by
  cases action with
  | openFile | turnTo => cases h
  | write | writeSession | writeLast | close => rfl

/-- With an open writer the records are entered. -/
theorem after_of_open (huses : action.usesWriter = true) (h : l.inUse = some true) :
    l.after action =
      {l with inUse := some !action.closes, entries := l.entries ++ action.records} := by
  rw [after_of_usesWriter huses, enter, if_pos h]
  cases action.closes with
  | true =>
    rw [if_pos rfl, close, h]
    rfl
  | false =>
    rw [if_neg Bool.false_ne_true, h]
    rfl

/-- Without an open writer nothing is entered. -/
theorem after_of_not_open (huses : action.usesWriter = true) (h : l.inUse ≠ some true) :
    l.after action = l := by
  rw [after_of_usesWriter huses, enter, if_neg h]
  have hclose : l.close = l := by
    rcases hflag : l.inUse with - | isOpen
    · rw [close, hflag, Option.map_none, ← hflag]
    · cases isOpen with
      | true => exact absurd hflag h
      | false => rw [close, hflag, Option.map_some, ← hflag]
  rw [hclose, ite_self]

end
end Ledger

/-! ### Desks and ledgers -/

namespace Desk

/-- What is true of a desk at which a history is kept: its writers are open where the ledger says
so, and add lines at the end of the file; without a writer nothing has happened, and otherwise the
file holds what it held before and the entries. -/
structure Keeps (fs : Files) (path : Path) (before : List Json) (d : Desk) (l : Ledger) : Prop where
  inUse : d.writer.map Writer.isOpen = l.inUse
  aside : d.aside.map Writer.isOpen = l.aside
  writers : ∀ w ∈ d.writers, w.place = path.target ∧ ∃ ascii, w.style = lineStyle ascii
  idle : d.writer = none → d = start fs ∧ l.entries = []
  holds : d.writer ≠ none ∨ Holds fs path before → Holds d.files path (before ++ l.entries)

section
variable {fs : Files} {path : Path} {before : List Json} {d : Desk} {l : Ledger} {action : Action}

/-- A writer is taken up that is there, or that is new and adds lines as well. -/
theorem Keeps.take (h : Keeps fs path before d l) {w : Writer}
    (hw : w.place = path.target ∧ ∃ ascii, w.style = lineStyle ascii) {aside : List Writer}
    (haside : ∀ other ∈ aside, other ∈ d.aside) {files : Files}
    (hholds : Holds files path (before ++ l.entries)) :
    Keeps fs path before (d.take w files aside)
      (l.take w.isOpen (aside.map Writer.isOpen)) where
  inUse := rfl
  aside := by
    show (d.writer.toList ++ aside).map _ = l.inUse.toList ++ _
    rw [List.map_append, ← h.inUse]
    cases d.writer <;> rfl
  writers other hother := by
    rw [writers_take] at hother
    rcases List.mem_cons.1 hother with rfl | hother
    · exact hw
    · apply h.writers
      rcases List.mem_append.1 hother with hused | hother
      · exact List.mem_append_left _ hused
      · exact List.mem_append_right _ (haside other hother)
  idle hnone := by cases hnone
  holds _ := hholds

/-- A file that can be opened is, and the new writer is open. -/
theorem Keeps.openFile (h : Keeps fs path before d l) (hopens : Opens fs path)
    (hstart : Holds fs path before ∨ fs.node? path.target = none ∧ before = []) {style : Style}
    (hstyle : ∃ ascii, style = lineStyle ascii) :
    ∃ next, d.perform (.openFile path style) = (.ok 0, next) ∧
      Keeps fs path before next (l.take true l.aside) := by
  rw [← h.aside]
  by_cases hheld : d.writer ≠ none ∨ Holds fs path before
  · have hholds := h.holds hheld
    obtain ⟨text, hread, -⟩ := id hholds
    exact ⟨_, perform_openFile hread style, h.take ⟨rfl, hstyle⟩ (fun _ hother => hother) hholds⟩
  · obtain ⟨hnone, hnot⟩ := not_or.1 hheld
    obtain ⟨rfl, hentries⟩ := h.idle (Classical.not_not.1 hnone)
    obtain ⟨habsent, rfl⟩ := hstart.resolve_left hnot
    obtain ⟨⟨w, files⟩, hopened⟩ := hopens.exists_openAt style
    obtain ⟨rfl, hread⟩ := read_of_openAt hopened habsent
    refine ⟨(start fs).take ⟨path, path.target, style, false⟩ files [], ?_,
      h.take ⟨rfl, hstyle⟩ (fun _ hother => hother) ?_⟩
    · simp only [perform, start, hopened]
    · rw [hentries]
      exact holds_empty hread

/-- A writer that lies aside is taken up as it is. -/
theorem Keeps.turnTo (h : Keeps fs path before d l) (index : Nat) :
    ∃ next, d.perform (.turnTo index) = (l.answer (.turnTo index), next) ∧
      Keeps fs path before next (l.after (.turnTo index)) ∧
      (∀ e, l.answer (.turnTo index) = .error e → next = d) := by
  have hlength : d.aside.length = l.aside.length := by rw [← h.aside, List.length_map]
  by_cases hindex : index < l.aside.length
  · obtain ⟨w, hw⟩ : ∃ w, d.aside[index]? = some w :=
      ⟨_, List.getElem?_eq_getElem (hlength ▸ hindex)⟩
    have hmem : w ∈ d.writers := List.mem_append_right _ (List.mem_of_getElem? hw)
    have hused : d.writer ≠ none := by
      intro hnone
      obtain ⟨rfl, -⟩ := h.idle hnone
      cases hw
    have hflag : l.aside[index]? = some w.isOpen := by
      rw [← h.aside, List.getElem?_map, hw, Option.map_some]
    have hanswer : l.answer (.turnTo index) = .ok 0 := if_pos hindex
    refine ⟨d.take w d.files (d.aside.eraseIdx index), ?_, ?_, fun e he => ?_⟩
    · rw [hanswer]
      simp only [perform, hw]
    · have haside : ∀ other ∈ d.aside.eraseIdx index, other ∈ d.aside :=
        fun _ hother => List.mem_of_mem_eraseIdx hother
      have hkeeps := h.take (h.writers w hmem) haside (h.holds (.inl hused))
      rw [← List.eraseIdx_map, h.aside] at hkeeps
      simp only [Ledger.after, hflag]
      exact hkeeps
    · rw [hanswer] at he
      cases he
  · have hnone : d.aside[index]? = none := List.getElem?_eq_none (by omega)
    have hflag : l.aside[index]? = none := List.getElem?_eq_none (by omega)
    refine ⟨d, ?_, ?_, fun _ _ => rfl⟩
    · simp only [perform, hnone, Ledger.answer, if_neg hindex]
    · simp only [Ledger.after, hflag]
      exact h

/-- What an open writer writes is at the end of the file. -/
theorem Keeps.useOpen (h : Keeps fs path before d l) {w : Writer} (hw : d.writer = some w)
    (hopen : w.isOpen = true) (haction : action.KeepsHistory path) :
    Keeps fs path before
      {d with files := w.addAll d.files action.records
              writer := some (if action.closes then w.close else w)}
      {l with inUse := some !action.closes, entries := l.entries ++ action.records} := by
  have hmem : w ∈ d.writers := by
    rw [Desk.writers, hw]
    exact List.mem_cons_self
  have hused : d.writer ≠ none := by
    rw [hw]
    exact Option.some_ne_none w
  obtain ⟨hplace, ascii, hstyle⟩ := h.writers w hmem
  constructor
  · show some (if action.closes then w.close else w).isOpen = some !action.closes
    cases action.closes with
    | true => rfl
    | false => exact congrArg some hopen
  · exact h.aside
  · intro other hother
    rcases List.mem_cons.1 hother with rfl | hother
    · cases action.closes <;> exact ⟨hplace, ascii, hstyle⟩
    · exact h.writers other (List.mem_append_right _ hother)
  · intro hnone
    cases hnone
  · intro _
    rw [← List.append_assoc]
    exact Writer.holds_addAll (h.holds (.inl hused)) hplace hstyle haction.isPlain

/-- What is done with a writer goes as the ledger says. -/
theorem Keeps.useWriter (h : Keeps fs path before d l) (haction : action.KeepsHistory path)
    (huses : action.usesWriter = true) :
    ∃ next, d.perform action = (l.answer action, next) ∧
      Keeps fs path before next (l.after action) ∧
      (∀ e, l.answer action = .error e → next = d) := by
  have hflag := h.inUse
  rw [Ledger.answer_of_usesWriter huses]
  cases hw : d.writer with
  | none =>
    rw [hw, Option.map_none] at hflag
    rw [Ledger.after_of_not_open huses (by rw [← hflag]; decide), ← hflag]
    exact ⟨d, perform_of_none hw huses, h, fun _ _ => rfl⟩
  | some w =>
    rw [hw, Option.map_some] at hflag
    cases hopen : w.isOpen with
    | false =>
      rw [hopen] at hflag
      rw [Ledger.after_of_not_open huses (by rw [← hflag]; decide), ← hflag]
      have hclosed : w.closed = true := by rw [Writer.closed_eq, hopen, Bool.not_false]
      exact ⟨d, perform_of_closed hw hclosed haction huses, h, fun _ _ => rfl⟩
    | true =>
      rw [hopen] at hflag
      have hfault : w.style.fault = none := by
        obtain ⟨-, ascii, hstyle⟩ := h.writers w (by rw [Desk.writers, hw]; exact List.mem_cons_self)
        rw [hstyle]
        rfl
      rw [Ledger.after_of_open huses hflag.symm, ← hflag]
      have hclosed : w.closed = false := by rw [Writer.closed_eq, hopen, Bool.not_true]
      refine ⟨_, perform_of_open hw hclosed hfault haction huses,
        h.useOpen hw hopen haction, fun e he => ?_⟩
      cases he

/-- One action is answered as the ledger says, and keeps what is true of the desk. -/
theorem Keeps.step (h : Keeps fs path before d l) (hopens : Opens fs path)
    (hstart : Holds fs path before ∨ fs.node? path.target = none ∧ before = [])
    (haction : action.KeepsHistory path) :
    ∃ next, d.perform action = (l.answer action, next) ∧
      Keeps fs path before next (l.after action) ∧
      (∀ e, l.answer action = .error e → next = d) := by
  cases huses : action.usesWriter with
  | true => exact h.useWriter haction huses
  | false =>
    cases action with
    | openFile p style =>
      have hstyle := haction.exists_lineStyle
      obtain ⟨rfl, -⟩ := haction
      obtain ⟨next, hperform, hkeeps⟩ := h.openFile hopens hstart hstyle
      exact ⟨next, hperform, hkeeps, fun e he => by cases he⟩
    | turnTo index => exact h.turnTo index
    | write | writeLast | writeSession | close => cases huses

/-- A list of actions keeps what is true of the desk. -/
theorem Keeps.run (h : Keeps fs path before d l) (hopens : Opens fs path)
    (hstart : Holds fs path before ∨ fs.node? path.target = none ∧ before = [])
    {actions : List Action} (hactions : ∀ action ∈ actions, action.KeepsHistory path) :
    Keeps fs path before (d.run actions) (actions.foldl Ledger.after l) := by
  induction actions generalizing d l with
  | nil => exact h
  | cons action actions ih =>
    obtain ⟨next, hperform, hkeeps, -⟩ := h.step hopens hstart (hactions action List.mem_cons_self)
    show Keeps fs path before ((d.perform action).2.run actions) _
    rw [hperform]
    exact ih hkeeps fun action haction => hactions action (List.mem_cons_of_mem _ haction)

end

end Desk
end LogicTrainer.History
