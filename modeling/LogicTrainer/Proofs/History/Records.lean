import LogicTrainer.History.Reader
import LogicTrainer.History.Writer
import LogicTrainer.Proofs.Json.RoundTrip
import LogicTrainer.Proofs.Json.Printed
import LogicTrainer.Proofs.Storage.Files

/-! The records of a history file.

A record is an object of plain values. Its line holds all of it and nothing else, so what is
read from a finished text with a line more is one record more (`records?_append_lineOf`). A file
that holds records (`Holds`) can be read, and stays so when a line is added to it. -/
namespace LogicTrainer.History
open Text Json

/-! ### Lines of records -/

/-- Options that only say whether characters outside ASCII are escaped keep records on one
line. -/
theorem styleOf_ensureAscii (ascii : Bool) :
    styleOf (.obj [("ensure_ascii".toList, .bool ascii)]) = lineStyle ascii := by
  cases ascii <;> rfl

/-- A line does not start with a line break. -/
theorem exists_lineOf_eq_cons (style : Style) (record : Json) :
    ∃ c t, lineOf style record = c :: t ∧ ¬ IsBreak c := by
  obtain ⟨c, t, ht, hc⟩ := exists_write_eq_cons style record
  exact ⟨c, t ++ ['\n'], by rw [lineOf, ht, List.cons_append], hc⟩

theorem lines_lineOf {style : Style} {record : Json} (h : IsPrinted (record.write style)) :
    lines (lineOf style record) = [record.write style] := h.lines_concat

/-- What is written is no blank line. -/
theorem isBlankLine_write {record : Json} (h : record.IsPlain) (ascii : Bool) :
    isBlankLine (record.write (lineStyle ascii)) = false := by
  obtain ⟨c, t, ht, hc⟩ := h.exists_writeAt_eq_cons ascii 0
  rw [write, ht, isBlankLine, List.all_cons, hc.isBlank_eq_false]
  rfl

/-- A line is read as its record. -/
theorem records?_lineOf {record : Json} (h : record.IsPlain) (ascii : Bool) :
    records? (lineOf (lineStyle ascii) record) = some [record] := by
  have hprinted : IsPrinted (record.write (lineStyle ascii)) :=
    isPrinted_write (isPrinted_lineStyle ascii) fun hindent => hindent.1 rfl
  have hfilled : filledLines (lineOf (lineStyle ascii) record) =
      [record.write (lineStyle ascii)] := by
    rw [filledLines_eq, lines_lineOf hprinted]
    exact List.filter_cons_of_pos (by rw [isBlankLine_write h]; rfl)
  rw [records?, hfilled, List.mapM_cons, h.read?_write]
  rfl

/-- What is added to a finished text is read after what was there. -/
theorem records?_append {t b : Text} (h : Finished t) (hb : ∀ rest, b ≠ '\n' :: rest)
    {before added : List Json} (hbefore : records? t = some before)
    (hadded : records? b = some added) : records? (t ++ b) = some (before ++ added) := by
  have hfilled : filledLines (t ++ b) = filledLines t ++ filledLines b := by
    rw [filledLines_eq, filledLines_eq, filledLines_eq, h.lines_append hb, List.filter_append]
  rw [records?] at hbefore hadded ⊢
  rw [hfilled, List.mapM_append, hbefore, hadded]
  rfl

theorem records?_append_lineOf {t : Text} (h : Finished t) {before : List Json}
    (hbefore : records? t = some before) {record : Json} (hrecord : record.IsPlain)
    (ascii : Bool) :
    records? (t ++ lineOf (lineStyle ascii) record) = some (before ++ [record]) := by
  obtain ⟨c, line, hline, hc⟩ := exists_lineOf_eq_cons (lineStyle ascii) record
  refine records?_append h (fun rest heq => hc (.inl ?_)) hbefore (records?_lineOf hrecord ascii)
  rw [hline] at heq
  exact (List.cons.inj heq).1

/-! ### Records -/

/-- An object of plain values. -/
def IsRecord (j : Json) : Prop := j.IsPlain ∧ ∃ members, j = .obj members

/-- A record stays one with the session and the formula in front. -/
theorem isRecord_tagged (session formula : Text) {members : List (Text × Json)}
    (h : (Json.obj members).IsPlain) : IsRecord (tagged session formula members) := by
  cases h with
  | obj hkeys hmembers =>
    have hfront : (Entries.keys [("session".toList, Json.str session),
        ("formula".toList, Json.str formula)]).Nodup := by simp [Entries.keys]
    refine ⟨.obj (Entries.insertAll_keys_nodup _ hfront) fun entry hentry => ?_, _, rfl⟩
    rcases Entries.mem_insertAll hentry with hfront | hmember
    · rcases List.mem_cons.1 hfront with rfl | hfront
      · exact .str session
      · obtain rfl := List.mem_singleton.1 hfront
        exact .str formula
    · exact hmembers entry hmember

/-- The records that are written of a session's steps: those before the first that is no
object. -/
def sessionRecords (session formula : Text) : List Json → List Json
  | .obj members :: rest => tagged session formula members :: sessionRecords session formula rest
  | _ => []

theorem isRecord_of_mem_sessionRecords {session formula : Text} {steps : List Json}
    (h : ∀ step ∈ steps, IsRecord step) {record : Json}
    (hrecord : record ∈ sessionRecords session formula steps) : IsRecord record := by
  induction steps with
  | nil => cases hrecord
  | cons step steps ih =>
    obtain ⟨hplain, members, rfl⟩ := h step List.mem_cons_self
    rcases List.mem_cons.1 hrecord with rfl | hrecord
    · exact isRecord_tagged session formula hplain
    · exact ih (fun step hstep => h step (List.mem_cons_of_mem _ hstep)) hrecord

/-! ### Files of records -/

/-- The file at a path can be read as a list of records, and its last line is ended. -/
def Holds (fs : Files) (path : Path) (records : List Json) : Prop :=
  ∃ text, fs.read path = .ok text ∧ Finished text ∧ records? text = some records

section
variable {fs : Files} {path : Path} {records : List Json}

/-- One more line is one more record. -/
theorem Holds.append (h : Holds fs path records) {record : Json} (hrecord : record.IsPlain)
    (ascii : Bool) : Holds (fs.append path.target (lineOf (lineStyle ascii) record)) path
      (records ++ [record]) := by
  obtain ⟨text, hread, hfinished, hrecords⟩ := h
  refine ⟨_, Files.read_append hread _, ?_, records?_append_lineOf hfinished hrecords hrecord ascii⟩
  rw [lineOf, ← List.append_assoc]
  exact finished_concat _

theorem holds_empty (h : fs.read path = .ok []) : Holds fs path [] := ⟨[], h, .inl rfl, rfl⟩

end
end LogicTrainer.History
