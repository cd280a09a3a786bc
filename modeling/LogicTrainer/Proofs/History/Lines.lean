import LogicTrainer.Proofs.History.Desk

/-! When a written record is a line.

Whatever the options and whatever was there, writing adds to the end of the file the text of each
record and a line feed (`read_addAll`, `run_writes`). Only where the last line was ended is that
a new line, and only a record that is not spread over several lines by indentation is one line. In
every other case the lines of the file are not those from before and one for each record.

The main statement is `lines_are_added_iff`. -/
namespace LogicTrainer.History
open Text Json

/-! ### Lines of several records -/

section
variable {style : Style} {records : List Json}

theorem flatMap_lineOf_ne (style : Style) (records : List Json) (rest : Text) :
    records.flatMap (lineOf style) ≠ '\n' :: rest := by
  cases records with
  | nil => exact (List.cons_ne_nil _ _).symm
  | cons record records =>
    obtain ⟨c, t, ht, hc⟩ := exists_lineOf_eq_cons style record
    rw [List.flatMap_cons, ht, List.cons_append]
    exact fun heq => hc (.inl (List.cons.inj heq).1)

theorem finished_flatMap_lineOf (style : Style) (records : List Json) :
    Finished (records.flatMap (lineOf style)) := by
  rcases List.eq_nil_or_concat records with rfl | ⟨front, last, rfl⟩
  · exact .inl rfl
  · rw [List.concat_eq_append, List.flatMap_append, List.flatMap_singleton, lineOf,
      ← List.append_assoc]
    exact finished_concat _

/-- Records on one line each are the lines of their text. -/
theorem lines_flatMap_lineOf (h : ∀ record ∈ records, IsPrinted (record.write style)) :
    lines (records.flatMap (lineOf style)) = records.map (write style) := by
  have htext : records.flatMap (lineOf style) =
      (records.map (write style)).flatMap fun line => line ++ ['\n'] := by
    rw [List.flatMap_map]
    rfl
  rw [htext, lines_flatMap fun line hline => ?_]
  obtain ⟨record, hrecord, rfl⟩ := List.mem_map.1 hline
  exact h record hrecord

/-- There are at least as many line feeds as records, and more if a record has one itself. -/
theorem length_le_count_flatMap (style : Style) (records : List Json) :
    records.length ≤ (records.flatMap (lineOf style)).count '\n' ∧
      ((records.flatMap (lineOf style)).count '\n' ≤ records.length →
        ∀ record ∈ records, '\n' ∉ record.write style) := by
  induction records with
  | nil => exact ⟨Nat.le_refl 0, fun _ _ h => absurd h List.not_mem_nil⟩
  | cons record records ih =>
    obtain ⟨hle, hnone⟩ := ih
    have hcount : ((record :: records).flatMap (lineOf style)).count '\n' =
        (record.write style).count '\n' + 1 + (records.flatMap (lineOf style)).count '\n' := by
      rw [List.flatMap_cons, List.count_append, lineOf, List.count_append]
      rfl
    rw [hcount, List.length_cons]
    refine ⟨by omega, fun hmost => List.forall_mem_cons.2 ⟨?_, hnone (by omega)⟩⟩
    apply List.count_eq_zero.1
    omega

/-- As many lines as records are one line each. -/
theorem not_mem_of_length_lines
    (h : (lines (records.flatMap (lineOf style))).length = records.length) :
    ∀ record ∈ records, '\n' ∉ record.write style := by
  rw [(finished_flatMap_lineOf style records).length_lines] at h
  have hunify := count_le_count_unifyNewlines (records.flatMap (lineOf style))
  exact (length_le_count_flatMap style records).2 (h ▸ hunify)

/-- The lines from before stay only if the last of them was ended. -/
theorem finished_of_lines_append {before : Text} (hne : records ≠ []) {more : List Text}
    (hlines : lines (before ++ records.flatMap (lineOf style)) = lines before ++ more) :
    Finished before := by
  refine Classical.byContradiction fun hnot => ?_
  obtain ⟨record, rest, rfl⟩ := List.exists_cons_of_ne_nil hne
  obtain ⟨c, t, ht, hc⟩ := exists_lineOf_eq_cons style record
  have hstart : (record :: rest).flatMap (lineOf style) =
      c :: (t ++ rest.flatMap (lineOf style)) := by
    rw [List.flatMap_cons, ht, List.cons_append]
  exact lines_append_ne hnot (finished_flatMap_lineOf style _) hstart hc _ hlines

/-- What is added is one line for each record exactly if the last line was ended and no record is
spread over lines. -/
theorem lines_append_flatMap_iff {before : Text} (hstyle : style.IsPrinted) :
    lines (before ++ records.flatMap (lineOf style)) = lines before ++ records.map (write style) ↔
      records = [] ∨ Finished before ∧
        (style.indent = none ∨ ∀ record ∈ records, record.hasItems = false) := by
  constructor
  · intro hlines
    by_cases hne : records = []
    · exact .inl hne
    · have hfinished := finished_of_lines_append hne hlines
      rw [hfinished.lines_append (flatMap_lineOf_ne style _)] at hlines
      have hlength := congrArg List.length (List.append_cancel_left hlines)
      rw [List.length_map] at hlength
      have hlineFeed := not_mem_of_length_lines hlength
      refine .inr ⟨hfinished, ?_⟩
      by_cases hindent : style.indent = none
      · exact .inl hindent
      · exact .inr fun record hrecord => Bool.eq_false_iff.2 fun hitems =>
          hlineFeed record hrecord ((mem_write_iff hstyle).2 ⟨hindent, hitems⟩)
  · rintro (rfl | ⟨hfinished, hline⟩)
    · show lines (before ++ []) = lines before ++ []
      rw [List.append_nil, List.append_nil]
    · have hprinted : ∀ record ∈ records, IsPrinted (record.write style) := by
        refine fun record hrecord => isPrinted_write hstyle fun ⟨hindent, hitems⟩ => ?_
        rcases hline with hnone | hnoItems
        · exact hindent hnone
        · rw [hnoItems record hrecord] at hitems
          cases hitems
      rw [hfinished.lines_append (flatMap_lineOf_ne style _), lines_flatMap_lineOf hprinted]

example : (lines (lineOf (styleOf (.obj [("indent".toList, .int 2)]))
    (.obj [(['a'], .int 1), (['b'], .int 2)]))).length = 4 := by decide

end

/-! ### Writing one record after the other -/

section
variable {options : Json} (h : options.member? "separators".toList = none)
include h

theorem layoutOf_eq : layoutOf options =
    (indentOf (options.member? "indent".toList)).map fun indent => (([','], [':']), indent) := by
  rw [layoutOf, h]
  cases indentOf (options.member? "indent".toList) <;> rfl

/-- Options that leave the separators alone keep them on the line. -/
theorem isPrinted_styleOf : (styleOf options).IsPrinted := by
  have hseparators : (styleOf options).itemSeparator = [','] ∧
      (styleOf options).keySeparator = [':'] := by
    rw [styleOf, layoutOf_eq h]
    cases indentOf (options.member? "indent".toList) <;> exact ⟨rfl, rfl⟩
  obtain ⟨hitem, hkey⟩ := hseparators
  exact ⟨by simp [hitem], by simp [hkey]⟩

/-- They are at fault only if the indentation is. -/
theorem fault_styleOf {indent : Option Text}
    (hindent : indentOf (options.member? "indent".toList) = .ok indent) :
    (styleOf options).fault = none := by
  rw [styleOf, layoutOf_eq h, hindent]
  rfl

end

theorem Writer.read_addAll {w : Writer} {fs : Files} {path : Path} {before : Text}
    (h : fs.read path = .ok before) (hplace : w.place = path.target) (records : List Json) :
    (w.addAll fs records).read path = .ok (before ++ records.flatMap (lineOf w.style)) := by
  induction records generalizing fs before with
  | nil =>
    rw [List.flatMap_nil, List.append_nil]
    exact h
  | cons record records ih =>
    have hfirst := Files.read_append h (lineOf w.style record)
    rw [← hplace] at hfirst
    rw [List.flatMap_cons, ← List.append_assoc]
    exact ih hfirst

namespace Desk

/-- What an action writes: its records, if it succeeds. -/
def written (d : Desk) (action : Action) : List Json :=
  match (d.perform action).1 with
  | .ok _ => action.records
  | .error _ => []

/-- What a list of actions writes, in their order. -/
def recorded : Desk → List Action → List Json
  | _, [] => []
  | d, action :: rest => d.written action ++ recorded (d.perform action).2 rest

/-- With an open writer every record that can be written in its style is, one after the other. -/
theorem run_writes {d : Desk} {w : Writer} (hw : d.writer = some w) (hopen : w.closed = false)
    (records : List Json) :
    let done := records.filter fun record => (w.style.faultOn record).isNone
    d.run (records.map .write) = {d with files := w.addAll d.files done} ∧
      d.recorded (records.map .write) = done := by
  induction records generalizing d with
  | nil => exact ⟨rfl, rfl⟩
  | cons record records ih =>
    show (d.perform (.write record)).2.run (records.map .write) = _ ∧
      d.written (.write record) ++ (d.perform (.write record)).2.recorded (records.map .write) = _
    cases hfault : w.style.faultOn record with
    | none =>
      have hperform : d.perform (.write record) =
          (.ok 1, {d with files := w.addAll d.files [record]}) := by
        simp only [perform, withWriter, hw, writeWith, Writer.write_of_open hopen hfault]
      obtain ⟨hrun, hrecorded⟩ := @ih {d with files := w.addAll d.files [record]} hw
      rw [List.filter_cons_of_pos (by rw [hfault]; rfl), written, hperform]
      exact ⟨hrun, congrArg (record :: ·) hrecorded⟩
    | some fault =>
      have hperform : d.perform (.write record) =
          (.error (.write (.notMapping (.style fault))), d) := by
        simp only [perform, withWriter, hw, writeWith, Writer.write_of_fault hopen hfault]
        rw [← hw]
      obtain ⟨hrun, hrecorded⟩ := ih hw
      rw [List.filter_cons_of_neg (by rw [hfault]; exact Bool.false_ne_true), written, hperform]
      exact ⟨hrun, hrecorded⟩

/-- Records are written to a file that is opened with any options but separators: all of them, if
the indentation is of the right kind. The lines are the ones from before and one for each record
exactly if nothing is written, or the last line was ended and no record is spread over lines. -/
theorem lines_are_added_iff {fs : Files} {path : Path} {before : Text}
    (h : fs.read path = .ok before) {options : Json}
    (hoptions : options.member? "separators".toList = none) (records : List Json) :
    let style := styleOf options
    let actions := .openFile path style :: records.map .write
    let done := records.filter fun record => (style.faultOn record).isNone
    ((∃ indent, indentOf (options.member? "indent".toList) = .ok indent) → done = records) ∧
    (start fs).recorded actions = done ∧
    ∃ after, ((start fs).run actions).files.read path = .ok after ∧
      after = before ++ done.flatMap (lineOf style) ∧
      (lines after = lines before ++ done.map (write style) ↔
        done = [] ∨ Finished before ∧
          (style.indent = none ∨ ∀ record ∈ done, record.hasItems = false)) := by
  intro style actions done
  have hopened := perform_openFile (d := start fs) h style
  obtain ⟨hrun, hrecorded⟩ := run_writes
    (d := (start fs).take ⟨path, path.target, style, false⟩ fs []) rfl rfl records
  refine ⟨fun ⟨indent, hindent⟩ => ?_, ?_, _, ?_, rfl,
    lines_append_flatMap_iff (isPrinted_styleOf hoptions)⟩
  · refine List.filter_eq_self.2 fun record _ => ?_
    rw [faultOn_of_none (fault_styleOf hoptions hindent)]
    rfl
  · show (start fs).written (.openFile path style) ++
      ((start fs).perform (.openFile path style)).2.recorded (records.map .write) = done
    rw [written, hopened]
    exact hrecorded
  · show (((start fs).perform (.openFile path style)).2.run (records.map .write)).files.read path =
      .ok _
    rw [hopened]
    show (((start fs).take _ fs []).run (records.map .write)).files.read path = _
    rw [hrun]
    exact Writer.read_addAll (w := ⟨path, path.target, style, false⟩) h rfl done

theorem lines_are_added_iff_sorted :
    let path : Path := ⟨[], [['f']]⟩
    let fs : Files := ⟨[([['f']], .file ['a', '\r'])]⟩
    let options : Json := .obj [("sort_keys".toList, .bool true)]
    let records : List Json := [.obj [(['b'], .int 1), (['a'], .str ['\n'])], .obj []]
    let actions := .openFile path (styleOf options) :: records.map .write
    fs.read path = .ok ['a', '\r'] ∧ options.member? "separators".toList = none ∧
      ∃ after, ((start fs).run actions).files.read path = .ok after ∧
        lines after = ['a'] :: records.map (write (styleOf options)) := by
  intro path fs options records actions
  have hread : fs.read path = .ok ['a', '\r'] := rfl
  have hoptions : options.member? "separators".toList = none := rfl
  obtain ⟨-, -, after, hafter, -, hlines⟩ := lines_are_added_iff hread hoptions records
  have hfinished : Finished ['a', '\r'] := .inr ⟨['a'], '\r', rfl, .inr rfl⟩
  exact ⟨hread, hoptions, after, hafter, hlines.2 (.inr ⟨hfinished, .inl rfl⟩)⟩

/-- A record is written on the line that was begun and not ended. -/
theorem begun_line_is_continued :
    let path : Path := ⟨[], [['f']]⟩
    let before : Text := write compactStyle (.obj [("old".toList, .bool true)])
    let fs : Files := ⟨[([['f']], .file before)]⟩
    let record : Json := .obj [("new".toList, .bool true)]
    let d := (start fs).run [.openFile path compactStyle, .write record]
    fs.read path = .ok before ∧
      d.files.read path = .ok (before ++ write compactStyle record ++ ['\n']) ∧
      lines (before ++ write compactStyle record ++ ['\n']) ≠
        lines before ++ [write compactStyle record] :=
  ⟨rfl, rfl, by decide⟩

end Desk
end LogicTrainer.History
