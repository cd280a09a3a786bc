import LogicTrainer.History.Desk
import LogicTrainer.Proofs.History.Records

/-! What actions do to a history file.

What an action does is said once for each state of the writer: with an open one, everything it
has to write goes to the end of the file (`perform_of_open`), with a closed one the desk stays as
it is (`perform_of_closed`). Opening brings an open writer into use (`perform_openFile`), and never
changes what can be read. -/
namespace LogicTrainer.History
open Text Json

/-! ### Opening -/

section
variable {fs fs' : Files} {path : Path} {w : Writer}

theorem openAt_eq (fs : Files) (path : Path) (style : Style) : Writer.openAt fs path style =
    (fs.makeDirectory path.parent).bind fun fs =>
      (fs.touch path).bind fun (place, fs) => .ok (⟨path, place, style, false⟩, fs) := rfl

/-- A file that can be read is opened as it is. -/
theorem openAt_of_read {text : Text} (h : fs.read path = .ok text) (style : Style) :
    Writer.openAt fs path style = .ok (⟨path, path.target, style, false⟩, fs) := by
  rw [openAt_eq, Files.makeDirectory_of_read h]
  show (fs.touch path).bind _ = _
  rw [Files.touch_of_read h]
  rfl

/-- A file that is opened where there was none is empty. -/
theorem read_of_openAt {style : Style} (h : Writer.openAt fs path style = .ok (w, fs'))
    (habsent : fs.node? path.target = none) :
    w = ⟨path, path.target, style, false⟩ ∧ fs'.read path = .ok [] := by
  rw [openAt_eq] at h
  cases hmade : fs.makeDirectory path.parent with
  | error e =>
    rw [hmade] at h
    cases h
  | ok made =>
    rw [hmade] at h
    change (made.touch path).bind _ = _ at h
    cases htouch : made.touch path with
    | error e =>
      rw [htouch] at h
      cases h
    | ok touched =>
      obtain ⟨place, files⟩ := touched
      rw [htouch] at h
      cases h
      obtain ⟨rfl, text, hread, hthere | ⟨-, rfl⟩⟩ := Files.read_of_touch htouch
      · have := (Files.Grows.of_makeDirectory hmade).adds _ _ hthere
        rw [habsent] at this
        cases this
      · exact ⟨rfl, hread⟩

/-- Where a file can be made, it can be opened. -/
theorem exists_openAt (h : fs.Admits path) (style : Style) :
    ∃ fs', Writer.openAt fs path style = .ok (⟨path, path.target, style, false⟩, fs') := by
  obtain ⟨made, hmade, hlocate, hlast⟩ := h.exists_makeDirectory
  obtain ⟨fs', htouch⟩ : ∃ fs', made.touch path = .ok (path.target, fs') := by
    cases hnode : made.node? path.target with
    | none => exact ⟨_, Files.touch_of_absent hlocate hnode⟩
    | some node =>
      cases node with
      | file text => exact ⟨_, Files.touch_of_read (Files.read_eq_ok_iff.2 ⟨hlocate, hnode⟩)⟩
      | directory => exact absurd hnode hlast
  refine ⟨fs', ?_⟩
  rw [openAt_eq, hmade]
  show (made.touch path).bind _ = _
  rw [htouch]
  rfl

/-- A file can be opened at a path. -/
def Opens (fs : Files) (path : Path) : Prop :=
  ∃ style opened, Writer.openAt fs path style = .ok opened

theorem Opens.exists_openAt (h : Opens fs path) (style : Style) :
    ∃ opened, Writer.openAt fs path style = .ok opened := by
  obtain ⟨other, opened, hopened⟩ := h
  rw [openAt_eq] at hopened ⊢
  cases hmade : fs.makeDirectory path.parent with
  | error e =>
    rw [hmade] at hopened
    cases hopened
  | ok made =>
    rw [hmade] at hopened
    change (made.touch path).bind _ = _ at hopened
    show ∃ opened, (made.touch path).bind _ = .ok opened
    cases htouch : made.touch path with
    | error e =>
      rw [htouch] at hopened
      cases hopened
    | ok touched => exact ⟨_, rfl⟩

end

/-! ### Writing -/

/-- In a style that is not at fault everything can be written. -/
theorem faultOn_of_none {style : Style} (h : style.fault = none) (record : Json) :
    style.faultOn record = none := by
  cases record <;> simp [Style.faultOn, h]

namespace Writer

/-- A writer that was not closed. -/
def isOpen (w : Writer) : Bool := !w.closed

theorem closed_eq (w : Writer) : w.closed = !w.isOpen := (Bool.not_not _).symm

/-- The files after a writer has added records to its own. -/
def addAll (w : Writer) (fs : Files) (records : List Json) : Files :=
  records.foldl (fun fs record => fs.append w.place (lineOf w.style record)) fs

theorem write_of_open {w : Writer} (h : w.closed = false) {record : Json}
    (hfault : w.style.faultOn record = none) (fs : Files) :
    w.write fs record = .ok (w.addAll fs [record]) := by
  rw [write, h, hfault]
  rfl

theorem write_of_fault {w : Writer} (h : w.closed = false) {record : Json} {fault : StyleFault}
    (hfault : w.style.faultOn record = some fault) (fs : Files) :
    w.write fs record = .error (.notMapping (.style fault)) := by
  rw [write, h, hfault]
  rfl

theorem write_of_closed {w : Writer} (h : w.closed = true) (fs : Files) (record : Json) :
    w.write fs record = .error .closed := by
  rw [write, h]
  rfl

theorem close_of_closed {w : Writer} (h : w.closed = true) : w.close = w := by
  rw [close, ← h]

/-- All steps of a session are written, if each of them is an object. -/
theorem writeSession_of_open {w : Writer} (h : w.closed = false) (hfault : w.style.fault = none)
    (session formula : Text) {steps : List Json}
    (hsteps : ∀ step ∈ steps, ∃ members, step = .obj members) (fs : Files) (count : Nat) :
    w.writeSession session formula steps fs count =
      (.ok (count + (sessionRecords session formula steps).length),
        w.addAll fs (sessionRecords session formula steps)) := by
  induction steps generalizing fs count with
  | nil => rfl
  | cons step steps ih =>
    obtain ⟨members, rfl⟩ := hsteps step List.mem_cons_self
    rw [writeSession, write_of_open h (faultOn_of_none hfault _)]
    show w.writeSession session formula steps _ (count + 1) = _
    rw [ih (fun step hstep => hsteps step (List.mem_cons_of_mem _ hstep)), sessionRecords,
      List.length_cons, Nat.add_assoc, Nat.add_comm 1]
    rfl

/-- The file of a writer holds what is added to it. -/
theorem holds_addAll {w : Writer} {fs : Files} {path : Path} {before : List Json}
    (h : Holds fs path before) (hplace : w.place = path.target) {ascii : Bool}
    (hstyle : w.style = lineStyle ascii) {records : List Json}
    (hrecords : ∀ record ∈ records, record.IsPlain) :
    Holds (w.addAll fs records) path (before ++ records) := by
  induction records generalizing fs before with
  | nil =>
    rw [List.append_nil]
    exact h
  | cons record records ih =>
    have hfirst := h.append (hrecords record List.mem_cons_self) ascii
    rw [← hplace, ← hstyle] at hfirst
    have hrest := ih hfirst fun record hrecord => hrecords record (List.mem_cons_of_mem _ hrecord)
    rw [List.append_assoc] at hrest
    exact hrest

end Writer

/-! ### Actions -/

namespace Action

/-- The records that an action is to write. -/
def records : Action → List Json
  | .write record | .writeLast record => [record]
  | .writeSession session formula steps => sessionRecords session formula steps
  | .openFile .. | .turnTo _ | .close => []

/-- An action that keeps a history at a path: what is opened is the file there, with the default
options or with characters outside ASCII escaped or not, and what is written are records. -/
def KeepsHistory (path : Path) : Action → Prop
  | .openFile p style => p = path ∧
      (style = compactStyle ∨
        ∃ ascii, style = styleOf (.obj [("ensure_ascii".toList, .bool ascii)]))
  | .write record | .writeLast record => IsRecord record
  | .writeSession _ _ steps => ∀ step ∈ steps, IsRecord step
  | .turnTo _ | .close => True

/-- An action with the writer in use. -/
def usesWriter : Action → Bool
  | .openFile .. | .turnTo _ => false
  | _ => true

/-- An action that closes the writer in use. -/
def closes : Action → Bool
  | .writeLast _ | .close => true
  | _ => false

variable {path : Path}

theorem KeepsHistory.exists_lineStyle {p : Path} {style : Style}
    (h : (openFile p style).KeepsHistory path) : ∃ ascii, style = lineStyle ascii := by
  obtain ⟨-, rfl | ⟨ascii, rfl⟩⟩ := h
  · exact ⟨false, rfl⟩
  · exact ⟨ascii, styleOf_ensureAscii ascii⟩

theorem KeepsHistory.isPlain {action : Action} (h : action.KeepsHistory path) :
    ∀ record ∈ action.records, record.IsPlain := by
  intro record hrecord
  cases action with
  | openFile | turnTo | close => cases hrecord
  | write written | writeLast written =>
    obtain rfl := List.mem_singleton.1 hrecord
    exact h.1
  | writeSession session formula steps => exact (isRecord_of_mem_sessionRecords h hrecord).1

end Action

namespace Desk

/-- A desk with files and no writer yet. -/
def start (fs : Files) : Desk := ⟨fs, none, []⟩

def writers (d : Desk) : List Writer := d.writer.toList ++ d.aside

theorem writers_take (d : Desk) (w : Writer) (files : Files) (aside : List Writer) :
    (d.take w files aside).writers = w :: (d.writer.toList ++ aside) := rfl

section
variable {d : Desk} {w : Writer} {path : Path} {action : Action}

/-- With an open writer everything is written. -/
theorem perform_of_open (hw : d.writer = some w) (hopen : w.closed = false)
    (hfault : w.style.fault = none) (h : action.KeepsHistory path)
    (huses : action.usesWriter = true) :
    d.perform action = (.ok action.records.length,
      {d with files := w.addAll d.files action.records
              writer := some (if action.closes then w.close else w)}) := by
  have hwrite := fun record => Writer.write_of_open hopen (faultOn_of_none hfault record)
  cases action with
  | openFile | turnTo => cases huses
  | write record | writeLast record =>
    simp only [perform, withWriter, hw, writeWith, hwrite]
    rfl
  | writeSession session formula steps =>
    simp only [perform, withWriter, hw, Writer.writeSession_of_open hopen hfault session formula
      fun step hstep => (h step hstep).2]
    rw [Nat.zero_add]
    rfl
  | close =>
    simp only [perform, withWriter, hw]
    rfl

/-- With a closed writer nothing changes, and having something to write is an error. -/
theorem perform_of_closed (hw : d.writer = some w) (hclosed : w.closed = true)
    (h : action.KeepsHistory path) (huses : action.usesWriter = true) :
    d.perform action =
      (if action.records = [] then .ok 0 else .error (.write .closed), d) := by
  have hd : {d with writer := some w} = d := by rw [← hw]
  cases action with
  | openFile | turnTo => cases huses
  | write record =>
    simp only [perform, withWriter, hw, writeWith, Writer.write_of_closed hclosed, hd]
    rfl
  | writeLast record =>
    simp only [perform, withWriter, hw, writeWith, Writer.write_of_closed hclosed,
      Writer.close_of_closed hclosed, hd]
    rfl
  | writeSession session formula steps =>
    cases steps with
    | nil =>
      simp only [perform, withWriter, hw, Writer.writeSession, hd]
      rfl
    | cons step steps =>
      obtain ⟨-, members, rfl⟩ := h step List.mem_cons_self
      simp only [perform, withWriter, hw, Writer.writeSession, Writer.write_of_closed hclosed, hd]
      rfl
  | close =>
    simp only [perform, withWriter, hw, Writer.close_of_closed hclosed, hd]
    rfl

theorem perform_of_none (hw : d.writer = none) (huses : action.usesWriter = true) :
    d.perform action = (.error .noWriter, d) := by
  cases action with
  | openFile | turnTo => cases huses
  | write | writeLast | writeSession | close => simp only [perform, withWriter, hw]

/-- A file that can be read is opened, and stays as it is. -/
theorem perform_openFile {text : Text} (h : d.files.read path = .ok text) (style : Style) :
    d.perform (.openFile path style) =
      (.ok 0, d.take ⟨path, path.target, style, false⟩ d.files d.aside) := by
  simp only [perform, openAt_of_read h]

end

end Desk
end LogicTrainer.History
