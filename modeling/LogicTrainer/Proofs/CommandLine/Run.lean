import LogicTrainer.CommandLine.Run
import LogicTrainer.Proofs.CommandLine.Agreement
import LogicTrainer.Proofs.History.Lines
import LogicTrainer.Proofs.Random.Draws
import LogicTrainer.Proofs.Reduction.Dependence

/-! Runs of the program.

A run goes through its arguments, its settings and its log level in this order, and carries out
the request only after all three (`run_eq_ok_iff`). A request about a formula leaves zero or one,
by whether the formula is read on the stack at hand (`status_carryOut`), and of the pairs it is
given only those of its variables matter (`carryOut_congr`). Of problems as many are
printed as are asked for (`carryOut_generate`). Only a reduction adds to a history file, and what it
adds are the states that it prints (`reduction_is_kept`). -/
namespace LogicTrainer.CommandLine
open Formula History

variable {stack : Nat} {settings : Settings} {otherSeed : Int}

/-! ### Stages of a run -/

/-- The level that messages are logged from. -/
def levelOf (invocation : Invocation) (settings : Settings) : Text :=
  (firstFilled invocation.logLevel settings.logLevel).upper

section
variable {arguments : List Text} {load : Except SettingsError Settings} {invocation : Invocation}

theorem run_of_refused {refusal : Refusal} (h : Invocation.read arguments = .error refusal) :
    run arguments load otherSeed stack = .error (.refused refusal) := by
  rw [run, h]
  rfl

theorem run_of_settings_error (h : Invocation.read arguments = .ok invocation) {e : SettingsError} :
    run arguments (.error e) otherSeed stack = .error (.settings e) := by
  rw [run, h]
  rfl

theorem run_of_ok (h : Invocation.read arguments = .ok invocation) :
    run arguments (.ok settings) otherSeed stack =
      if levelOf invocation settings ∈ levelNames then
        carryOut stack settings otherSeed invocation.request
      else .error (.unknownLevel (levelOf invocation settings)) := by
  rw [run, h]
  show (if !levelNames.contains (levelOf invocation settings) then _ else _) = _
  by_cases hlevel : levelOf invocation settings ∈ levelNames
  · rw [if_pos hlevel, if_neg (by simpa using hlevel)]
  · rw [if_neg hlevel, if_pos (by simpa using hlevel)]
    rfl

/-- A run has an outcome if arguments, settings and log level are in order, and the one of its
request. -/
theorem run_eq_ok_iff {outcome : Outcome} :
    run arguments load otherSeed stack = .ok outcome ↔
      ∃ invocation settings, Invocation.read arguments = .ok invocation ∧ load = .ok settings ∧
        levelOf invocation settings ∈ levelNames ∧
        carryOut stack settings otherSeed invocation.request = .ok outcome := by
  constructor
  · intro h
    cases hread : Invocation.read arguments with
    | error refusal =>
      rw [run_of_refused hread] at h
      cases h
    | ok invocation =>
      cases load with
      | error e =>
        rw [run_of_settings_error hread] at h
        cases h
      | ok settings =>
        rw [run_of_ok hread] at h
        split at h
        · next hlevel => exact ⟨invocation, settings, rfl, rfl, hlevel, h⟩
        · cases h
  · rintro ⟨invocation, settings, hread, rfl, hlevel, hcarried⟩
    rw [run_of_ok hread, if_pos hlevel, hcarried]

end

/-! ### Formulas -/

/-- The formula that a request is about. -/
def Request.formula? : Request → Option Text
  | .canon formula | .eval formula _ | .table formula | .reduce formula _ _ => some formula
  | .generate .. => none

/-- A request about a formula is always carried out, and prints what its command does. -/
theorem exists_report {request : Request} {formula : Text}
    (h : request.formula? = some formula) :
    let maxDepth := allowedDepth stack settings.maxParseDepth
    ∃ outcome pairs, carryOut stack settings otherSeed request = .ok outcome ∧
      outcome.report ∈ [canon maxDepth formula, eval maxDepth formula pairs, table maxDepth formula,
        reduce maxDepth formula pairs] := by
  intro maxDepth
  cases request with
  | canon =>
    cases h
    refine ⟨.ofReport (canon maxDepth formula), [], by rw [carryOut], ?_⟩
    simp only [Outcome.ofReport, List.mem_cons, true_or]
  | eval _ pairs =>
    cases h
    refine ⟨.ofReport (eval maxDepth formula pairs), pairs, by rw [carryOut], ?_⟩
    simp only [Outcome.ofReport, List.mem_cons, true_or, or_true]
  | table =>
    cases h
    refine ⟨.ofReport (table maxDepth formula), [], by rw [carryOut], ?_⟩
    simp only [Outcome.ofReport, List.mem_cons, true_or, or_true]
  | reduce _ pairs historyLog =>
    cases h
    rw [carryOut]
    split
    · refine ⟨.ofReport (reduce maxDepth formula pairs), pairs, rfl, ?_⟩
      simp only [Outcome.ofReport, List.mem_cons, true_or, or_true]
    · refine ⟨⟨reduce maxDepth formula pairs, _, _, _⟩, pairs, rfl, ?_⟩
      simp only [List.mem_cons, true_or, or_true]
  | generate => cases h

/-- It leaves zero if the formula is read on the stack, and one otherwise. -/
theorem status_carryOut {request : Request} {formula : Text}
    (h : request.formula? = some formula) :
    ∃ outcome, carryOut stack settings otherSeed request = .ok outcome ∧
      match parseOn stack settings.maxParseDepth (Token.ofFormula formula) with
      | .ok _ => outcome.report.status = 0
      | .error _ => outcome.report.status = 1 := by
  obtain ⟨outcome, pairs, hcarried, hreport⟩ :=
    @exists_report stack settings otherSeed request formula h
  refine ⟨outcome, hcarried, ?_⟩
  rw [parseOn_eq_parse]
  cases hread : Formula.parse (allowedDepth stack settings.maxParseDepth)
      (Token.ofFormula formula) with
  | error e => exact status_of_mem hreport (status_of_error hread pairs)
  | ok f => exact status_of_mem hreport (status_of_ofText hread pairs)

/-- The strict form that is found on the stack is what is printed first. -/
theorem carryOut_canon {formula form : Text}
    (h : (Grouping.classifyOn stack settings.maxParseDepth formula).canonical = some form) :
    ∃ remark, carryOut stack settings otherSeed (.canon formula) =
      .ok (.ofReport ⟨[form, remark], 0⟩) := by
  rw [Grouping.classifyOn_eq_classify] at h
  rw [carryOut, canon, h]
  exact ⟨_, rfl⟩

/-- Pairs that give the same values to the variables make no difference, neither to what is
printed nor to what is kept. -/
theorem carryOut_congr {formula : Text} {f : Formula}
    (hf : parseOn stack settings.maxParseDepth (Token.ofFormula formula) = .ok f)
    {pairs others : List Pair} (h : ∀ v ∈ Token.variables (Token.ofFormula formula),
      (assignmentOf pairs).value v = (assignmentOf others).value v) :
    carryOut stack settings otherSeed (.eval formula pairs) =
        carryOut stack settings otherSeed (.eval formula others) ∧
      ∀ historyLog, carryOut stack settings otherSeed (.reduce formula pairs historyLog) =
        carryOut stack settings otherSeed (.reduce formula others historyLog) := by
  rw [parseOn_eq_parse] at hf
  have hread : Formula.ofText (allowedDepth stack settings.maxParseDepth) formula = .ok f := hf
  have hsame : Reduction.Session.SameRuns (allowedDepth stack settings.maxParseDepth) formula
      (assignmentOf pairs).loosen (assignmentOf others).loosen := by
    refine Reduction.Session.sameRuns_of_agree hread fun v hv => ?_
    rw [(isNormal_assignmentOf pairs).normalize_loosen,
      (isNormal_assignmentOf others).normalize_loosen]
    exact h v hv
  have hvalue := hsame.value
  rw [evaluateText_of_ofText hread, evaluateText_of_ofText hread] at hvalue
  refine ⟨by simp only [carryOut, eval, hread, evaluate, hvalue], fun historyLog => ?_⟩
  have hhistory : (Reduction.Session.start formula (assignmentOf pairs).loosen
        (allowedDepth stack settings.maxParseDepth)).solve.2.history =
      (Reduction.Session.start formula (assignmentOf others).loosen
        (allowedDepth stack settings.maxParseDepth)).solve.2.history := hsame.history [.solve]
  simp only [carryOut, reduce, reduction?, hread, Reduction.Session.records, hhistory]

/-! ### Problems -/

/-- One line is printed for each problem. -/
theorem length_problemLines {σ : Type} {src : Source σ} {bounds : Problem.Bounds}
    {kind : ProblemKind} {count : Nat} {lines : List Text}
    (h : Draw.Yields (problemLines src bounds kind count) lines) : lines.length = count := by
  induction count generalizing lines with
  | zero =>
    rw [h.eq_of_pure]
    rfl
  | succ count ih =>
    obtain ⟨line, -, hrest⟩ := h.exists_of_bind
    obtain ⟨rest, hlines, hall⟩ := hrest.exists_of_bind
    rw [hall.eq_of_pure, List.length_cons, ih hlines]

/-- As many problems are printed as are asked for, unless there is nothing to draw from. -/
theorem carryOut_generate (kind : ProblemKind) (count : Int) (seed : Option Int) :
    match carryOut stack settings otherSeed (.generate kind count seed) with
    | .ok outcome => outcome.report.status = 0 ∧ outcome.report.lines.length = count.toNat
    | .error e => ∃ cause, e = .draw cause := by
  rw [carryOut, generate]
  cases hdrawn : (problemLines Twister.source settings.bounds kind count.toNat).run
      (.ofSeed (seed.getD (settings.seed.getD otherSeed))) with
  | error cause => exact ⟨cause, rfl⟩
  | ok drawn => exact ⟨rfl, length_problemLines ⟨_, _, hdrawn⟩⟩

/-! ### History files -/

theorem sessionRecords_objects (session formula : Text) (records : List (Entries Json)) :
    sessionRecords session formula (records.map .obj) = records.map (tagged session formula) := by
  induction records with
  | nil => rfl
  | cons record records ih => exact congrArg (tagged session formula record :: ·) ih

namespace Outcome
variable {o : Outcome} {fs opened : Files} {path : Path} {text : Text} (session : Text)

theorem addition_eq (o : Outcome) : o.addition session =
    (o.records.map (tagged session o.formula)).flatMap (lineOf Json.compactStyle) := by
  rw [addition, List.flatMap_map]

/-- A run without a history file leaves all files as they are. -/
theorem save_of_none (h : o.path = none) (fs : Files) : o.save session fs = .ok fs := by
  rw [save, h]

/-- What is saved is added with a writer that is new. -/
theorem save_of_openAt (hpath : o.path = some path)
    (hopened : Writer.openAt fs path Json.compactStyle =
      .ok (⟨path, path.target, Json.compactStyle, false⟩, opened)) :
    o.save session fs = .ok (Writer.addAll ⟨path, path.target, Json.compactStyle, false⟩ opened
      (o.records.map (tagged session o.formula))) := by
  have hobjects : ∀ step ∈ o.records.map Json.obj, ∃ members, step = .obj members := by
    intro step hstep
    obtain ⟨record, -, rfl⟩ := List.mem_map.1 hstep
    exact ⟨record, rfl⟩
  rw [save, hpath]
  show (Writer.openAt fs path Json.compactStyle).bind _ = _
  rw [hopened]
  show Except.ok (Writer.writeSession _ session o.formula (o.records.map Json.obj) opened 0).2 = _
  rw [Writer.writeSession_of_open rfl rfl session o.formula hobjects, sessionRecords_objects]

/-- The lines of a run stand at the end of a file that is there. -/
theorem save_of_read (hpath : o.path = some path) (h : fs.read path = .ok text) :
    ∃ fs', o.save session fs = .ok fs' ∧ fs'.read path = .ok (text ++ o.addition session) := by
  refine ⟨_, save_of_openAt session hpath (openAt_of_read h _), ?_⟩
  rw [addition_eq]
  exact Writer.read_addAll h rfl _

/-- Where there is no file, one is made that holds nothing else. -/
theorem save_of_admits (hpath : o.path = some path) (h : fs.Admits path)
    (habsent : fs.node? path.target = none) :
    ∃ fs', o.save session fs = .ok fs' ∧ fs'.read path = .ok (o.addition session) := by
  obtain ⟨opened, hopened⟩ := exists_openAt h Json.compactStyle
  refine ⟨_, save_of_openAt session hpath hopened, ?_⟩
  rw [addition_eq]
  exact Writer.read_addAll (read_of_openAt hopened habsent).2 rfl _

end Outcome

/-! ### Reductions -/

theorem isRecord_record (s : Reduction.Step) : IsRecord (.obj s.record) := by
  refine ⟨.obj (by simp [Reduction.Step.record, Entries.keys]) fun entry hentry => ?_, _, rfl⟩
  simp only [Reduction.Step.record, List.mem_cons, List.not_mem_nil, or_false] at hentry
  rcases hentry with rfl | rfl | rfl
  · exact .int s.index
  · exact .str s.kind.code
  · exact .str s.content

/-- A reduction prints one line for each record that it keeps, and the last of them shows the
value of the formula. -/
theorem carryOut_reduce {formula : Text} {f : Formula}
    (hf : parseOn stack settings.maxParseDepth (Token.ofFormula formula) = .ok f)
    (pairs : List Pair) (historyLog : Option Text) :
    ∃ s : Reduction.Session, carryOut stack settings otherSeed (.reduce formula pairs historyLog) =
        .ok ⟨⟨s.history.map stepLine, 0⟩, historyPath historyLog settings, formula, s.records⟩ ∧
      s.current.content = Atom.bit (f.value (assignmentOf pairs).value) := by
  rw [parseOn_eq_parse] at hf
  obtain ⟨s, hs, hcontent⟩ := exists_reduction hf pairs
  refine ⟨s, ?_, hcontent⟩
  rw [carryOut, hs, reduce, hs]

/-- The file that a reduction is kept in holds, behind the records from before, one for each state
of the session. -/
theorem reduction_is_kept {formula : Text} {f : Formula}
    (hf : parseOn stack settings.maxParseDepth (Token.ofFormula formula) = .ok f)
    (pairs : List Pair) (historyLog : Option Text) :
    ∃ (s : Reduction.Session) (outcome : Outcome),
      carryOut stack settings otherSeed (.reduce formula pairs historyLog) = .ok outcome ∧
      outcome.report.lines = s.history.map stepLine ∧
      outcome.path = historyPath historyLog settings ∧
      ∀ path ∈ outcome.path, ∀ fs before, Holds fs path before → ∀ session,
        ∃ fs', outcome.save session fs = .ok fs' ∧
          Holds fs' path (before ++ s.history.map fun step => tagged session formula step.record) := by
  obtain ⟨s, hcarried, -⟩ := @carryOut_reduce stack settings otherSeed formula f hf pairs historyLog
  refine ⟨s, _, hcarried, rfl, rfl, fun path hpath fs before hholds session => ?_⟩
  obtain ⟨text, hread, -⟩ := id hholds
  refine ⟨_, Outcome.save_of_openAt session hpath (openAt_of_read hread _), ?_⟩
  rw [Reduction.Session.records, List.map_map]
  refine Writer.holds_addAll hholds rfl (show _ = Json.lineStyle false from rfl) fun record hrecord => ?_
  obtain ⟨step, -, rfl⟩ := List.mem_map.1 hrecord
  exact (isRecord_tagged session formula (isRecord_record step).1).1

/-- Nothing but a reduction is kept. -/
theorem path_of_carryOut {request : Request} {outcome : Outcome}
    (hcarried : carryOut stack settings otherSeed request = .ok outcome)
    (h : ∀ formula pairs historyLog, request ≠ .reduce formula pairs historyLog) :
    outcome.path = none ∧ outcome.records = [] := by
  cases request with
  | reduce formula pairs historyLog => exact absurd rfl (h formula pairs historyLog)
  | canon | eval | table =>
    rw [carryOut] at hcarried
    obtain rfl := Except.ok.inj hcarried
    exact ⟨rfl, rfl⟩
  | generate kind count seed =>
    rw [carryOut] at hcarried
    split at hcarried
    · obtain rfl := Except.ok.inj hcarried
      exact ⟨rfl, rfl⟩
    · cases hcarried

end LogicTrainer.CommandLine
