import LogicTrainer.Settings.Document
import LogicTrainer.Proofs.Except
import LogicTrainer.Proofs.Storage.Files
import LogicTrainer.Proofs.Storage.Path
import LogicTrainer.Proofs.Text.Capital
import LogicTrainer.Proofs.Yaml.Reader

/-! What settings can be made.

Settings that are read have their texts in capitals and a path that a text spells
(`isMade_of_ofJson`), and all such settings can be made: written out as a document, they are read
back (`ofJson_document`), also from the text of a file (`load_document`). Nothing but the members that
settings have is looked at (`ofJson_congr`). -/
namespace LogicTrainer.Settings

/-! ### What is read -/

/-- Settings that a document can make: the level of messages and the variables of tables in
capitals, and a path that a text can spell. -/
structure IsMade (s : Settings) : Prop where
  logLevel : s.logLevel.upper = s.logLevel
  historyLog : ∀ p ∈ s.historyLog, p.IsNormal
  tableVariables : ∀ name ∈ s.bounds.tableVariables, name.upper = name

theorem isNormal_of_pathOf {j : Json} {path : Option Path} (h : pathOf j = .ok path) :
    ∀ p ∈ path, p.IsNormal := by
  unfold pathOf at h
  split at h
  · cases h
    exact fun _ hp => by cases hp
  · split at h
    · cases h
      rintro p hp
      obtain rfl := Option.some.inj hp
      exact Path.isNormal_ofText _
    · cases h

theorem upper_of_variablesOf {value : Option Json} {names : List Text}
    (h : variablesOf value = .ok names) : ∀ name ∈ names, name.upper = name := by
  cases value with
  | none =>
    cases h
    decide +kernel
  | some value =>
    obtain ⟨texts, -, rfl⟩ := map_eq_ok.1 h
    intro name hname
    obtain ⟨t, -, rfl⟩ := List.mem_map.1 hname
    exact Text.upper_upper t

theorem upper_of_boundsOf {j : Json} {b : Problem.Bounds} (h : boundsOf j = .ok b) :
    ∀ name ∈ b.tableVariables, name.upper = name := by
  obtain ⟨members, -, h⟩ := bind_eq_ok.1 h
  obtain ⟨syntaxMinTerms, -, h⟩ := bind_eq_ok.1 h
  obtain ⟨syntaxMaxTerms, -, h⟩ := bind_eq_ok.1 h
  obtain ⟨syntaxAttempts, -, h⟩ := bind_eq_ok.1 h
  obtain ⟨evaluationMaxDepth, -, h⟩ := bind_eq_ok.1 h
  obtain ⟨evaluationMinLength, -, h⟩ := bind_eq_ok.1 h
  obtain ⟨tableVariables, hvariables, h⟩ := bind_eq_ok.1 h
  obtain ⟨tableMaxDepth, -, h⟩ := bind_eq_ok.1 h
  obtain ⟨tableMinLength, -, h⟩ := bind_eq_ok.1 h
  obtain ⟨maxAttempts, -, h⟩ := bind_eq_ok.1 h
  cases h
  exact upper_of_variablesOf hvariables

theorem upper_logLevelOf (value : Option Json) : (logLevelOf value).upper = logLevelOf value := by
  cases value with
  | none => decide +kernel
  | some value => exact Text.upper_upper _

theorem isMade_of_ofJson {j : Json} {s : Settings} (h : ofJson j = .ok s) : s.IsMade := by
  obtain ⟨members, -, h⟩ := bind_eq_ok.1 h
  obtain ⟨seed, -, h⟩ := bind_eq_ok.1 h
  obtain ⟨depth, -, h⟩ := bind_eq_ok.1 h
  obtain ⟨path, hpath, h⟩ := bind_eq_ok.1 h
  obtain ⟨bounds, hbounds, h⟩ := bind_eq_ok.1 h
  cases h
  exact ⟨upper_logLevelOf _, isNormal_of_pathOf hpath, upper_of_boundsOf hbounds⟩

/-! ### What can be made -/

/-- The members that set bounds. -/
def boundsMembers (b : Problem.Bounds) : Entries Json :=
  [("syntax_min_terms".toList, .int b.syntaxMinTerms),
    ("syntax_max_terms".toList, .int b.syntaxMaxTerms),
    ("syntax_attempts".toList, .int b.syntaxAttempts),
    ("evaluation_max_depth".toList, .int b.evaluationMaxDepth),
    ("evaluation_min_length".toList, .int b.evaluationMinLength),
    ("table_variables".toList, .arr (b.tableVariables.map .str)),
    ("table_max_depth".toList, .int b.tableMaxDepth),
    ("table_min_length".toList, .int b.tableMinLength),
    ("max_attempts".toList, .int b.maxAttempts)]

/-- The members that make settings. -/
def members (s : Settings) : Entries Json :=
  [("seed".toList, s.seed.elim .null .int), ("max_parse_depth".toList, .int s.maxParseDepth),
    ("log_level".toList, .str s.logLevel),
    ("history_log".toList, s.historyLog.elim .null fun p => .str p.text),
    ("generator".toList, .obj (boundsMembers s.bounds))]

/-- Settings as a mapping that makes them. -/
def document (s : Settings) : Json := .obj s.members

theorem variablesOf_texts {names : List Text} (h : ∀ name ∈ names, name.upper = name) :
    variablesOf (some (.arr (names.map .str))) = .ok names := by
  show Except.ok (((names.map Json.str).map Json.words).map Text.upper) = _
  rw [List.map_map, List.map_map]
  exact congrArg Except.ok ((List.map_congr_left h).trans (List.map_id names))

theorem boundsOf_boundsMembers {b : Problem.Bounds}
    (h : ∀ name ∈ b.tableVariables, name.upper = name) :
    boundsOf (.obj (boundsMembers b)) = .ok b := by
  -- The members, the five numbers before the variables, and the three after them.
  iterate 6 refine bind_eq_ok.2 ⟨_, rfl, ?_⟩
  refine bind_eq_ok.2 ⟨_, variablesOf_texts h, ?_⟩
  iterate 3 refine bind_eq_ok.2 ⟨_, rfl, ?_⟩
  rfl

theorem pathOf_text {path : Option Path} (h : ∀ p ∈ path, p.IsNormal) :
    pathOf (path.elim .null fun p => .str p.text) = .ok path := by
  cases path with
  | none => rfl
  | some p =>
    have hp := h p rfl
    have hne : Json.isTruthy (.str p.text) = true := by
      simpa [Json.isTruthy] using p.text_ne_nil hp
    rw [Option.elim, pathOf, hne]
    show Except.ok (some (Path.ofText p.text)) = _
    rw [Path.ofText_text hp]

/-- Settings that are written out are read back. -/
theorem ofJson_document {s : Settings} (h : s.IsMade) : ofJson s.document = .ok s := by
  have hseed : seedOf (some (s.seed.elim .null .int)) = .ok s.seed := by
    cases s.seed <;> rfl
  have hlevel : logLevelOf (some (.str s.logLevel)) = s.logLevel := h.logLevel
  refine bind_eq_ok.2 ⟨_, rfl, ?_⟩
  refine bind_eq_ok.2 ⟨_, hseed, ?_⟩
  refine bind_eq_ok.2 ⟨_, rfl, ?_⟩
  refine bind_eq_ok.2 ⟨_, pathOf_text h.historyLog, ?_⟩
  refine bind_eq_ok.2 ⟨_, boundsOf_boundsMembers h.tableVariables, ?_⟩
  show Except.ok (Settings.mk s.seed s.maxParseDepth (logLevelOf (some (.str s.logLevel)))
    s.historyLog s.bounds) = _
  rw [hlevel]

/-- The settings that some mapping makes. -/
theorem exists_ofJson_iff {s : Settings} : (∃ j, ofJson j = .ok s) ↔ s.IsMade :=
  ⟨fun ⟨_, h⟩ => isMade_of_ofJson h, fun h => ⟨s.document, ofJson_document h⟩⟩

/-! ### What is looked at -/

/-- The names of the members that settings have. -/
def memberNames : List Text :=
  ["seed", "max_parse_depth", "log_level", "history_log", "generator"].map String.toList

theorem ofJson_obj (members : Entries Json) : ofJson (.obj members) = (do
    let seed ← seedOf (Entries.get? "seed".toList members)
    let maxParseDepth ← number members "max_parse_depth" standard.maxParseDepth
    let historyLog ← pathOf ((Entries.get? "history_log".toList members).getD .null)
    let bounds ← boundsOf ((Entries.get? "generator".toList members).getD (.obj []))
    return ⟨seed, maxParseDepth, logLevelOf (Entries.get? "log_level".toList members), historyLog,
      bounds⟩) := rfl

/-- Two mappings that agree on the members of settings make the same settings, or fail alike. -/
theorem ofJson_congr {members members' : Entries Json}
    (h : ∀ name ∈ memberNames, Entries.get? name members = Entries.get? name members') :
    ofJson (.obj members) = ofJson (.obj members') := by
  simp only [memberNames, List.map_cons, List.map_nil, List.forall_mem_cons] at h
  obtain ⟨hseed, hdepth, hlevel, hlog, hbounds, -⟩ := h
  simp only [ofJson_obj, number, hseed, hdepth, hlevel, hlog, hbounds]

example : ofJson (.obj [("depth".toList, .str ['x'])]) = .ok standard := by rfl

/-! ### Files -/

/-- The texts that settings hold. -/
def texts (s : Settings) : List Text :=
  s.logLevel :: (s.historyLog.toList.map Path.text ++ s.bounds.tableVariables)

section
variable {s : Settings}

theorem isShared_boundsMembers {b : Problem.Bounds}
    (h : ∀ name ∈ b.tableVariables, Yaml.IsBasic name) :
    Yaml.IsShared (.obj (boundsMembers b)) := by
  have hkeys : Entries.keys (boundsMembers b) = Entries.keys (boundsMembers .standard) := rfl
  have hnames : ∀ name ∈ Entries.keys (boundsMembers .standard), Yaml.IsName name := by
    decide +kernel
  have hvariables : Yaml.IsShared (.arr (b.tableVariables.map .str)) := by
    refine .arr fun item hitem => ?_
    obtain ⟨name, hname, rfl⟩ := List.mem_map.1 hitem
    exact .str (h name hname)
  refine .obj (by rw [hkeys]; decide +kernel)
    (fun entry he => hnames _ (hkeys ▸ List.mem_map_of_mem he)) ?_
  simp only [boundsMembers, List.forall_mem_cons, hvariables, Yaml.IsShared.int, true_and]
  exact fun _ he => absurd he List.not_mem_nil

theorem isShared_document (h : ∀ t ∈ s.texts, Yaml.IsBasic t) : Yaml.IsShared s.document := by
  simp only [texts, List.forall_mem_cons, List.forall_mem_append, List.forall_mem_map] at h
  obtain ⟨hlevel, hpath, hvariables⟩ := h
  have hnames : ∀ name ∈ memberNames, Yaml.IsName name := by decide +kernel
  have hseed : Yaml.IsShared (s.seed.elim .null .int) := by
    cases s.seed with
    | none => exact .null
    | some n => exact .int n
  have hlog : Yaml.IsShared (s.historyLog.elim .null fun p => .str p.text) := by
    cases hs : s.historyLog with
    | none => exact .null
    | some p => exact .str (hpath p (by simp [hs]))
  refine .obj (show memberNames.Nodup by decide +kernel)
    (fun entry he => hnames _ (List.mem_map_of_mem (f := (·.1)) he)) ?_
  simp only [members, List.forall_mem_cons, hseed, hlog, Yaml.IsShared.int,
    Yaml.IsShared.str hlevel, isShared_boundsMembers hvariables, true_and]
  exact fun _ he => absurd he List.not_mem_nil

/-- Settings in a file are the settings that are loaded. -/
theorem load_document (h : s.IsMade) (hbasic : ∀ t ∈ s.texts, Yaml.IsBasic t) {fs : Files}
    {named : Option Text}
    (hfile : fs.read (filePath named) = .ok (s.document.write (Json.lineStyle true))) :
    load fs named = .ok s := by
  have hholds : fs.holds (filePath named) = true := Files.holds_of_read hfile
  have hread : ofText (filePath named).text (s.document.write (Json.lineStyle true)) = .ok s := by
    have hdocument : Yaml.document? (s.document.write (Json.lineStyle true)) = some s.document :=
      (isShared_document hbasic).document?_write
    rw [ofText, hdocument]
    exact ofJson_document h
  simp only [load, hholds, hfile, hread]
  rfl

end

end LogicTrainer.Settings
