import LogicTrainer.Proofs.TruthTable.Tabulation

/-! Tautologies are decided.

The test tries plain truth values for the variables that the tokens name, and nothing else. A
formula has no other way to get a value: whatever is assigned, in whatever spelling, amounts to
some values of names in capitals, and some row has the same ones on the variables. So three
ways of going through the assignments come to the same, namely to the formula being true under
all values: the lists of truth values that the test tries (`isTautology_iff_value`), loose
assignments (`forall_evaluateText_iff`), and the rows of the table
(`forall_final_iff`).

The main statement is `tautologies_are_decided`. -/
namespace LogicTrainer.TruthTable
open Formula

/-! ### Lists of truth values -/

theorem mem_boolVectors_iff {n : Nat} {bits : List Bool} :
    bits ∈ boolVectors n ↔ bits.length = n := by
  induction n generalizing bits with
  | zero => rw [boolVectors, List.mem_singleton, List.length_eq_zero_iff]
  | succ n ih =>
    rw [boolVectors, List.mem_flatMap]
    constructor
    · rintro ⟨b, -, hb⟩
      obtain ⟨rest, hrest, rfl⟩ := List.mem_map.1 hb
      rw [List.length_cons, ih.1 hrest]
    · intro h
      cases bits with
      | nil => cases h
      | cons b rest =>
        have hb : b ∈ [true, false] := by cases b <;> decide
        exact ⟨b, hb, List.mem_map_of_mem (ih.2 (Nat.succ.inj h))⟩

/-- Each name has the value that stands at its place. -/
theorem value_zip {names : List Text} (h : names.Nodup) (values : Text → Bool) {name : Text}
    (hn : name ∈ names) :
    Assignment.value (Entries.ofPairs (names.zip (names.map values))) name = values name := by
  rw [← List.map_prod_left_eq_zip]
  have hkeys : (Entries.keys (names.map fun name => (name, values name))).Nodup := by
    rw [Entries.keys, List.map_map]
    rwa [show (·.1) ∘ (fun name => (name, values name)) = id from rfl, List.map_id]
  have hmem : (name, values name) ∈ names.map fun name => (name, values name) :=
    List.mem_map_of_mem hn
  rw [Entries.ofPairs_eq_self hkeys, Assignment.value, Entries.get?_of_mem hkeys hmem]
  rfl

/-! ### Three ways through the assignments -/

/-- The test tries every list of values. -/
theorem isTautology_iff_value {t : Text} {f : Formula}
    (hf : Formula.ofText defaultMaxDepth t = .ok f) : Formula.isTautology t = true ↔
      Token.variables (Token.ofFormula t) ≠ [] ∧ ∀ values, f.value values = true := by
  have hparse : Formula.parse defaultMaxDepth (Token.ofFormula t) = .ok f := hf
  simp only [Formula.isTautology, hparse, Bool.and_eq_true, Bool.not_eq_true',
    List.isEmpty_eq_false_iff, List.all_eq_true]
  refine and_congr_right fun _ => ⟨fun h values => ?_, fun h bits _ => h _⟩
  have hnodup := Token.variables_nodup (Token.ofFormula t)
  rw [← h _ (mem_boolVectors_iff.2 (List.length_map values))]
  exact value_eq_of_ofText hf fun name hn => (value_zip hnodup values hn).symm

section
variable {maxDepth : Int} {t : Text} {f : Formula} (hf : Formula.ofText maxDepth t = .ok f)
include hf

/-- Loose assignments give all values, and give nothing but values. -/
theorem forall_evaluateText_iff :
    (∀ loose, evaluateText maxDepth t loose = true) ↔ ∀ values, f.value values = true := by
  constructor
  · intro h values
    obtain ⟨r, -, hvalues⟩ := exists_row (Token.variables_nodup (Token.ofFormula t)) values
    have hrow := h (inputsOfRow (Token.variables (Token.ofFormula t)) r).loosen
    rw [evaluateText_of_ofText hf, (isNormal_inputsOfRow t r).normalize_loosen] at hrow
    rw [← hrow]
    exact value_eq_of_ofText hf fun name hn => (hvalues name hn).symm
  · intro h loose
    rw [evaluateText_of_ofText hf, h]

/-- So do the rows of the table. -/
theorem forall_final_iff (hvars : Token.variables (Token.ofFormula t) ≠ []) :
    (∀ row ∈ (build maxDepth t).rows, row.final.expected = true) ↔
      ∀ values, f.value values = true := by
  constructor
  · intro h values
    obtain ⟨i, row, hrow, -, hfinal, -⟩ := exists_row_of_values hf hvars values
    rw [← hfinal, h row (List.mem_of_getElem? hrow)]
  · intro h row hrow
    obtain ⟨inputs, rfl⟩ := exists_inputs_of_mem_rows hf hvars hrow
    rw [expected_rowOf_final hf, evaluateText_of_ofText hf, h]

end

/-- The test succeeds on the texts with variables that are true under every assignment, however it
is written and whatever else it assigns, and on those with a table in which every final cell is
true. -/
theorem tautologies_are_decided (t : Text) :
    (Formula.isTautology t = true ↔ Token.variables (Token.ofFormula t) ≠ [] ∧
      ∀ loose : Entries Json, evaluateText defaultMaxDepth t loose = true) ∧
    (Formula.isTautology t = true ↔ (build defaultMaxDepth t).applicable = true ∧
      ∀ row ∈ (build defaultMaxDepth t).rows, row.final.expected = true) := by
  cases hf : Formula.ofText defaultMaxDepth t with
  | error e =>
    have hparse : Formula.parse defaultMaxDepth (Token.ofFormula t) = .error e := hf
    have htest : Formula.isTautology t ≠ true := by simp [Formula.isTautology, hparse]
    refine ⟨⟨fun h => absurd h htest, fun ⟨_, h⟩ => ?_⟩, fun h => absurd h htest, fun ⟨h, _⟩ => ?_⟩
    · exact absurd (h []) (by simp [evaluateText_of_error hf])
    · obtain ⟨⟨f, hok⟩, -⟩ := applicable_build.1 h
      cases hf.symm.trans hok
  | ok f =>
    rw [isTautology_iff_value hf, forall_evaluateText_iff hf, applicable_build]
    refine ⟨Iff.rfl, ?_, ?_⟩
    · exact fun ⟨hvars, h⟩ => ⟨⟨⟨f, hf⟩, hvars⟩, (forall_final_iff hf hvars).2 h⟩
    · exact fun ⟨⟨_, hvars⟩, h⟩ => ⟨hvars, (forall_final_iff hf hvars).1 h⟩

/-- A name in both cases is one variable, a value in words counts, and one for the letter of a
literal does not. -/
theorem tautologies_are_decided_either_case :
    Formula.isTautology "p | ~P".toList = true ∧
      evaluateText defaultMaxDepth "p | ~P".toList
        [(['P'], .str " no ".toList), (['T'], .bool false)] = true ∧
      ∀ row ∈ (build defaultMaxDepth "p | ~P".toList).rows, row.final.expected = true := by
  have htest : Formula.isTautology "p | ~P".toList = true := by cbv
  obtain ⟨hloose, htable⟩ := tautologies_are_decided "p | ~P".toList
  exact ⟨htest, (hloose.1 htest).2 _, (htable.1 htest).2⟩

end LogicTrainer.TruthTable
