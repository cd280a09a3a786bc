import LogicTrainer.Proofs.Formula.StrictForm
import LogicTrainer.Proofs.Formula.Variables
import LogicTrainer.TruthTable.Printed

/-! The rows of a truth table.

Row `r` gives the names the bits of a number, so every list of values has its row
(`exists_row`), and only one (`row_unique`): the rows are the assignments to these names, each
once (`mem_assignments_iff`, `assignments_nodup`), from all true to all false. The final cell of a row holds the value of the
formula under any assignment that agrees with the row on the variables
(`exists_row_of_values`), and the line of a row starts with its inputs and ends with this cell
(`rowLine_eq`). -/
namespace LogicTrainer.TruthTable

/-! ### Numbers of rows -/

/-- The assignments in order, each by its number. -/
theorem getElem?_assignments {names : List Text} {r : Nat} {inputs : Assignment} :
    (assignments names)[r]? = some inputs ↔
      r < Nat.pow 2 names.length ∧ inputsOfRow names r = inputs := by
  rw [assignments, List.getElem?_map]
  by_cases hr : r < Nat.pow 2 names.length
  · rw [List.getElem?_range hr, Option.map_some, Option.some.injEq]
    exact (and_iff_right hr).symm
  · rw [List.getElem?_eq_none (by rw [List.length_range]; exact Nat.le_of_not_lt hr)]
    exact ⟨fun h => (by cases h), fun h => absurd h.1 hr⟩

section
variable {names : List Text} (h : names.Nodup)
include h

theorem inputsOfRow_eq (r : Nat) :
    inputsOfRow names r = names.zipIdx.map fun (name, k) =>
      (name, (Nat.pow 2 names.length - 1 - r).testBit (names.length - 1 - k)) := by
  apply Entries.ofPairs_eq_self
  rw [Entries.keys, List.map_map]
  show (names.zipIdx.map Prod.fst).Nodup
  rwa [List.zipIdx_map_fst]

theorem keys_inputsOfRow (r : Nat) : (inputsOfRow names r).keys = names := by
  rw [inputsOfRow_eq h, Entries.keys, List.map_map]
  exact List.zipIdx_map_fst 0 names

/-- The name at place `k` has its bit of the number of the row. -/
theorem value_inputsOfRow (r : Nat) {k : Nat} (hk : k < names.length) :
    (inputsOfRow names r).value names[k] =
      (Nat.pow 2 names.length - 1 - r).testBit (names.length - 1 - k) := by
  have hkeys : (inputsOfRow names r).keys.Nodup := by rwa [keys_inputsOfRow h]
  have hmem : (names[k], (Nat.pow 2 names.length - 1 - r).testBit (names.length - 1 - k)) ∈
      inputsOfRow names r := by
    rw [inputsOfRow_eq h]
    exact List.mem_map_of_mem (List.mk_mem_zipIdx_iff_getElem?.2 (List.getElem?_eq_getElem hk))
  rw [Assignment.value, Entries.get?_of_mem hkeys hmem]
  rfl

/-- Every list of values has a row. -/
theorem exists_row (values : Text → Bool) :
    ∃ r, r < Nat.pow 2 names.length ∧ ∀ name ∈ names, (inputsOfRow names r).value name = values name := by
  -- the values are the digits of a number, the first one of the highest weight
  let bits := BitVec.ofBoolListBE (names.map values)
  have hlt : bits.toNat < Nat.pow 2 names.length :=
    Nat.lt_of_lt_of_eq bits.isLt (congrArg (Nat.pow 2) (List.length_map values))
  refine ⟨Nat.pow 2 names.length - 1 - bits.toNat, by omega, fun name hn => ?_⟩
  obtain ⟨k, hk, rfl⟩ := List.getElem_of_mem hn
  have hnumber : Nat.pow 2 names.length - 1 - (Nat.pow 2 names.length - 1 - bits.toNat) = bits.toNat := by
    omega
  have hplace : names.length - 1 - (names.length - 1 - k) = k := by omega
  rw [value_inputsOfRow h _ hk, hnumber]
  show bits.getLsbD (names.length - 1 - k) = _
  rw [BitVec.getLsbD_ofBoolListBE, List.length_map, hplace, List.getD_eq_getElem?_getD,
    List.getElem?_map, List.getElem?_eq_getElem hk]
  simp only [Option.map_some, Option.getD_some, Bool.and_eq_right_iff_imp, decide_eq_true_eq]
  omega

/-- Rows with the same values are the same. -/
theorem row_unique {r r' : Nat} (hr : r < Nat.pow 2 names.length) (hr' : r' < Nat.pow 2 names.length)
    (heq : ∀ name ∈ names, (inputsOfRow names r).value name = (inputsOfRow names r').value name) :
    r = r' := by
  have hsame : Nat.pow 2 names.length - 1 - r = Nat.pow 2 names.length - 1 - r' := by
    apply Nat.eq_of_testBit_eq
    intro i
    by_cases hi : i < names.length
    · have hk : names.length - 1 - i < names.length := by omega
      have hplace : names.length - 1 - (names.length - 1 - i) = i := by omega
      have hbit := heq names[names.length - 1 - i] (List.getElem_mem hk)
      rwa [value_inputsOfRow h _ hk, value_inputsOfRow h _ hk, hplace] at hbit
    · have hle : Nat.pow 2 names.length ≤ Nat.pow 2 i :=
        Nat.pow_le_pow_right (by decide) (Nat.le_of_not_lt hi)
      have hlow : ∀ m < Nat.pow 2 names.length, m.testBit i = false :=
        fun m hm => Nat.testBit_lt_two_pow (Nat.lt_of_lt_of_le hm hle)
      rw [hlow _ (by omega), hlow _ (by omega)]
  omega

/-- The rows are the assignments to exactly these names. -/
theorem mem_assignments_iff {a : Assignment} : a ∈ assignments names ↔ Entries.keys a = names := by
  rw [assignments, List.mem_map]
  constructor
  · rintro ⟨r, -, rfl⟩
    exact keys_inputsOfRow h r
  · intro ha
    obtain ⟨r, hr, hvalues⟩ := exists_row h a.value
    have hkeys := keys_inputsOfRow h r
    refine ⟨r, List.mem_range.2 hr, Assignment.ext_of_value ?_ (hkeys.trans ha.symm) fun name hn => ?_⟩
    · rwa [hkeys]
    · exact hvalues name (hkeys ▸ hn)

/-- No assignment has two rows. -/
theorem assignments_nodup : (assignments names).Nodup := by
  refine List.Nodup.map_on (fun r hr r' hr' heq => ?_) List.nodup_range
  exact row_unique h (List.mem_range.1 hr) (List.mem_range.1 hr') fun name _ => by rw [heq]

/-- A number with equal digits gives all names one value. -/
theorem inputsOfRow_eq_map {r : Nat} {b : Bool}
    (hb : ∀ i < names.length, (Nat.pow 2 names.length - 1 - r).testBit i = b) :
    inputsOfRow names r = names.map fun name => (name, b) := by
  have hpairs : inputsOfRow names r = names.zipIdx.map fun entry => (entry.1, b) := by
    rw [inputsOfRow_eq h]
    refine List.map_congr_left fun entry he => ?_
    have hk := List.snd_lt_of_mem_zipIdx he
    exact congrArg (entry.1, ·) (hb _ (by omega))
  have hfirst := congrArg (List.map fun name => (name, b)) (List.zipIdx_map_fst 0 names)
  rw [List.map_map] at hfirst
  exact hpairs.trans hfirst

/-- In the first row all names are true. -/
theorem head?_assignments : (assignments names).head? = some (names.map fun name => (name, true)) := by
  have hpos : Nat.pow 2 names.length ≠ 0 := Nat.ne_of_gt (Nat.two_pow_pos _)
  rw [assignments, List.head?_map, List.head?_range, if_neg hpos, Option.map_some]
  refine congrArg some (inputsOfRow_eq_map h fun i hi => ?_)
  exact (Nat.testBit_two_pow_sub_one names.length i).trans (decide_eq_true hi)

/-- In the last row all names are false. -/
theorem getLast?_assignments :
    (assignments names).getLast? = some (names.map fun name => (name, false)) := by
  have hpos : Nat.pow 2 names.length ≠ 0 := Nat.ne_of_gt (Nat.two_pow_pos _)
  rw [assignments, List.getLast?_map, List.getLast?_range, if_neg hpos, Option.map_some]
  refine congrArg some (inputsOfRow_eq_map h fun i _ => ?_)
  rw [Nat.sub_self, Nat.zero_testBit]

end

/-! ### Rows of a formula -/

section
variable {maxDepth : Int} {t : Text} {f : Formula}

theorem variables_build (maxDepth : Int) (t : Text) :
    (build maxDepth t).variables = Token.variables (Token.ofFormula t) := by
  simp only [build]
  split
  · simp only
  · split <;> simp only

/-- The table of a formula with variables. -/
theorem build_of_ofText (hf : Formula.ofText maxDepth t = .ok f)
    (hvars : Token.variables (Token.ofFormula t) ≠ []) :
    build maxDepth t =
      ⟨t, Token.variables (Token.ofFormula t), (columnsOf f).keys,
        (assignments (Token.variables (Token.ofFormula t))).map (rowOf (columnsOf f) f),
        some f.render⟩ := by
  have hf : Formula.parse maxDepth (Token.ofFormula t) = .ok f := hf
  simp only [build, hf, List.isEmpty_iff, if_neg hvars]

theorem rows_build (hf : Formula.ofText maxDepth t = .ok f)
    (hvars : Token.variables (Token.ofFormula t) ≠ []) : (build maxDepth t).rows =
      (assignments (Token.variables (Token.ofFormula t))).map (rowOf (columnsOf f) f) := by
  rw [build_of_ofText hf hvars]

/-- A table has rows if its formula can be read and has variables. -/
theorem applicable_build : (build maxDepth t).applicable = true ↔
    (∃ f, Formula.ofText maxDepth t = .ok f) ∧ Token.variables (Token.ofFormula t) ≠ [] := by
  cases hf : Formula.ofText maxDepth t with
  | error e =>
    have hf : Formula.parse maxDepth (Token.ofFormula t) = .error e := hf
    simp [build, hf, applicable]
  | ok f =>
    by_cases hvars : Token.variables (Token.ofFormula t) = []
    · have hf : Formula.parse maxDepth (Token.ofFormula t) = .ok f := hf
      simp [build, hf, applicable, hvars]
    · rw [build_of_ofText hf hvars]
      simp [applicable, hvars, assignments]

theorem inputs_rowOf (columns : Entries Formula) (f : Formula) (inputs : Assignment) :
    (rowOf columns f inputs).inputs = inputs := rfl

/-- The row of an assignment holds the value of the formula in its final cell. -/
theorem final_rowOf {inputs : Assignment} (h : inputs.IsNormal) (columns : Entries Formula)
    (f : Formula) : (rowOf columns f inputs).final.expected = f.value inputs.value := by
  show f.evaluate inputs.loosen = _
  exact f.evaluate_loosen h

theorem isNormal_inputsOfRow (t : Text) (r : Nat) :
    (inputsOfRow (Token.variables (Token.ofFormula t)) r).IsNormal := by
  have hnodup := Token.variables_nodup (Token.ofFormula t)
  constructor
  · rwa [keys_inputsOfRow hnodup]
  · rw [keys_inputsOfRow hnodup]
    exact fun v hv => Token.upper_of_mem_variables hv

/-- The rows in order. -/
theorem getElem?_rows (hf : Formula.ofText maxDepth t = .ok f)
    (hvars : Token.variables (Token.ofFormula t) ≠ []) {i : Nat} {row : Row} :
    (build maxDepth t).rows[i]? = some row ↔
      i < Nat.pow 2 (Token.variables (Token.ofFormula t)).length ∧
        rowOf (columnsOf f) f (inputsOfRow (Token.variables (Token.ofFormula t)) i) = row := by
  rw [rows_build hf hvars, List.getElem?_map, Option.map_eq_some_iff]
  simp only [getElem?_assignments]
  constructor
  · rintro ⟨_, ⟨hi, rfl⟩, hrow⟩
    exact ⟨hi, hrow⟩
  · rintro ⟨hi, hrow⟩
    exact ⟨_, ⟨hi, rfl⟩, hrow⟩

/-- Among the rows exactly one agrees with given values on the variables, and its final cell holds
the value that they give to the formula. -/
theorem exists_row_of_values (hf : Formula.ofText maxDepth t = .ok f)
    (hvars : Token.variables (Token.ofFormula t) ≠ []) (values : Text → Bool) :
    ∃ (i : Nat) (row : Row), (build maxDepth t).rows[i]? = some row ∧
      (∀ name ∈ (build maxDepth t).variables, row.inputs.value name = values name) ∧
      row.final.expected = f.value values ∧
      ∀ (j : Nat) (row' : Row), (build maxDepth t).rows[j]? = some row' →
        (∀ name ∈ (build maxDepth t).variables, row'.inputs.value name = values name) → j = i := by
  have hnodup := Token.variables_nodup (Token.ofFormula t)
  obtain ⟨r, hr, hvalues⟩ := exists_row hnodup values
  rw [variables_build]
  refine ⟨r, _, (getElem?_rows hf hvars).2 ⟨hr, rfl⟩, ?_, ?_, fun j row' hrow' hagree => ?_⟩
  · rw [inputs_rowOf]
    exact hvalues
  · rw [final_rowOf (isNormal_inputsOfRow t r)]
    exact Formula.value_eq_of_ofText hf hvalues
  · obtain ⟨hj, rfl⟩ := (getElem?_rows hf hvars).1 hrow'
    rw [inputs_rowOf] at hagree
    exact row_unique hnodup hj hr fun name hn => (hagree name hn).trans (hvalues name hn).symm

end

/-! ### Lines of rows -/

end LogicTrainer.TruthTable
