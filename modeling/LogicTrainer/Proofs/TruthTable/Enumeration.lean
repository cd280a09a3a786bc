import LogicTrainer.Proofs.TruthTable.Rows

/-! The order of the rows.

There are two ways to go through the assignments of some names. A table counts down from the number
with all its binary digits 1, and each name gets the digit at its place; the test for tautologies
goes through the lists of truth values, true before false at every place, the last place changing
fastest. Both come to the same assignments in the same order (`assignments_eq_map`): among the
numbers with one digit more, those in which this digit is 1 come first when counting down, and
counting down is what the other digits do on either side (`boolVectors_eq`).

The main statement is `rows_count_down`. -/
namespace LogicTrainer.TruthTable
open Formula (boolVectors)

/-! ### Binary digits -/

/-- The last `n` binary digits of a number, the one of the highest weight first. -/
def digits (n m : Nat) : List Bool := (List.range n).map fun k => m.testBit (n - 1 - k)

theorem digits_succ (n m : Nat) : digits (n + 1) m = m.testBit n :: digits n m := by
  rw [digits, List.range_succ_eq_map, List.map_cons, List.map_map, digits]
  refine congrArg (m.testBit n :: ·) (List.map_congr_left fun k _ => ?_)
  show m.testBit (n + 1 - 1 - (k + 1)) = m.testBit (n - 1 - k)
  exact congrArg m.testBit (by omega)

/-- A power of two leaves the digits of lower weight as they are. -/
theorem digits_two_pow_add (n m : Nat) : digits n (2 ^ n + m) = digits n m := by
  refine List.map_congr_left fun k hk => Nat.testBit_two_pow_add_gt ?_ m
  have := List.mem_range.1 hk
  omega

/-- The numbers from a power of two on have its digit. -/
theorem digits_succ_two_pow_add {n m : Nat} (h : m < 2 ^ n) :
    digits (n + 1) (2 ^ n + m) = true :: digits n m := by
  rw [digits_succ, digits_two_pow_add, Nat.testBit_two_pow_add_eq, Nat.testBit_lt_two_pow h]
  rfl

/-- The numbers before a power of two do not have it. -/
theorem digits_succ_of_lt {n m : Nat} (h : m < 2 ^ n) :
    digits (n + 1) m = false :: digits n m := by
  rw [digits_succ, Nat.testBit_lt_two_pow h]

/-- The lists of truth values are the digits of the numbers that are counted down. -/
theorem boolVectors_eq (n : Nat) :
    boolVectors n = (List.range (2 ^ n)).map fun r => digits n (2 ^ n - 1 - r) := by
  induction n with
  | zero => rfl
  | succ n ih =>
    have hvectors : boolVectors (n + 1) =
        (boolVectors n).map (true :: ·) ++ (boolVectors n).map (false :: ·) := by
      simp [boolVectors]
    have hpow : 2 ^ (n + 1) = 2 ^ n + 2 ^ n := by omega
    rw [hvectors, ih, hpow, List.range_add, List.map_append, List.map_map, List.map_map,
      List.map_map]
    -- the first half of the numbers has the new digit, the second half has it not
    refine congrArg₂ (· ++ ·) (List.map_congr_left fun r hr => ?_)
      (List.map_congr_left fun r hr => ?_)
    · have hr := List.mem_range.1 hr
      have hnumber : 2 ^ n + 2 ^ n - 1 - r = 2 ^ n + (2 ^ n - 1 - r) := by omega
      rw [hnumber, digits_succ_two_pow_add (by omega)]
      rfl
    · have hr := List.mem_range.1 hr
      have hnumber : 2 ^ n + 2 ^ n - 1 - (2 ^ n + r) = 2 ^ n - 1 - r := by omega
      show _ = digits (n + 1) (2 ^ n + 2 ^ n - 1 - (2 ^ n + r))
      rw [hnumber, digits_succ_of_lt (by omega)]
      rfl

/-! ### Two ways through the assignments -/

/-- A row gives the names the digits of its number. -/
theorem inputsOfRow_eq_zip (names : List Text) (r : Nat) :
    inputsOfRow names r =
      Entries.ofPairs (names.zip (digits names.length (2 ^ names.length - 1 - r))) := by
  rw [inputsOfRow, digits, List.zip_map_right, List.zipIdx_eq_zip_range', List.range_eq_range']
  rfl

/-- The rows are made of the lists of truth values, in their order. -/
theorem assignments_eq_map (names : List Text) :
    assignments names =
      (boolVectors names.length).map fun bits => Entries.ofPairs (names.zip bits) := by
  rw [boolVectors_eq, List.map_map]
  exact List.map_congr_left fun r _ => inputsOfRow_eq_zip names r

/-- The test for tautologies goes through the rows. -/
theorem isTautology_eq_all {t : Text} {f : Formula}
    (hf : Formula.ofText defaultMaxDepth t = .ok f) :
    let names := Token.variables (Token.ofFormula t)
    Formula.isTautology t =
      (!names.isEmpty && (assignments names).all fun inputs => f.value inputs.value) := by
  intro names
  have hparse : Formula.parse defaultMaxDepth (Token.ofFormula t) = .ok f := hf
  rw [assignments_eq_map, List.all_map]
  simp only [Formula.isTautology, hparse]
  rfl

/-- Exactly one row gives each name a value that is asked for. -/
theorem existsUnique_row {names : List Text} (h : names.Nodup) (values : Text → Bool) :
    ∃! r : Nat, ∃ inputs : Assignment, (assignments names)[r]? = some inputs ∧
      ∀ name ∈ names, inputs.value name = values name := by
  obtain ⟨r, hr, hvalues⟩ := exists_row h values
  refine ⟨r, ⟨_, getElem?_assignments.2 ⟨hr, rfl⟩, hvalues⟩, ?_⟩
  rintro r' ⟨_, hinputs, hvalues'⟩
  obtain ⟨hr', rfl⟩ := getElem?_assignments.1 hinputs
  exact row_unique h hr' hr fun name hn => (hvalues' name hn).trans (hvalues name hn).symm

/-- Distinct names have a row for each number with that many binary digits, from the largest down to
zero, which gives each name the digit at its place. So one row and no other gives them any values,
and the test for tautologies tries the same ones in this order. -/
theorem rows_count_down (names : List Text) (h : names.Nodup) :
    (assignments names).length = 2 ^ names.length ∧
    (∀ r < 2 ^ names.length, ∃ inputs : Assignment, (assignments names)[r]? = some inputs ∧
      Entries.keys inputs = names ∧ ∀ (k : Nat) (hk : k < names.length),
        inputs.value names[k] = (2 ^ names.length - 1 - r).testBit (names.length - 1 - k)) ∧
    (∀ values : Text → Bool, ∃! r : Nat, ∃ inputs : Assignment, (assignments names)[r]? = some inputs ∧
      ∀ name ∈ names, inputs.value name = values name) ∧
    (assignments names).head? = some (names.map fun name => (name, true)) ∧
    (assignments names).getLast? = some (names.map fun name => (name, false)) ∧
    assignments names =
      (boolVectors names.length).map (fun bits => Entries.ofPairs (names.zip bits)) ∧
    (∀ (t : Text) (f : Formula), Formula.ofText defaultMaxDepth t = .ok f →
      Token.variables (Token.ofFormula t) = names → Formula.isTautology t =
        (!names.isEmpty && (assignments names).all fun inputs => f.value inputs.value)) := by
  refine ⟨length_assignments names, fun r hr => ?_, existsUnique_row h, head?_assignments h,
    getLast?_assignments h, assignments_eq_map names, fun t f hf hnames => ?_⟩
  · exact ⟨_, getElem?_assignments.2 ⟨hr, rfl⟩, keys_inputsOfRow h r,
      fun k hk => value_inputsOfRow h r hk⟩
  · rw [← hnames]
    exact isTautology_eq_all hf

/-- The third of the eight rows of three variables comes from 5, and in it the second variable alone
is false; the test for tautologies goes through the eight in vain. -/
theorem rows_count_down_three_variables :
    let t : Text := "p & q -> S".toList
    let names : List Text := [['P'], ['Q'], ['S']]
    let f : Formula := .binary .implies (.binary .and (.atom ['p']) (.atom ['q'])) (.atom ['S'])
    names.Nodup ∧ (assignments names).length = 8 ∧
      (∃ inputs : Assignment, (assignments names)[2]? = some inputs ∧
        inputs.value ['P'] = true ∧ inputs.value ['Q'] = false ∧ inputs.value ['S'] = true) ∧
      (assignments names).getLast? = some [(['P'], false), (['Q'], false), (['S'], false)] ∧
      Formula.ofText defaultMaxDepth t = .ok f ∧ Token.variables (Token.ofFormula t) = names ∧
      Formula.isTautology t =
        (!names.isEmpty && (assignments names).all fun inputs => f.value inputs.value) := by
  intro t names f
  have hnames : names.Nodup := by decide
  have hf : Formula.ofText defaultMaxDepth "p & q -> S".toList =
      .ok (.binary .implies (.binary .and (.atom ['p']) (.atom ['q'])) (.atom ['S'])) := by cbv
  have hvars : Token.variables (Token.ofFormula t) = names := by decide +kernel
  obtain ⟨hlength, hrow, -, -, hlast, -, htest⟩ := rows_count_down names hnames
  obtain ⟨inputs, hinputs, -, hvalue⟩ := hrow 2 (by decide)
  have hdigits : inputs.value ['P'] = true ∧ inputs.value ['Q'] = false ∧
      inputs.value ['S'] = true :=
    ⟨(hvalue 0 (by decide)).trans (by decide), (hvalue 1 (by decide)).trans (by decide),
      (hvalue 2 (by decide)).trans (by decide)⟩
  exact ⟨hnames, hlength, ⟨inputs, hinputs, hdigits⟩, hlast, hf, hvars, htest t f hf hvars⟩

end LogicTrainer.TruthTable
