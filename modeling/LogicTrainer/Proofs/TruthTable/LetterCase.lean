import LogicTrainer.Proofs.Token.LetterCase
import LogicTrainer.Proofs.TruthTable.Tautology

/-! Letter case of atoms.

Trees and columns keep the letters as they are typed, and each use of an atom looks at its capital for
itself. It always comes to the same: with the ASCII letters in upper case a text is read as the same
formula with its names in upper case, or not for the same reason (`ofText_asciiUpper`), and every
name has the capital that it had. Texts that differ in the case of ASCII letters alone are one text
in upper case.

The main statement is `letter_case_changes_no_value`. -/
namespace LogicTrainer

namespace Formula

section
variable (maxDepth : Int) (t : Text)

/-- Upper case leaves the shape of a formula. -/
theorem ofText_asciiUpper :
    ofText maxDepth t.asciiUpper = (ofText maxDepth t).map (rename Text.asciiUpper) := by
  rw [ofText, Token.ofFormula_asciiUpper, parse_rename renames_asciiUpper, ofText]

theorem failure?_asciiUpper :
    failure? (ofText maxDepth t.asciiUpper) = failure? (ofText maxDepth t) := by
  rw [ofText_asciiUpper]
  cases ofText maxDepth t <;> rfl

theorem variables_asciiUpper :
    Token.variables (Token.ofFormula t.asciiUpper) = Token.variables (Token.ofFormula t) := by
  rw [Token.ofFormula_asciiUpper, Token.variables_rename Text.upper_asciiUpper]

theorem ofText_asciiUpper_of_error {maxDepth : Int} {t : Text} {e : ParseFailure}
    (he : ofText maxDepth t = .error e) : ofText maxDepth t.asciiUpper = .error e := by
  rw [ofText_asciiUpper, he]
  rfl

section
variable {maxDepth : Int} {t : Text} {f : Formula} (hf : ofText maxDepth t = .ok f)
include hf

theorem ofText_asciiUpper_of_ok :
    ofText maxDepth t.asciiUpper = .ok (f.rename Text.asciiUpper) := by
  rw [ofText_asciiUpper, hf]
  rfl

/-- Upper case leaves the values of a formula that was read. -/
theorem value_asciiUpper (values : Text → Bool) :
    (f.rename Text.asciiUpper).value values = f.value values :=
  value_rename renames_asciiUpper Text.upper_asciiUpper (isProper_of_ofText hf).1 values

end

theorem evaluateText_asciiUpper (loose : Entries Json) :
    evaluateText maxDepth t.asciiUpper loose = evaluateText maxDepth t loose := by
  cases hf : ofText maxDepth t with
  | error e => rw [evaluateText_of_error hf, evaluateText_of_error (ofText_asciiUpper_of_error hf)]
  | ok f =>
    rw [evaluateText_of_ofText hf, evaluateText_of_ofText (ofText_asciiUpper_of_ok hf),
      value_asciiUpper hf]

end

end Formula

namespace TruthTable
open Formula

section
variable (maxDepth : Int) (t : Text)

theorem isTautology_of_error {t : Text} {e : ParseFailure}
    (he : ofText defaultMaxDepth t = .error e) : isTautology t = false := by
  have hparse : parse defaultMaxDepth (Token.ofFormula t) = .error e := he
  simp only [isTautology, hparse]

theorem isTautology_asciiUpper : isTautology t.asciiUpper = isTautology t := by
  cases hf : ofText defaultMaxDepth t with
  | error e => rw [isTautology_of_error hf, isTautology_of_error (ofText_asciiUpper_of_error hf)]
  | ok f =>
    rw [Bool.eq_iff_iff, isTautology_iff_value hf,
      isTautology_iff_value (ofText_asciiUpper_of_ok hf), variables_asciiUpper]
    simp only [value_asciiUpper hf]

/-- Upper case leaves the inputs of the rows and the final cells. -/
theorem rows_asciiUpper : (build maxDepth t.asciiUpper).rows.map (fun row => (row.inputs, row.final)) =
    (build maxDepth t).rows.map fun row => (row.inputs, row.final) := by
  have hnames := variables_asciiUpper t
  by_cases hvars : Token.variables (Token.ofFormula t) = []
  · rw [rows_build_eq_nil (.inr hvars), rows_build_eq_nil (.inr (hnames.trans hvars))]
  cases hf : ofText maxDepth t with
  | error e =>
    rw [rows_build_eq_nil (t := t) (.inl ⟨e, hf⟩),
      rows_build_eq_nil (t := t.asciiUpper) (.inl ⟨e, ofText_asciiUpper_of_error hf⟩)]
  | ok f =>
    rw [rows_build hf hvars, rows_build (ofText_asciiUpper_of_ok hf) (by rwa [hnames]), hnames,
      List.map_map, List.map_map]
    refine List.map_congr_left fun inputs _ => ?_
    simp only [Function.comp_apply, rowOf, evaluate, value_asciiUpper hf]

end

/-- With ASCII letters in the other case, a text is read within the same depths or fails for the
same reason, names the same variables, and has the same value and the same rows with the same final
cells. -/
theorem letter_case_changes_no_value (places : Nat → Bool) (t : Text) :
    (∀ maxDepth, failure? (ofText maxDepth (t.switched places)) = failure? (ofText maxDepth t)) ∧
    Token.variables (Token.ofFormula (t.switched places)) = Token.variables (Token.ofFormula t) ∧
    (∀ maxDepth loose,
      evaluateText maxDepth (t.switched places) loose = evaluateText maxDepth t loose) ∧
    isTautology (t.switched places) = isTautology t ∧
    ∀ maxDepth, (build maxDepth (t.switched places)).rows.map (fun row => (row.inputs, row.final)) =
      (build maxDepth t).rows.map fun row => (row.inputs, row.final) := by
  have hsame := Text.asciiUpper_switched places t
  refine ⟨fun maxDepth => ?_, ?_, fun maxDepth loose => ?_, ?_, fun maxDepth => ?_⟩
  · rw [← failure?_asciiUpper, hsame, failure?_asciiUpper]
  · rw [← variables_asciiUpper, hsame, variables_asciiUpper]
  · rw [← evaluateText_asciiUpper, hsame, evaluateText_asciiUpper]
  · rw [← isTautology_asciiUpper, hsame, isTautology_asciiUpper]
  · rw [← rows_asciiUpper, hsame, rows_asciiUpper]

end TruthTable
end LogicTrainer
