import LogicTrainer.Proofs.Formula.StrictForm
import LogicTrainer.Proofs.Formula.Variables
import LogicTrainer.Proofs.Text.Order

/-! Lists of variables.

Rows of a table and tests for tautologies are made for the variables that a token list names, while
values come from the tree that the list spells. Both have the same variables: what the list of the
tokens has to be is said by the tree alone (`ListsVariables`), and only one list is it
(`ListsVariables.unique`). The strict form of a tree spells the tree again, so its tokens name the
same variables once more.

The main statement is `tokens_name_the_variables_of_the_tree`. -/
namespace LogicTrainer

/-- The variables stand in code point order. -/
theorem Atom.pairwise_variables : Atom.variables.Pairwise Text.Before := by
  unfold Text.Before
  decide

namespace Formula

/-! ### The variables of a tree -/

/-- A list has the variables of a formula, each once and in code point order. -/
structure ListsVariables (f : Formula) (names : List Text) : Prop where
  pairwise : names.Pairwise Text.Before
  mem_iff : ∀ v, v ∈ names ↔ v ∈ f.atoms

/-- There is one such list. -/
theorem ListsVariables.unique {f : Formula} {names names' : List Text}
    (h : f.ListsVariables names) (h' : f.ListsVariables names') : names = names' :=
  Text.eq_of_pairwise h.pairwise h'.pairwise fun v => (h.mem_iff v).trans (h'.mem_iff v).symm

theorem atoms_nodup (f : Formula) : f.atoms.Nodup := by
  induction f with
  | atom name =>
    rw [atoms]
    cases Atom.asVariable? name with
    | none => exact .nil
    | some v => exact List.nodup_singleton v
  | neg f ih => exact ih
  | binary op f g ihf ihg =>
    refine List.nodup_append.2 ⟨ihf, ihg.filter _, ?_⟩
    rintro v hleft _ hright rfl
    simp [hleft] at hright

theorem listsVariables_variables (f : Formula) : f.ListsVariables f.variables where
  pairwise := Text.pairwise_mergeSort f.atoms_nodup
  mem_iff _ := List.mem_mergeSort

/-! ### The variables of a token list -/

/-- A list that spells a formula names its variables. -/
theorem Spells.listsVariables {ts : List Token} {f : Formula} (h : Spells ts f) :
    f.ListsVariables (Token.variables ts) where
  pairwise := Atom.pairwise_variables.filter _
  mem_iff _ := h.mem_variables_iff

/-- So does its strict form. -/
theorem IsProper.listsVariables_render {f : Formula} (h : f.IsProper) :
    f.ListsVariables (Token.variables (Token.ofFormula f.render)) := by
  rw [ofFormula_render h]
  exact (spells_tokens h).listsVariables

/-- If a token list is read as a formula, its variables are those at the leaves, each once and in
code point order, and only one list is this. The strict form has the same variables. -/
theorem tokens_name_the_variables_of_the_tree :
    (∀ (maxDepth : Int) (ts : List Token) (f : Formula), parse maxDepth ts = .ok f →
      f.ListsVariables (Token.variables ts) ∧
      f.ListsVariables (Token.variables (Token.ofFormula f.render))) ∧
    (∀ (f : Formula) (names : List Text), f.ListsVariables names ↔ names = f.variables) ∧
    (∀ (maxDepth : Int) (t form : Text), canonical? maxDepth t = some form →
      Token.variables (Token.ofFormula form) = Token.variables (Token.ofFormula t)) := by
  refine ⟨fun maxDepth ts f hf => ?_, fun f names => ⟨fun h => ?_, ?_⟩, fun maxDepth t form h => ?_⟩
  · have hs := (parse_eq_ok_iff.1 hf).1
    exact ⟨hs.listsVariables, hs.isProper.listsVariables_render⟩
  · exact h.unique f.listsVariables_variables
  · rintro rfl
    exact f.listsVariables_variables
  · obtain ⟨f, hf, rfl⟩ := canonical?_eq_some_iff.1 h
    have hs := (parse_eq_ok_iff.1 hf).1
    exact hs.isProper.listsVariables_render.unique hs.listsVariables

/-- A variable in both cases, one by a letter outside ASCII, and the literal for truth: two
variables are named by the text and by its strict form. -/
theorem tokens_name_the_variables_of_the_tree_both_cases :
    let t : Text := "(q | \u017f) & t -> ~(Q)".toList
    let f : Formula := .binary .implies
      (.binary .and (.binary .or (.atom ['q']) (.atom ['\u017f'])) (.atom ['t'])) (.neg (.atom ['Q']))
    parse 3 (Token.ofFormula t) = .ok f ∧ canonical? 3 t = some f.render ∧
      f.ListsVariables [['Q'], ['S']] ∧ ['S'] ∈ f.atoms ∧
      Token.variables (Token.ofFormula f.render) = [['Q'], ['S']] := by
  have hf : parse 3 (Token.ofFormula "(q | \u017f) & t -> ~(Q)".toList) = .ok (.binary .implies
      (.binary .and (.binary .or (.atom ['q']) (.atom ['\u017f'])) (.atom ['t']))
      (.neg (.atom ['Q']))) := by cbv
  have hvars : Token.variables (Token.ofFormula "(q | \u017f) & t -> ~(Q)".toList) =
      [['Q'], ['S']] := by decide +kernel
  intro t f
  have hform : canonical? 3 t = some f.render := canonical?_eq_some_iff.2 ⟨f, hf, rfl⟩
  obtain ⟨hread, -, hstrict⟩ := tokens_name_the_variables_of_the_tree
  have hlists : f.ListsVariables [['Q'], ['S']] := hvars ▸ (hread 3 _ f hf).1
  exact ⟨hf, hform, hlists, (hlists.mem_iff ['S']).1 (by decide), (hstrict 3 t _ hform).trans hvars⟩

end Formula
end LogicTrainer
