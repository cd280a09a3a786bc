import Mathlib.Logic.Function.Iterate
import LogicTrainer.Proofs.Assignment
import LogicTrainer.Formula.Value
import LogicTrainer.Reduction.Session

/-! Spellings of a name in an assignment.

A loose assignment may spell one name in several ways, and two names that differ as typed may have
one capital form, also one that is longer than they are. The normal form has the capital form once:
it stands where a spelling of it stands first (`keys_normalize`) and has the value of the spelling
that stands last (`get?_normalize`). The assignments that are their own normal form are exactly those
with distinct names in capitals (`normalize_loosen_eq_iff`), so it does not matter on how many of its
ways to a value an assignment is normalized.

The main statement is `normalizing_again_changes_nothing`. -/
namespace LogicTrainer.Assignment

/-! ### The normal form -/

/-- Only assignments in normal form are their own normal form. -/
theorem normalize_loosen_eq_iff {a : Assignment} : normalize a.loosen = a ↔ a.IsNormal :=
  ⟨fun h => h ▸ isNormal_normalize a.loosen, IsNormal.normalize_loosen⟩

/-- A normal form stays as it is however often it is normalized. -/
theorem iterate_normalize (n : Nat) (loose : Entries Json) :
    (fun other => (normalize other).loosen)^[n] (normalize loose).loosen =
      (normalize loose).loosen :=
  Function.iterate_fixed (congrArg loosen (normalize_loosen_normalize loose)) n

/-! ### What an assignment is used for -/

section
variable {loose other : Entries Json} (h : normalize loose = normalize other)
include h

/-- Assignments with one normal form give a formula one value. -/
theorem evaluate_congr (f : Formula) : f.evaluate loose = f.evaluate other := by
  rw [Formula.evaluate, Formula.evaluate, h]

/-- They put the same bits into a token list. -/
theorem substituteLoose_congr (ts : List Token) :
    Reduction.substituteLoose loose ts = Reduction.substituteLoose other ts := by
  rw [Reduction.substituteLoose, Reduction.substituteLoose, h]

/-- They start the same session. -/
theorem start_congr (formula : Text) (maxDepth : Int) :
    Reduction.Session.start formula loose maxDepth =
      Reduction.Session.start formula other maxDepth := by
  rw [Reduction.Session.start, Reduction.Session.start, h]

end

/-- The normal form of an assignment is its own normal form. Its names are distinct and in capitals,
in the order in which a spelling of each is first met, each with the value of its last spelling.
Formulas, token lists and sessions cannot tell the two apart. -/
theorem normalizing_again_changes_nothing (loose : Entries Json) :
    let a := normalize loose
    (normalize a.loosen = a ∧
      ∀ n, (fun other => (normalize other).loosen)^[n] a.loosen = a.loosen) ∧
    (Entries.keys a = ((Entries.keys loose).map Text.upper).eraseDups ∧ (Entries.keys a).Nodup ∧
      ∀ name ∈ Entries.keys a, name.upper = name) ∧
    (∀ v, Entries.get? v a =
      ((loose.filter fun entry => entry.1.upper == v).getLast?).map fun entry => coerce entry.2) ∧
    (∀ b : Assignment, normalize b.loosen = b ↔ b.IsNormal) ∧
    (∀ f : Formula, f.evaluate a.loosen = f.evaluate loose) ∧
    (∀ ts, Reduction.substituteLoose a.loosen ts = Reduction.substituteLoose loose ts) ∧
    ∀ (formula : Text) (maxDepth : Int),
      Reduction.Session.start formula a.loosen maxDepth =
        Reduction.Session.start formula loose maxDepth := by
  intro a
  have ha : a.IsNormal := isNormal_normalize loose
  have hagain : normalize a.loosen = normalize loose := normalize_loosen_normalize loose
  exact ⟨⟨hagain, fun n => iterate_normalize n loose⟩, ⟨keys_normalize loose, ha.nodup, ha.upper⟩,
    get?_normalize loose, fun _ => normalize_loosen_eq_iff, evaluate_congr hagain,
    substituteLoose_congr hagain, start_congr hagain⟩

/-- A letter whose capital form is two letters meets these two, and a variable is spelled in both
cases: two names are left, each where it was first met and with its last value. -/
theorem normalizing_again_changes_nothing_colliding :
    let loose : Entries Json :=
      [(['p'], .bool false), (['\u00df'], .int 2), (['P'], .str " t ".toList), (['s', 'S'], .null)]
    let a := normalize loose
    let f : Formula := .binary .and (.atom ['p']) (.atom ['T'])
    normalize a.loosen = a ∧ Entries.keys a = [['P'], ['S', 'S']] ∧
      Entries.get? ['P'] a = some true ∧ Entries.get? ['S', 'S'] a = some false ∧
      ['S', 'S'] ∈ Entries.keys a ∧ Text.upper ['S', 'S'] = ['S', 'S'] ∧
      f.evaluate a.loosen = f.evaluate loose := by
  intro loose a f
  obtain ⟨⟨hagain, -⟩, ⟨hkeys, -, hupper⟩, hvalue, -, hevaluate, -⟩ :=
    normalizing_again_changes_nothing loose
  have hnames : Entries.keys a = [['P'], ['S', 'S']] := hkeys.trans (by decide +kernel)
  have hmem : ['S', 'S'] ∈ Entries.keys a := by
    rw [hnames]
    decide
  exact ⟨hagain, hnames, (hvalue ['P']).trans (by decide +kernel),
    (hvalue ['S', 'S']).trans (by decide +kernel), hmem, hupper _ hmem, hevaluate f⟩

end LogicTrainer.Assignment
