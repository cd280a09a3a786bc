import Mathlib.Logic.Relation
import LogicTrainer.Reduction.Collapse

/-! Collapsing, in any order.

A list is collapsed in one pass from the right. Another way is to take away the parentheses of
one bit after another, wherever they stand, until there are none to take away. Both come to
the same list (`eq_collapse_iff`): a single removal does not change what the pass makes of a
list (`Collapses.collapse_eq`), and the pass is made of single removals
(`reaches_collapse`). -/
namespace LogicTrainer.Reduction

theorem isCollapsed_tail {t : Token} {rest : List Token} (h : isCollapsed (t :: rest) = true) :
    isCollapsed rest = true := by
  rw [isCollapsed.eq_def] at h
  split at h
  · next heq => cases heq
  · cases h
  · next heq =>
    cases heq
    exact h

/-- A collapsed list stays as it is. -/
theorem collapse_eq_self {ts : List Token} (h : isCollapsed ts = true) : collapse ts = ts := by
  induction ts with
  | nil => rfl
  | cons t rest ih =>
    rw [collapse, ih (isCollapsed_tail h)]
    unfold putBefore
    split
    · cases h
    · rfl

theorem connectives_putBefore (t : Token) (rest : List Token) :
    Token.connectives (putBefore t rest) = Token.connectives (t :: rest) := by
  unfold putBefore
  split <;> rfl

/-- Collapsing takes no operator away. -/
theorem connectives_collapse (ts : List Token) :
    Token.connectives (collapse ts) = Token.connectives ts := by
  induction ts with
  | nil => rfl
  | cons t rest ih =>
    rw [collapse, connectives_putBefore]
    simp only [Token.connectives, List.countP_cons] at ih ⊢
    rw [ih]

namespace Collapses
variable {ts next : List Token}

theorem cons (h : Collapses ts next) (t : Token) : Collapses (t :: ts) (t :: next) := by
  obtain ⟨before, after, b⟩ := h
  exact .here (t :: before) after b

/-- Where one bit loses its parentheses, the pass comes to the same. -/
theorem collapse_eq (h : Collapses ts next) : collapse ts = collapse next := by
  obtain ⟨before, after, b⟩ := h
  induction before with
  | nil => rfl
  | cons t before ih =>
    rw [List.cons_append, List.cons_append, collapse, collapse, ih]

/-- A removal takes two tokens away. -/
theorem length_eq (h : Collapses ts next) : ts.length = next.length + 2 := by
  obtain ⟨before, after, b⟩ := h
  simp only [List.length_append, List.length_cons]
  omega

theorem length_lt (h : Collapses ts next) : next.length < ts.length := by
  have := h.length_eq
  omega

end Collapses

/-- A list is collapsed if there is no pair of parentheses to take away. -/
theorem isCollapsed_iff {ts : List Token} :
    isCollapsed ts = true ↔ ∀ next, ¬ Collapses ts next := by
  constructor
  · intro h next hnext
    have hsame : ts = collapse next := by rw [← hnext.collapse_eq, collapse_eq_self h]
    have hle := length_collapse_le next
    have hlt := hnext.length_lt
    rw [← hsame] at hle
    omega
  · intro h
    induction ts with
    | nil => rfl
    | cons t rest ih =>
      rw [isCollapsed.eq_def]
      split
      · rfl
      · next b after heq => exact absurd (heq ▸ Collapses.here [] after b) (h _)
      · next heq =>
        cases heq
        exact ih fun next hnext => h _ (hnext.cons t)

/-- The pass takes away one pair after another. -/
theorem reaches_collapse (ts : List Token) :
    Relation.ReflTransGen Collapses ts (collapse ts) := by
  induction ts with
  | nil => exact .refl
  | cons t rest ih =>
    have hrest : Relation.ReflTransGen Collapses (t :: rest) (t :: collapse rest) :=
      ih.lift (t :: ·) fun _ _ h => h.cons t
    refine hrest.trans ?_
    rw [collapse]
    unfold putBefore
    split
    · next b after heq =>
      rw [heq]
      exact .single (.here [] after b)
    · exact .refl

theorem collapse_eq_of_reaches {ts next : List Token}
    (h : Relation.ReflTransGen Collapses ts next) : collapse ts = collapse next := by
  induction h with
  | refl => rfl
  | tail _ hstep ih => rw [ih, hstep.collapse_eq]

/-- Whichever pair is taken away first, the last list is the one that the pass makes. -/
theorem eq_collapse_iff {ts next : List Token} : next = collapse ts ↔
    Relation.ReflTransGen Collapses ts next ∧ ∀ after, ¬ Collapses next after := by
  constructor
  · rintro rfl
    exact ⟨reaches_collapse ts, isCollapsed_iff.1 (isCollapsed_collapse ts)⟩
  · rintro ⟨hreach, hend⟩
    rw [collapse_eq_of_reaches hreach, collapse_eq_self (isCollapsed_iff.2 hend)]

end LogicTrainer.Reduction
