import Mathlib.Data.List.Nodup
import LogicTrainer.Text.Basic

/-! The order of texts.

One text stands before another in code point order if it is a beginning of the other, or has
the smaller code point at the first place where they differ. The test that sorts texts allows
this and equality (`noLater_iff`), so it is transitive and total. Sorting distinct texts puts them
in this order (`pairwise_mergeSort`), and a list in this order is known from its members
(`eq_of_pairwise`). -/
namespace LogicTrainer.Text

/-- One text stands before another in code point order. -/
def Before : Text → Text → Prop := List.Lex fun c d => c.toNat < d.toNat

theorem noLater_iff {a b : Text} : noLater a b = true ↔ a = b ∨ a.Before b := by
  induction a generalizing b with
  | nil =>
    cases b with
    | nil => exact ⟨fun _ => .inl rfl, fun _ => rfl⟩
    | cons d b => exact ⟨fun _ => .inr .nil, fun _ => rfl⟩
  | cons c a ih =>
    cases b with
    | nil =>
      refine ⟨fun h => absurd h (by simp [noLater]), ?_⟩
      rintro (h | h)
      · cases h
      · cases h
    | cons d b =>
      rw [noLater, Bool.or_eq_true, decide_eq_true_eq, Bool.and_eq_true, beq_iff_eq, ih]
      constructor
      · rintro (h | ⟨rfl, rfl | h⟩)
        · exact .inr (.rel h)
        · exact .inl rfl
        · exact .inr (.cons h)
      · rintro (h | h)
        · obtain ⟨rfl, rfl⟩ := List.cons.inj h
          exact .inr ⟨rfl, .inl rfl⟩
        · cases h with
          | rel h => exact .inl h
          | cons h => exact .inr ⟨rfl, .inr h⟩

theorem Before.trans {a b c : Text} (hab : a.Before b) (hbc : b.Before c) : a.Before c :=
  List.lex_trans Nat.lt_trans hab hbc

theorem noLater_trans {a b c : Text} (hab : noLater a b = true) (hbc : noLater b c = true) :
    noLater a c = true := by
  rw [noLater_iff] at hab hbc ⊢
  rcases hab with rfl | hab
  · exact hbc
  · rcases hbc with rfl | hbc
    · exact .inr hab
    · exact .inr (hab.trans hbc)

theorem noLater_total (a b : Text) : (noLater a b || noLater b a) = true := by
  rw [Bool.or_eq_true, noLater_iff, noLater_iff]
  by_cases hab : a.Before b
  · exact .inl (.inr hab)
  by_cases hba : b.Before a
  · exact .inr (.inr hba)
  have heq : ∀ c d : Char, ¬ c.toNat < d.toNat → ¬ d.toNat < c.toNat → c = d :=
    fun c d hcd hdc => Char.toNat_inj.1 (Nat.le_antisymm (Nat.le_of_not_lt hdc) (Nat.le_of_not_lt hcd))
  exact .inl (.inl (List.lex_trichotomous heq hba hab))

/-! ### Lists in order -/

theorem Before.irrefl (a : Text) : ¬ a.Before a :=
  List.lex_irrefl (fun c => Nat.lt_irrefl c.toNat) a

theorem nodup_of_pairwise {texts : List Text} (h : texts.Pairwise Before) : texts.Nodup := by
  refine h.imp ?_
  rintro a _ hab rfl
  exact Before.irrefl a hab

/-- Two lists in order with the same members are the same. -/
theorem eq_of_pairwise {texts texts' : List Text} (h : texts.Pairwise Before)
    (h' : texts'.Pairwise Before) (hmem : ∀ t, t ∈ texts ↔ t ∈ texts') : texts = texts' := by
  have hperm : texts.Perm texts' :=
    (List.perm_ext_iff_of_nodup (nodup_of_pairwise h) (nodup_of_pairwise h')).2 hmem
  exact hperm.eq_of_pairwise
    (fun a _ _ _ hab hba => absurd (hab.trans hba) (Before.irrefl a)) h h'

/-- Sorting puts distinct texts in order. -/
theorem pairwise_mergeSort {texts : List Text} (h : texts.Nodup) :
    (texts.mergeSort noLater).Pairwise Before := by
  have hsorted : (texts.mergeSort noLater).Pairwise fun a b => noLater a b = true := by
    apply List.pairwise_mergeSort
    · exact fun _ _ _ => noLater_trans
    · exact noLater_total
  have hdistinct : (texts.mergeSort noLater).Nodup :=
    (List.mergeSort_perm texts noLater).nodup_iff.2 h
  exact (hsorted.and hdistinct).imp fun ⟨hab, hne⟩ => (noLater_iff.1 hab).resolve_left hne

end LogicTrainer.Text
