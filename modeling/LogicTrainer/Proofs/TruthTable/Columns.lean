import LogicTrainer.Proofs.Formula.Parts
import LogicTrainer.Proofs.Text.Order
import LogicTrainer.TruthTable.Basic

/-! The columns of a truth table.

A column is the strict form of a proper part with an operator, and there is one for each such
part (`mem_keys_columnsOf_iff`). The sort allows equal neighbours, and no form is listed twice,
so the columns stand in strict order (`pairwise_columnsOf`): the shorter first, and equally
long ones in code point order. -/
namespace LogicTrainer.TruthTable
open Formula

/-- One column stands before another. -/
def ColumnBefore (a b : Text) : Prop := a.length < b.length ∨ (a.length = b.length ∧ a.Before b)

/-- The test that sorts columns allows the order and equality. -/
theorem columnNoLater_iff {a b : Text} : columnNoLater a b = true ↔ a = b ∨ ColumnBefore a b := by
  rw [columnNoLater, Bool.or_eq_true, decide_eq_true_eq, Bool.and_eq_true, beq_iff_eq,
    Text.noLater_iff]
  constructor
  · rintro (h | ⟨hlen, rfl | h⟩)
    · exact .inr (.inl h)
    · exact .inl rfl
    · exact .inr (.inr ⟨hlen, h⟩)
  · rintro (rfl | h | ⟨hlen, h⟩)
    · exact .inr ⟨rfl, .inl rfl⟩
    · exact .inl h
    · exact .inr ⟨hlen, .inr h⟩

theorem columnNoLater_trans {a b c : Text} (hab : columnNoLater a b = true)
    (hbc : columnNoLater b c = true) : columnNoLater a c = true := by
  simp only [columnNoLater, Bool.or_eq_true, decide_eq_true_eq, Bool.and_eq_true, beq_iff_eq]
    at hab hbc ⊢
  rcases hab with hab | ⟨hlen, hab⟩
  · exact .inl (by omega)
  · rcases hbc with hbc | ⟨hlen', hbc⟩
    · exact .inl (by omega)
    · exact .inr ⟨hlen.trans hlen', Text.noLater_trans hab hbc⟩

theorem columnNoLater_total (a b : Text) : (columnNoLater a b || columnNoLater b a) = true := by
  have hsame := Text.noLater_total a b
  simp only [columnNoLater, Bool.or_eq_true, decide_eq_true_eq, Bool.and_eq_true, beq_iff_eq]
    at hsame ⊢
  rcases Nat.lt_trichotomy a.length b.length with h | h | h
  · exact .inl (.inl h)
  · exact hsame.imp (fun hab => .inr ⟨h, hab⟩) fun hba => .inr ⟨h.symm, hba⟩
  · exact .inr (.inl h)

section
variable (f : Formula)

/-- Sorting changes nothing but the order: the columns are the forms but that of the whole. -/
theorem mem_columnsOf_iff {entry : Text × Formula} :
    entry ∈ columnsOf f ↔ entry ∈ f.compoundsByForm ∧ entry.1 ≠ f.render := by
  rw [columnsOf, List.mem_mergeSort, List.mem_filter, bne_iff_ne]

theorem keys_columnsOf_nodup : (columnsOf f).keys.Nodup := by
  have hperm := List.mergeSort_perm (f.compoundsByForm.filter fun entry => entry.1 != f.render)
    fun a b => columnNoLater a.1 b.1
  have hforms : (f.compoundsByForm.filter fun entry => entry.1 != f.render).Sublist
      f.compoundsByForm := List.filter_sublist
  exact (hperm.map (·.1)).nodup_iff.2
    ((collects_compoundsByForm f).nodup.sublist (hforms.map (·.1)))

/-- The columns stand in strict order. -/
theorem pairwise_columnsOf : (columnsOf f).keys.Pairwise ColumnBefore := by
  have hsorted : (columnsOf f).Pairwise fun a b => columnNoLater a.1 b.1 = true := by
    apply List.pairwise_mergeSort
    · exact fun _ _ _ => columnNoLater_trans
    · exact fun _ _ => columnNoLater_total _ _
  have hdistinct := List.pairwise_map.1 (keys_columnsOf_nodup f)
  refine List.pairwise_map.2 ((hsorted.and hdistinct).imp fun ⟨hle, hne⟩ => ?_)
  exact (columnNoLater_iff.1 hle).resolve_left hne

variable {f}

/-- What stands under a column is a proper part with this strict form. -/
theorem isProperPart_of_mem_columnsOf {c : Text} {g : Formula} (h : (c, g) ∈ columnsOf f) :
    g.IsProperPart f ∧ g.IsCompound ∧ g.render = c := by
  obtain ⟨hmem, hne⟩ := (mem_columnsOf_iff f).1 h
  obtain ⟨hg, hform⟩ := (collects_compoundsByForm f).sound _ hmem
  obtain ⟨hcompound, hpart⟩ := mem_compounds_iff.1 hg
  refine ⟨(isPart_iff.1 hpart).resolve_left ?_, hcompound, hform⟩
  rintro rfl
  exact hne hform.symm

/-- The columns are the strict forms of the proper parts with an operator. -/
theorem mem_keys_columnsOf_iff {c : Text} :
    c ∈ (columnsOf f).keys ↔ ∃ g : Formula, g.IsProperPart f ∧ g.IsCompound ∧ g.render = c := by
  constructor
  · intro hc
    obtain ⟨⟨c, g⟩, h, rfl⟩ := List.mem_map.1 hc
    exact ⟨g, isProperPart_of_mem_columnsOf h⟩
  · rintro ⟨g, hpart, hcompound, rfl⟩
    have hg := mem_compounds_iff.2 ⟨hcompound, isPart_iff.2 (.inr hpart)⟩
    obtain ⟨entry, he, hform⟩ := List.mem_map.1 ((collects_compoundsByForm f).complete g hg)
    refine List.mem_map.2 ⟨entry, (mem_columnsOf_iff f).2 ⟨he, ?_⟩, hform⟩
    rw [hform]
    exact hpart.render_ne

end

end LogicTrainer.TruthTable
