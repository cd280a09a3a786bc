import LogicTrainer.Proofs.Entries
import LogicTrainer.Proofs.Formula.StrictForm
import LogicTrainer.Formula.Compound

/-! The parts of a formula.

An operand stands right below an operator, and a proper part is an operand, an operand of an
operand, and so on. Whatever is listed by walking down a formula is a part with an operator,
and every such part is listed (`mem_compounds_iff`). The list by strict forms has an entry for
each form, and the entry is a part of this form (`collects_compoundsByForm`). A proper part has
a shorter strict form (`IsProperPart.length_render_lt`), so the form of the whole is not among
those of its proper parts (`IsProperPart.render_ne`). -/
namespace LogicTrainer.Formula

/-- A formula stands right below the operator of another. -/
inductive IsOperand : Formula → Formula → Prop where
  | neg (f : Formula) : IsOperand f (.neg f)
  | left (op : Connective) (f g : Formula) : IsOperand f (.binary op f g)
  | right (op : Connective) (f g : Formula) : IsOperand g (.binary op f g)

/-- A formula stands below another, or is the whole of it. -/
def IsPart : Formula → Formula → Prop := Relation.ReflTransGen IsOperand

/-- A formula stands below another. -/
def IsProperPart : Formula → Formula → Prop := Relation.TransGen IsOperand

/-- A formula has an operator at its root. -/
def IsCompound (f : Formula) : Prop := ∀ name, f ≠ .atom name

theorem isPart_iff {g f : Formula} : g.IsPart f ↔ f = g ∨ g.IsProperPart f :=
  Relation.reflTransGen_iff_eq_or_transGen

/-- A part is the whole, or a part of an operand. -/
theorem isPart_cases {g f : Formula} : g.IsPart f ↔ f = g ∨ ∃ k, g.IsPart k ∧ k.IsOperand f :=
  Relation.ReflTransGen.cases_tail_iff _ _ _

/-! ### What operands inherit -/

theorem IsOperand.length_render_lt {g f : Formula} (h : g.IsOperand f) :
    g.render.length < f.render.length := by
  cases h with
  | neg | left | right =>
    simp only [render, List.length_cons, List.length_append, List.length_nil]
    omega

theorem IsOperand.depth_lt {g f : Formula} (h : g.IsOperand f) : g.depth < f.depth := by
  cases h with
  | neg | left | right =>
    simp only [depth]
    omega

theorem IsOperand.isProper {g f : Formula} (h : g.IsOperand f) (hf : f.IsProper) : g.IsProper := by
  cases h with
  | neg => exact hf.operand
  | left => exact hf.left
  | right => exact hf.right

theorem IsOperand.leaves_subset {g f : Formula} (h : g.IsOperand f) : g.leaves ⊆ f.leaves := by
  cases h with
  | neg => exact List.Subset.refl _
  | left => exact List.subset_append_left _ _
  | right => exact List.subset_append_right _ _

/-- The leaves of a part are leaves of the whole. -/
theorem IsPart.leaves_subset {g f : Formula} (h : g.IsPart f) : g.leaves ⊆ f.leaves := by
  induction h with
  | refl => exact List.Subset.refl _
  | tail _ h ih => exact List.Subset.trans ih h.leaves_subset

/-- The strict form of a proper part is shorter. -/
theorem IsProperPart.length_render_lt {g f : Formula} (h : g.IsProperPart f) :
    g.render.length < f.render.length := by
  induction h with
  | single h => exact h.length_render_lt
  | tail _ h ih => exact Nat.lt_trans ih h.length_render_lt

theorem IsProperPart.render_ne {g f : Formula} (h : g.IsProperPart f) : g.render ≠ f.render :=
  fun heq => Nat.ne_of_lt h.length_render_lt (congrArg List.length heq)

theorem IsProperPart.depth_lt {g f : Formula} (h : g.IsProperPart f) : g.depth < f.depth := by
  induction h with
  | single h => exact h.depth_lt
  | tail _ h ih => exact Nat.lt_trans ih h.depth_lt

theorem IsProperPart.isProper {g f : Formula} (h : g.IsProperPart f) (hf : f.IsProper) :
    g.IsProper := by
  induction h with
  | single h => exact h.isProper hf
  | tail _ h ih => exact ih (h.isProper hf)

/-- A proper part is read from its strict form wherever the whole is. -/
theorem IsProperPart.ofText_render {g f : Formula} (h : g.IsProperPart f) (hf : f.IsProper)
    {maxDepth : Int} (hd : (f.depth : Int) ≤ maxDepth) : ofText maxDepth g.render = .ok g := by
  have := h.depth_lt
  exact Formula.ofText_render (h.isProper hf) (by omega)

/-- The strict form of an operator starts with a parenthesis. -/
theorem IsCompound.exists_render {f : Formula} (h : f.IsCompound) : ∃ rest, f.render = '(' :: rest := by
  cases f with
  | atom name => exact absurd rfl (h name)
  | neg f => exact ⟨_, rfl⟩
  | binary op f g => exact ⟨_, rfl⟩

/-- No atom is written like a formula with an operator. -/
theorem IsCompound.not_isAtom_render {f : Formula} (h : f.IsCompound) :
    Atom.isAtom f.render = false := by
  obtain ⟨rest, hrest⟩ := h.exists_render
  refine Bool.eq_false_iff.2 fun ha => ?_
  rw [hrest] at ha
  obtain ⟨c, hc⟩ := Atom.exists_char_of_isAtom ha
  obtain ⟨rfl, rfl⟩ := List.cons.inj hc
  exact absurd ha (by decide)

/-! ### The list of compound parts -/

/-- Walking down a formula lists the parts that have an operator. -/
theorem mem_compounds_iff {f g : Formula} : g ∈ f.compounds ↔ g.IsCompound ∧ g.IsPart f := by
  induction f with
  | atom name =>
    refine ⟨fun h => absurd h List.not_mem_nil, fun ⟨hg, h⟩ => ?_⟩
    rcases isPart_cases.1 h with rfl | ⟨k, -, hk⟩
    · exact absurd rfl (hg name)
    · cases hk
  | neg f ih =>
    rw [compounds, List.mem_cons, ih]
    constructor
    · rintro (rfl | ⟨hg, h⟩)
      · exact ⟨fun _ he => (by cases he), .refl⟩
      · exact ⟨hg, h.tail (.neg f)⟩
    · rintro ⟨hg, h⟩
      rcases isPart_cases.1 h with rfl | ⟨k, h, hk⟩
      · exact .inl rfl
      · cases hk
        exact .inr ⟨hg, h⟩
  | binary op f k ihf ihk =>
    rw [compounds, List.mem_cons, List.mem_append, ihf, ihk]
    constructor
    · rintro (rfl | ⟨hg, h⟩ | ⟨hg, h⟩)
      · exact ⟨fun _ he => (by cases he), .refl⟩
      · exact ⟨hg, h.tail (.left op f k)⟩
      · exact ⟨hg, h.tail (.right op f k)⟩
    · rintro ⟨hg, h⟩
      rcases isPart_cases.1 h with rfl | ⟨l, h, hl⟩
      · exact .inl rfl
      · cases hl with
        | left => exact .inr (.inl ⟨hg, h⟩)
        | right => exact .inr (.inr ⟨hg, h⟩)

/-! ### The list by strict forms -/

/-- One more part by its strict form, unless the form is there. -/
def enterForm (found : Entries Formula) (part : Formula) : Entries Formula :=
  if (Entries.get? part.render found).isSome then found else found ++ [(part.render, part)]

section
variable {found : Entries Formula} {part : Formula}

theorem mem_enterForm {entry : Text × Formula} (h : entry ∈ enterForm found part) :
    entry ∈ found ∨ entry = (part.render, part) := by
  unfold enterForm at h
  split at h
  · exact .inl h
  · exact (List.mem_append.1 h).imp_right List.mem_singleton.1

theorem mem_keys_enterForm_iff {form : Text} :
    form ∈ (enterForm found part).keys ↔ form ∈ found.keys ∨ form = part.render := by
  unfold enterForm
  split
  · next hform =>
    rw [Entries.isSome_get?_iff] at hform
    exact ⟨.inl, fun h => h.elim id fun he => he ▸ hform⟩
  · rw [Entries.keys, List.map_append, List.mem_append, List.map_singleton, List.mem_singleton]
    rfl

theorem keys_enterForm_nodup (h : found.keys.Nodup) : (enterForm found part).keys.Nodup := by
  unfold enterForm
  split
  · exact h
  · next hform =>
    rw [Entries.isSome_get?_iff] at hform
    rw [← Entries.insert_of_not_mem hform]
    exact Entries.keys_insert_nodup _ _ h

end

/-- Entries for the strict forms of some parts, one for each. -/
structure Collects (parts : List Formula) (found : Entries Formula) : Prop where
  nodup : found.keys.Nodup
  sound : ∀ entry ∈ found, entry.2 ∈ parts ∧ entry.2.render = entry.1
  complete : ∀ part ∈ parts, part.render ∈ found.keys

theorem Collects.enter {parts : List Formula} {found : Entries Formula}
    (h : Collects parts found) (part : Formula) :
    Collects (parts ++ [part]) (enterForm found part) where
  nodup := keys_enterForm_nodup h.nodup
  sound entry hentry := by
    rcases mem_enterForm hentry with hold | rfl
    · obtain ⟨hpart, hform⟩ := h.sound entry hold
      exact ⟨List.mem_append_left _ hpart, hform⟩
    · exact ⟨List.mem_append_right _ List.mem_cons_self, rfl⟩
  complete p hp := by
    rw [mem_keys_enterForm_iff]
    rcases List.mem_append.1 hp with hp | hp
    · exact .inl (h.complete p hp)
    · exact .inr (congrArg render (List.mem_singleton.1 hp))

theorem Collects.foldl {parts : List Formula} {found : Entries Formula} (h : Collects parts found)
    (more : List Formula) : Collects (parts ++ more) (more.foldl enterForm found) := by
  induction more generalizing parts found with
  | nil => rwa [List.append_nil]
  | cons part more ih =>
    rw [List.append_cons]
    exact ih (h.enter part)

theorem collects_nil : Collects [] [] where
  nodup := List.nodup_nil
  sound _ h := absurd h List.not_mem_nil
  complete _ h := absurd h List.not_mem_nil

/-- Every compound part has an entry by its strict form. -/
theorem collects_compoundsByForm (f : Formula) : Collects f.compounds f.compoundsByForm :=
  collects_nil.foldl f.compounds

end LogicTrainer.Formula
