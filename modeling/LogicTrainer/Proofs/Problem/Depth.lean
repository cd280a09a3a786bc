import LogicTrainer.Proofs.Problem.Structured
import LogicTrainer.Proofs.Formula.Depth
import LogicTrainer.Proofs.Formula.Variables
import LogicTrainer.Random.Script

/-! Structured formulas fit in their room.

Each way of making a structured formula spells a formula, with room for one level more than its
parts have (`Fits.negation`, `Fits.binary`). A name may stand wherever a leaf may come early, and
elsewhere only where the room is used up (`Fits.name`). So what is drawn always spells a formula
over the names, and its leaves are no deeper than there is room; where no leaf comes early, they
are all as deep as that (`always_fits`).

The main statement is `structured_formulas_fit`. -/
namespace LogicTrainer

namespace Formula

/-- How deep each leaf is, from left to right. -/
def leafDepths : Formula → List Nat
  | .atom _ => [0]
  | .neg operand => operand.leafDepths.map (· + 1)
  | .binary _ left right => (left.leafDepths ++ right.leafDepths).map (· + 1)

/-- A formula is as deep as one of its leaves. -/
theorem depth_mem_leafDepths (f : Formula) : f.depth ∈ f.leafDepths := by
  induction f with
  | atom name => exact List.mem_singleton.2 rfl
  | neg f ih => exact List.mem_map_of_mem ih
  | binary op f g ihf ihg =>
    refine List.mem_map_of_mem (List.mem_append.2 ?_)
    rcases Nat.le_total f.depth g.depth with h | h
    · rw [Nat.max_eq_right h]
      exact .inr ihg
    · rw [Nat.max_eq_left h]
      exact .inl ihf

end Formula

namespace Problem
open Formula Draw

/-- A text spells a formula over a list of names, whose leaves are no deeper than there is room,
and no less deep where no leaf comes early. -/
structure Fits (names : List Text) (leaf : Chance) (room : Nat) (text : Text) (f : Formula) :
    Prop where
  derives : Derives .negation (Token.ofFormula text) f
  leaves : ∀ name ∈ f.leaves, name ∈ names
  depths : ∀ d ∈ f.leafDepths, d ≤ room ∧ (leaf.num ≤ 0 → d = room)

section
variable {names : List Text} {leaf : Chance} {room : Nat}

/-- A name where a leaf may come. -/
theorem Fits.name {name : Text} (h : name ∈ names) (hatom : Atom.isAtom name = true)
    (hroom : leaf.num ≤ 0 → room = 0) : Fits names leaf room name (.atom name) where
  derives := derives_of_isAtom hatom
  leaves n hn := List.mem_singleton.1 hn ▸ h
  depths d hd := by
    obtain rfl := List.mem_singleton.1 hd
    exact ⟨Nat.zero_le _, fun hleaf => (hroom hleaf).symm⟩

/-- One level more, with all its leaves one deeper. -/
theorem depths_succ {depths : List Nat} (h : ∀ d ∈ depths, d ≤ room ∧ (leaf.num ≤ 0 → d = room)) :
    ∀ d ∈ depths.map (· + 1), d ≤ room + 1 ∧ (leaf.num ≤ 0 → d = room + 1) := by
  intro d hd
  obtain ⟨d, hmem, rfl⟩ := List.mem_map.1 hd
  obtain ⟨hle, heq⟩ := h d hmem
  exact ⟨Nat.succ_le_succ hle, fun hleaf => congrArg Nat.succ (heq hleaf)⟩

theorem Fits.negation {inner : Text} {f : Formula} (h : Fits names leaf room inner f) :
    Fits names leaf (room + 1) (negationGlyph :: ' ' :: '(' :: inner ++ [')']) (.neg f) where
  derives := by
    rw [ofFormula_negation]
    exact .negate (.basic (.group h.derives.spells))
  leaves := h.leaves
  depths := depths_succ h.depths

theorem Fits.binary {left right : Text} {f g : Formula} (op : Connective)
    (hl : Fits names leaf room left f) (hr : Fits names leaf room right g) :
    Fits names leaf (room + 1) ('(' :: left ++ ' ' :: op.glyph :: ' ' :: right ++ [')'])
      (.binary op f g) where
  derives := by
    rw [ofFormula_binary]
    exact .basic (.group (hl.derives.join_negations hr.derives).spells)
  leaves n hn := (List.mem_append.1 hn).elim (hl.leaves n) (hr.leaves n)
  depths := depths_succ fun d hd => (List.mem_append.1 hd).elim (hl.depths d) (hr.depths d)

theorem Fits.depth_le {text : Text} {f : Formula} (h : Fits names leaf room text f) :
    f.depth ≤ room := (h.depths _ f.depth_mem_leafDepths).1

/-- The variables of what fits are among the names, in capitals. -/
theorem Fits.mem_variables {text : Text} {f : Formula} (h : Fits names leaf room text f) {v : Text}
    (hv : v ∈ Token.variables (Token.ofFormula text)) :
    v ∈ names.map Text.upper ∧ Atom.isLiteralName v = false := by
  have hs : Spells (Token.ofFormula text) f := h.derives.spells
  obtain ⟨name, hn, hname⟩ := mem_atoms_iff.1 (hs.mem_variables_iff.1 hv)
  obtain ⟨rfl, hvar⟩ := Atom.asVariable?_eq_some_iff.1 hname
  obtain ⟨-, hliteral⟩ := List.mem_filter.1 hvar
  exact ⟨List.mem_map_of_mem (h.leaves name hn), by simpa using hliteral⟩

end

section
variable {σ : Type} (src : Source σ)

/-- A leaf comes early only where it has a chance. -/
theorem always_leaf (leaf : Chance) (depth : Int) :
    Always (if depth > 0 then src.happens leaf else pure false) fun b => b = true → 0 < leaf.num := by
  split
  · exact always_happens src leaf
  · exact Always.pure (by simp)

variable {names : List Text} (hne : names ≠ [])
include hne

/-- What holds of a name wherever a leaf may come, and of each way to put parts together, with room
for one level more, holds of all that is drawn. -/
theorem always_structuredWithin {P : Nat → Text → Prop} {leaf : Chance}
    (hname : ∀ room, (leaf.num ≤ 0 → room = 0) → ∀ name ∈ names, P room name)
    (hnegation : ∀ room inner, P room inner →
      P (room + 1) (negationGlyph :: ' ' :: '(' :: inner ++ [')']))
    (hbinary : ∀ room op left right, P room left → P room right →
      P (room + 1) ('(' :: left ++ ' ' :: Connective.glyph op :: ' ' :: right ++ [')']))
    (room : Nat) (depth : Int) : Always (structuredWithin src names leaf room depth) (P room) := by
  have hleaf : ∀ room, (leaf.num ≤ 0 → room = 0) → Always (variableName src names) (P room) :=
    fun room h => (always_choose src hne).mono (hname room h)
  induction room generalizing depth with
  | zero => exact hleaf 0 fun _ => rfl
  | succ room ih =>
    refine (always_leaf src leaf depth).bind fun isLeaf hearly => ?_
    split
    · next h => exact hleaf _ fun hnone => absurd (hearly h) (by omega)
    refine (always_happens src negationChance).bind fun isNegation _ => ?_
    split
    · exact (ih _).bind fun inner h => Always.pure (hnegation room inner h)
    · refine (ih _).bind fun left hl => (ih _).bind fun right hr => ?_
      refine (always_choose src (by simp [Connective.all])).bind fun op _ => ?_
      exact Always.pure (hbinary room op left right hl hr)

/-- What is drawn always fits in its room. -/
theorem always_fits (hatoms : ∀ name ∈ names, Atom.isAtom name = true) (leaf : Chance) (room : Nat)
    (depth : Int) :
    Always (structuredWithin src names leaf room depth) fun text =>
      ∃ f, Fits names leaf room text f := by
  refine always_structuredWithin src hne (P := fun room text => ∃ f, Fits names leaf room text f)
    ?_ ?_ ?_ room depth
  · exact fun room h name hn => ⟨_, Fits.name hn (hatoms name hn) h⟩
  · exact fun room inner ⟨f, hf⟩ => ⟨_, hf.negation⟩
  · exact fun room op left right ⟨f, hf⟩ ⟨g, hg⟩ => ⟨_, hf.binary op hg⟩

end

/-- Whatever the source answers, a structured formula is drawn over a list of atoms that is not
empty. It is read as a formula no deeper than the room below its own depth, with names of the list
at its leaves. Where no leaf comes early, every leaf is as deep as there is room. -/
theorem structured_formulas_fit {σ : Type} (src : Source σ) (leaf : Chance) {maxDepth depth : Int}
    (hmax : maxDepth ≤ defaultMaxDepth) (hdepth : 0 ≤ depth) {names : List Text}
    (hne : names ≠ []) (hatoms : ∀ name ∈ names, Atom.isAtom name = true) :
    Always (structured src maxDepth names depth leaf) fun text =>
      ∃ f, ofText defaultMaxDepth text = .ok f ∧
        (f.depth : Int) ≤ max 0 (maxDepth - depth) ∧
        (∀ name ∈ f.leaves, name ∈ names) ∧
        (∀ v ∈ Token.variables (Token.ofFormula text),
          v ∈ names.map Text.upper ∧ Atom.isLiteralName v = false) ∧
        (leaf.num ≤ 0 → ∀ d ∈ f.leafDepths, (d : Int) = max 0 (maxDepth - depth)) := by
  have hroom : ((maxDepth - depth).toNat : Int) = max 0 (maxDepth - depth) := by omega
  have hpositive : 0 ≤ defaultMaxDepth := by decide
  refine (always_fits src hne hatoms leaf _ depth).mono fun text ⟨f, hf⟩ => ?_
  have hle : (f.depth : Int) ≤ max 0 (maxDepth - depth) := hroom ▸ Int.ofNat_le.2 hf.depth_le
  have hread : ofText defaultMaxDepth text = .ok f :=
    parse_eq_ok_iff.2 ⟨hf.derives.spells, by omega⟩
  refine ⟨f, hread, hle, hf.leaves, fun v => hf.mem_variables, fun hleaf d hd => ?_⟩
  rw [(hf.depths d hd).2 hleaf, hroom]

/-- Two negations of depth 2, of a variable and a literal, without early leaves. -/
theorem structured_formulas_fit_without_early_leaves :
    let names : List Text := [['p'], ['T']]
    let text : Text := "(¬ (p) ∧ ¬ (T))".toList
    ∃ s f, structured Script.source 2 names 0 noChance (Script.ofList [50, 0, 0, 0, 0, 0, 1, 0]) =
        .ok (text, s) ∧
      ofText defaultMaxDepth text = .ok f ∧ (f.depth : Int) ≤ max 0 (2 - 0) ∧
      (∀ name ∈ f.leaves, name ∈ names) ∧
      (∀ v ∈ Token.variables (Token.ofFormula text),
        v ∈ names.map Text.upper ∧ Atom.isLiteralName v = false) ∧
      ∀ d ∈ f.leafDepths, (d : Int) = max 0 (2 - 0) := by
  intro names text
  obtain ⟨drawn, s, hdrawn, f, hread, hdepth, hleaves, hvariables, hdeep⟩ :=
    structured_formulas_fit Script.source noChance (show (2 : Int) ≤ defaultMaxDepth by decide)
      (Int.le_refl 0) (show names ≠ [] by decide) (by decide)
      (Script.ofList [50, 0, 0, 0, 0, 0, 1, 0])
  have htext : (text, Script.mk #[50, 0, 0, 0, 0, 0, 1, 0] 8) = (drawn, s) :=
    Except.ok.inj (Eq.trans (by rfl) hdrawn)
  obtain rfl : text = drawn := congrArg Prod.fst htext
  exact ⟨s, f, hdrawn, hread, hdepth, hleaves, hvariables, hdeep (by decide)⟩

end Problem
end LogicTrainer
