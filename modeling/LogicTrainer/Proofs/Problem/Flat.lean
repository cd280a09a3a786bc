import LogicTrainer.Proofs.Problem.Structured
import LogicTrainer.Proofs.Formula.Continuation
import LogicTrainer.Problem.Exercise
import LogicTrainer.Random.Script

/-! Flat formulas have a pair of parentheses for each operator to come.

A flat text has none of the parentheses of the strict form, and every blank of it: the strict form
is longer by a pair for each operator (`FlatText`). A term is such a text, and such a text goes on
with a connective and a term, wherever the grammar puts the connective (`FlatText.exists_continues`).
So is everything that is drawn, by induction on the connectives that are left to draw
(`always_tail`), and a text with two of them is worth grouping whatever is drawn.

The main statement is `flat_formulas_lack_their_parentheses`. -/
namespace LogicTrainer

/-- An atom holds no glyph. -/
theorem Atom.not_mem_of_isGlyph {name : Text} (h : Atom.isAtom name = true) {c : Char}
    (hc : Token.isGlyph c = true) : c ∉ name := by
  obtain ⟨d, rfl⟩ := Atom.exists_char_of_isAtom h
  intro hmem
  obtain rfl := List.mem_singleton.1 hmem
  rw [Atom.not_isGlyph h] at hc
  cases hc

namespace Problem
open Formula Draw

/-- A text without parentheses, derived at a level as a formula that negates leaves only. Its strict
form has a pair of parentheses more for each operator, and is the same otherwise. -/
structure FlatText (level : Level) (text : Text) (f : Formula) : Prop where
  derives : Derives level (Token.ofFormula text) f
  lparen_not_mem : '(' ∉ text
  rparen_not_mem : ')' ∉ text
  negatesLeaves : f.NegatesLeaves
  negations_eq : f.negations = text.count negationGlyph
  length_render : f.render.length = text.length + 2 * (f.binaries + f.negations)

namespace FlatText

/-! ### Terms -/

section
variable {name : Text} (h : Atom.isAtom name = true)
include h

theorem ofName : FlatText .negation name (.atom name) where
  derives := derives_of_isAtom h
  lparen_not_mem := Atom.not_mem_of_isGlyph h (by decide)
  rparen_not_mem := Atom.not_mem_of_isGlyph h (by decide)
  negatesLeaves := trivial
  negations_eq := (List.count_eq_zero.2 (Atom.not_mem_of_isGlyph h (by decide))).symm
  length_render := rfl

theorem ofNegation : FlatText .negation (negationGlyph :: ' ' :: name) (.neg (.atom name)) where
  derives := by
    rw [Token.ofFormula_glyph (by decide), (Token.ofFormula_blank _).1]
    exact .negate (ofName h).derives
  lparen_not_mem := by simp [(ofName h).lparen_not_mem, negationGlyph]
  rparen_not_mem := by simp [(ofName h).rparen_not_mem, negationGlyph]
  negatesLeaves := ⟨name, rfl⟩
  negations_eq := by
    rw [List.count_cons_self, List.count_cons_of_ne (by decide), ← (ofName h).negations_eq]
    rfl
  length_render := by simp [render, binaries, negations]

end

/-! ### Going on -/

/-- A flat text goes on with a connective and a term. -/
theorem exists_continues {level : Level} {text term : Text} {f g : Formula} {op : Connective}
    (h : FlatText level text f) (hg : FlatText .negation term g) (hrank : level.rank ≤ op.rank) :
    ∃ f', Continues op g f f' ∧ FlatText level (text ++ ' ' :: op.glyph :: ' ' :: term) f' := by
  obtain ⟨f', hf', hd⟩ := h.derives.exists_continues hg.derives hrank
  have hop : op.glyph ≠ '(' ∧ op.glyph ≠ ')' ∧ op.glyph ≠ '¬' := by cases op <;> decide
  refine ⟨f', hf', ?_, ?_, ?_, hf'.negatesLeaves h.negatesLeaves hg.negatesLeaves, ?_, ?_⟩
  · rwa [Token.ofFormula_connective]
  · simp [h.lparen_not_mem, hg.lparen_not_mem, hop.1.symm]
  · simp [h.rparen_not_mem, hg.rparen_not_mem, hop.2.1.symm]
  · rw [hf'.negations_eq, h.negations_eq, hg.negations_eq]
    simp [hop.2.2, negationGlyph]
  · rw [hf'.length_render, hf'.binaries_eq, hf'.negations_eq, h.length_render, hg.length_render]
    simp only [List.length_append, List.length_cons]
    omega

end FlatText

/-- Within the depth that is allowed unless another is set, a flat text with fewer connectives is
read. -/
theorem FlatText.ofText_eq {level : Level} {text : Text} {f : Formula} (h : FlatText level text f)
    (hlt : (f.binaries : Int) < defaultMaxDepth) : ofText defaultMaxDepth text = .ok f := by
  have hdepth := h.negatesLeaves.depth_le
  exact parse_eq_ok_iff.2 ⟨h.derives.spells, by omega⟩

/-! ### What is drawn -/

section
variable {σ : Type} (src : Source σ)

theorem always_connective : Always (connective src) fun _ => True :=
  fun _ => ⟨_, _, rfl, trivial⟩

variable {names : List Text} (hne : names ≠ []) (hatoms : ∀ name ∈ names, Atom.isAtom name = true)
include hne hatoms

/-- A term has no connective. -/
theorem always_term :
    Always (term src names) fun text => ∃ f, FlatText .negation text f ∧ f.binaries = 0 := by
  refine (always_happens src negationChance).bind fun isNegation _ => ?_
  split
  · refine (always_choose src hne).bind fun name h => Always.pure ?_
    exact ⟨_, FlatText.ofNegation (hatoms name h), rfl⟩
  · exact (always_choose src hne).mono fun name h => ⟨_, FlatText.ofName (hatoms name h), rfl⟩

/-- Every flat text goes on with what is drawn. -/
theorem always_tail (length : Nat) :
    Always (tail src names length) fun rest => ∀ text f, FlatText (.chain .iff) text f →
      ∃ f', FlatText (.chain .iff) (text ++ rest) f' ∧ f'.binaries = f.binaries + length := by
  induction length with
  | zero =>
    refine Always.pure fun text f h => ⟨f, ?_, rfl⟩
    rwa [List.append_nil]
  | succ length ih =>
    refine (always_connective src).bind fun op _ => ?_
    refine (always_term src hne hatoms).bind fun last ⟨g, hg, hnone⟩ => ih.bind fun rest hrest => ?_
    refine Always.pure fun text f h => ?_
    have hrank : Level.rank (.chain .iff) ≤ op.rank := by cases op <;> decide
    obtain ⟨k, hk, hnext⟩ := h.exists_continues hg hrank
    obtain ⟨f', hf', hcount⟩ := hrest _ _ hnext
    refine ⟨f', ?_, ?_⟩
    · simpa using hf'
    · rw [hcount, hk.binaries_eq, hnone]
      omega

/-- What is drawn is a flat text with as many connectives as were asked for. -/
theorem always_flat (length : Int) :
    Always (flat src length names) fun raw =>
      ∃ f, FlatText (.chain .iff) raw f ∧ f.binaries = length.toNat := by
  refine (always_term src hne hatoms).bind fun first ⟨g, hg, hnone⟩ => ?_
  refine (always_tail src hne hatoms length.toNat).bind fun rest hrest => Always.pure ?_
  have hfirst : FlatText (.chain .iff) first g := {hg with derives := hg.derives.spells}
  obtain ⟨f, hf, hcount⟩ := hrest first g hfirst
  exact ⟨f, hf, by rw [hcount, hnone, Nat.zero_add]⟩

end

/-! ### What is worth grouping -/

/-- A flat text comes with its strict form, which is longer by more than one pair of parentheses
where there are two connectives. -/
theorem FlatText.groupingOf_eq {level : Level} {raw : Text} {f : Formula} (h : FlatText level raw f)
    (hlt : (f.binaries : Int) < defaultMaxDepth) (htwo : 2 ≤ f.binaries) :
    groupingOf raw = ⟨raw, f.render⟩ ∧ raw.length + 2 < f.render.length := by
  have hlength := h.length_render
  constructor
  · rw [groupingOf, h.ofText_eq hlt]
    rfl
  · omega

/-- What is longer by more than one pair of parentheses is not drawn again. -/
theorem groupingWithin_of_longer {σ : Type} {src : Source σ} {bounds : Bounds} {s s₁ s₂ : σ}
    {n : Int} {raw form : Text}
    (hn : src.between bounds.syntaxMinTerms bounds.syntaxMaxTerms s = .ok (n, s₁))
    (hraw : flat src n Atom.variables s₁ = .ok (raw, s₂)) (hproblem : groupingOf raw = ⟨raw, form⟩)
    (hlonger : raw.length + 2 < form.length) (attempts : Nat) (last : Grouping.Problem) :
    groupingWithin src bounds (attempts + 1) last s = .ok (⟨raw, form⟩, s₂) := by
  have hworth : worthGrouping ⟨raw, form⟩ = true := decide_eq_true hlonger
  rw [groupingWithin, bind_eq_of_eq_ok hn, bind_eq_of_eq_ok hraw, hproblem, if_pos hworth]
  rfl

/-- Whatever the source answers, a flat formula is drawn without parentheses, and is read with as
many binary connectives as were asked for and only leaves negated. Its strict form is longer by a
pair of parentheses for each operator, so from two connectives on the first one drawn is the
problem. -/
theorem flat_formulas_lack_their_parentheses {σ : Type} (src : Source σ) :
    (∀ (n : Int) (names : List Text), 0 ≤ n → n < defaultMaxDepth → names ≠ [] →
      (∀ name ∈ names, Atom.isAtom name = true) →
      Always (flat src n names) fun raw => '(' ∉ raw ∧ ')' ∉ raw ∧
        ∃ f form, ofText defaultMaxDepth raw = .ok f ∧
          (f.binaries : Int) = n ∧ f.negations = raw.count negationGlyph ∧ f.NegatesLeaves ∧
          canonical? defaultMaxDepth raw = some form ∧
          (form.length : Int) = raw.length + 2 * (n + raw.count negationGlyph)) ∧
    (∀ bounds : Bounds, 2 ≤ bounds.syntaxMinTerms →
      bounds.syntaxMinTerms ≤ bounds.syntaxMaxTerms → bounds.syntaxMaxTerms < defaultMaxDepth →
      1 ≤ bounds.syntaxAttempts → ∀ s, ∃ n s₁ raw s₂ f form,
        src.between bounds.syntaxMinTerms bounds.syntaxMaxTerms s = .ok (n, s₁) ∧
        flat src n Atom.variables s₁ = .ok (raw, s₂) ∧
        grouping src bounds s = .ok (⟨raw, form⟩, s₂) ∧
        canonical? defaultMaxDepth raw = some form ∧ raw.length + 2 < form.length ∧
        ofText defaultMaxDepth raw = .ok f ∧
        bounds.syntaxMinTerms ≤ f.binaries ∧ f.binaries ≤ bounds.syntaxMaxTerms) := by
  constructor
  · intro n names hn hmax hne hatoms
    refine (always_flat src hne hatoms n).mono fun raw ⟨f, hf, hcount⟩ => ?_
    have hread := hf.ofText_eq (by omega)
    have hlength := hf.length_render
    rw [hf.negations_eq] at hlength
    refine ⟨hf.lparen_not_mem, hf.rparen_not_mem, f, f.render, hread, by omega, hf.negations_eq,
      hf.negatesLeaves, canonical?_eq_some_iff.2 ⟨f, hread, rfl⟩, by omega⟩
  · intro bounds hmin hle hmax hattempts s
    obtain ⟨n, s₁, hn, hlow, hhigh⟩ := always_between src hle s
    obtain ⟨raw, s₂, hraw, f, hf, hcount⟩ :=
      always_flat src (show Atom.variables ≠ [] by decide) (by decide) n s₁
    have hread := hf.ofText_eq (by omega)
    obtain ⟨hproblem, hlonger⟩ := hf.groupingOf_eq (by omega) (by omega)
    have hpositive : 0 < bounds.syntaxAttempts.toNat := by omega
    obtain ⟨attempts, hsucc⟩ := Nat.exists_eq_add_of_lt hpositive
    refine ⟨n, s₁, raw, s₂, f, f.render, hn, hraw, ?_, canonical?_eq_some_iff.2 ⟨f, hread, rfl⟩,
      hlonger, hread, by omega, by omega⟩
    rw [grouping, hsucc, Nat.zero_add]
    exact groupingWithin_of_longer hn hraw hproblem hlonger attempts _

/-- Two connectives: first with a literal at a leaf, and the looser connective in front, then as a
problem of which only one is to be tried, with the tighter connective in front. -/
theorem flat_formulas_lack_their_parentheses_two_connectives :
    let bounds : Bounds := {Bounds.standard with
      syntaxMinTerms := 2, syntaxMaxTerms := 2, syntaxAttempts := 1}
    let first : Text := "p ∨ ¬ T ∧ p".toList
    let second : Text := "P ∧ ¬ Q ⇒ R".toList
    (∃ s f form, flat Script.source 2 [['p'], ['T']] (Script.ofList [90, 0, 10, 0, 1, 90, 90, 0]) =
        .ok (first, s) ∧
      ofText defaultMaxDepth first = .ok f ∧ (f.binaries : Int) = 2 ∧ f.NegatesLeaves ∧
      canonical? defaultMaxDepth first = some form ∧ (form.length : Int) = 11 + 2 * (2 + 1)) ∧
    ∃ s form, grouping Script.source bounds (Script.ofList [0, 90, 0, 80, 0, 1, 30, 90, 2]) =
        .ok (⟨second, form⟩, s) ∧
      canonical? defaultMaxDepth second = some form ∧ 11 + 2 < form.length := by
  intro bounds first second
  obtain ⟨hflat, hgrouping⟩ := flat_formulas_lack_their_parentheses Script.source
  constructor
  · have hdrawn : flat Script.source 2 [['p'], ['T']] (.ofList [90, 0, 10, 0, 1, 90, 90, 0]) =
        .ok (first, ⟨#[90, 0, 10, 0, 1, 90, 90, 0], 8⟩) := by rfl
    obtain ⟨raw, s, hraw, -, -, f, form, hread, hcount, -, hleaves, hform, hlength⟩ :=
      hflat 2 [['p'], ['T']] (by decide) (by decide) (by decide) (by decide) _
    obtain ⟨rfl, rfl⟩ := Prod.mk.inj (Except.ok.inj (hdrawn.symm.trans hraw))
    exact ⟨_, f, form, hraw, hread, hcount, hleaves, hform, hlength⟩
  · have hcount : Script.source.between 2 2 (.ofList [0, 90, 0, 80, 0, 1, 30, 90, 2]) =
        .ok (2, ⟨#[0, 90, 0, 80, 0, 1, 30, 90, 2], 1⟩) := by rfl
    have hdrawn : flat Script.source 2 Atom.variables ⟨#[0, 90, 0, 80, 0, 1, 30, 90, 2], 1⟩ =
        .ok (second, ⟨#[0, 90, 0, 80, 0, 1, 30, 90, 2], 9⟩) := by rfl
    obtain ⟨n, s₁, raw, s₂, f, form, hn, hraw, hproblem, hform, hlonger, -, -, -⟩ :=
      hgrouping bounds (by decide) (by decide) (by decide) (by decide) _
    obtain ⟨rfl, rfl⟩ := Prod.mk.inj (Except.ok.inj (hcount.symm.trans hn))
    obtain ⟨rfl, rfl⟩ := Prod.mk.inj (Except.ok.inj (hdrawn.symm.trans hraw))
    exact ⟨_, form, hproblem, hform, hlonger⟩

end Problem
end LogicTrainer
