import Mathlib.Logic.Function.Iterate
import LogicTrainer.Proofs.Formula.Stack
import LogicTrainer.Proofs.Formula.StrictForm
import LogicTrainer.Grouping

/-! Grouping is classified exactly.

A typed formula is compared with the strict form of what was read from it, and with nothing
else. This is enough: reading depends on the compact text alone (`ofText_eq_of_compact`), so a
text that is written like the strict form of any formula is read as that formula
(`IsWritten.ofText_eq`), and the strict form that it is compared with is the one it was written
like. What cannot be read is invalid, and what is left is loose. All of this holds as long as the
stack suffices for reading; a strict form that it does not suffice for is invalid as well
(`classifyOn_render_of_le_depth`).

The main statement is `classification_is_exact`. -/
namespace LogicTrainer.Grouping
open Formula

/-- A text is the strict form of a formula of the allowed depth, up to blanks and spellings. -/
structure IsWritten (maxDepth : Int) (t : Text) (f : Formula) : Prop where
  proper : f.IsProper
  depth_le : (f.depth : Int) ≤ maxDepth
  compact : t.compact = f.render.compact

/-- What is read depends on the compact text alone. -/
theorem ofText_eq_of_compact {maxDepth : Int} {s t : Text} (h : s.compact = t.compact) :
    ofText maxDepth s = ofText maxDepth t := by
  rw [ofText, ofText, Token.ofFormula, Token.ofFormula, h]

/-- Texts that are compactly the same are judged alike. -/
theorem verdictOf_congr {s t : Text} (h : s.compact = t.compact) : verdictOf s = verdictOf t := by
  funext outcome
  cases outcome with
  | error e => rfl
  | ok f => rw [verdictOf, verdictOf, h]

theorem IsWritten.ofText_eq {maxDepth : Int} {t : Text} {f : Formula}
    (h : IsWritten maxDepth t f) : ofText maxDepth t = .ok f := by
  rw [ofText_eq_of_compact h.compact]
  exact ofText_render h.proper h.depth_le

section
variable {maxDepth : Int} {t : Text} {f : Formula}

/-- A text is written like the strict form of what was read from it, or like none. -/
theorem isWritten_iff (hf : ofText maxDepth t = .ok f) {g : Formula} :
    IsWritten maxDepth t g ↔ f = g ∧ t.compact = f.render.compact := by
  constructor
  · intro h
    obtain rfl : f = g := Except.ok.inj (hf.symm.trans h.ofText_eq)
    exact ⟨rfl, h.compact⟩
  · rintro ⟨rfl, h⟩
    obtain ⟨hp, hd⟩ := isProper_of_ofText hf
    exact ⟨hp, hd, h⟩

theorem classify_of_ofText (hf : ofText maxDepth t = .ok f) : classify maxDepth t =
    ⟨if t.compact = f.render.compact then .correct else .loose, some f.render, none⟩ := by
  rw [classify, hf]
  rfl

theorem classify_of_error {e : ParseFailure} (he : ofText maxDepth t = .error e) :
    classify maxDepth t = ⟨.invalid, none, some e⟩ := by
  rw [classify, he]
  rfl

/-- The strict form of what was read is grouped as it should be. -/
theorem classify_render (hf : ofText maxDepth t = .ok f) :
    classify maxDepth f.render = ⟨.correct, some f.render, none⟩ := by
  rw [classify_of_ofText (ofText_render_of_ofText hf), if_pos rfl]

end

section
variable (maxDepth : Int) (t : Text)

/-- The form that is reported is that of the formula that was read. -/
theorem canonical_classify : (classify maxDepth t).canonical = canonical? maxDepth t := by
  unfold canonical?
  cases hf : ofText maxDepth t with
  | error e =>
    rw [classify_of_error hf]
    rfl
  | ok f =>
    rw [classify_of_ofText hf]
    rfl

theorem status_correct_iff :
    (classify maxDepth t).status = .correct ↔ ∃ f, IsWritten maxDepth t f := by
  cases hf : ofText maxDepth t with
  | error e =>
    rw [classify_of_error hf]
    refine ⟨fun h => (by cases h), fun ⟨f, h⟩ => ?_⟩
    cases hf.symm.trans h.ofText_eq
  | ok f =>
    rw [classify_of_ofText hf]
    simp [isWritten_iff hf]

theorem status_invalid_iff :
    (classify maxDepth t).status = .invalid ↔ ∃ e, ofText maxDepth t = .error e := by
  cases hf : ofText maxDepth t with
  | error e =>
    rw [classify_of_error hf]
    exact ⟨fun _ => ⟨e, rfl⟩, fun _ => rfl⟩
  | ok f =>
    rw [classify_of_ofText hf]
    constructor
    · intro h
      split at h <;> cases h
    · rintro ⟨e, he⟩
      cases he

/-- What is neither correct nor invalid is loose, and nothing else is. -/
theorem status_loose_iff : (classify maxDepth t).status = .loose ↔
    (classify maxDepth t).status ≠ .correct ∧ (classify maxDepth t).status ≠ .invalid := by
  cases hf : ofText maxDepth t with
  | error e => simp [classify_of_error hf]
  | ok f =>
    rw [classify_of_ofText hf]
    split <;> simp

end

/-! ### On a stack -/

section
variable {stack : Nat} {maxDepth : Int} {t : Text}

/-- Classifying on a stack is classifying with the depth that it has room for. -/
theorem classifyOn_eq_classify (stack : Nat) (maxDepth : Int) (t : Text) :
    classifyOn stack maxDepth t = classify (allowedDepth stack maxDepth) t := by
  rw [classifyOn, parseOn_eq_parse]
  rfl

theorem classifyOn_of_stackSuffices (h : StackSuffices stack maxDepth (Token.ofFormula t)) :
    classifyOn stack maxDepth t = classify maxDepth t := by
  rw [classifyOn, h.parseOn_eq]
  rfl

/-- What the stack does not suffice for is invalid. -/
theorem classifyOn_of_not_stackSuffices
    (h : ¬ StackSuffices stack maxDepth (Token.ofFormula t)) :
    classifyOn stack maxDepth t = ⟨.invalid, none, some .tooDeep⟩ := by
  rw [classifyOn, parseOn_of_not_stackSuffices h]
  rfl

/-- The stack that suffices for a text suffices for the strict form of what was read. -/
theorem stackSuffices_render {f : Formula} (hf : ofText maxDepth t = .ok f)
    (h : StackSuffices stack maxDepth (Token.ofFormula t)) :
    StackSuffices stack maxDepth (Token.ofFormula f.render) := by
  have hs := (parse_eq_ok_iff.1 hf).1
  have hform := (parse_eq_ok_iff.1 (ofText_render_of_ofText hf)).1
  rw [stackSuffices_iff_of_spells hs] at h
  rwa [stackSuffices_iff_of_spells hform]

/-- A strict form of the allowed depth is invalid where the stack has no room for it. -/
theorem classifyOn_render_of_le_depth {f : Formula} (hp : f.IsProper)
    (hd : (f.depth : Int) ≤ maxDepth) (hstack : stack ≤ f.depth) :
    classifyOn stack maxDepth f.render = ⟨.invalid, none, some .tooDeep⟩ := by
  have hs := (parse_eq_ok_iff.1 (ofText_render hp hd)).1
  apply classifyOn_of_not_stackSuffices
  rw [stackSuffices_iff_of_spells hs]
  omega

end

/-- As long as the stack suffices, a text is correct if it is the strict form of some formula of the
allowed depth, up to blanks and spellings, invalid if it cannot be read, and loose otherwise. The
form that is reported is correct and is read as the same formula. A text that the stack does not
suffice for is invalid. -/
theorem classification_is_exact (stack : Nat) (maxDepth : Int) (t : Text) :
    let ts := Token.ofFormula t
    let verdict := classifyOn stack maxDepth t
    (StackSuffices stack maxDepth ts →
      (verdict.status = .correct ↔ ∃ f, IsWritten maxDepth t f) ∧
      (∀ f, IsWritten maxDepth t f → verdict.canonical = some f.render) ∧
      (verdict.status = .invalid ↔ ∃ e, parseOn stack maxDepth ts = .error e) ∧
      (verdict.status = .loose ↔ (¬ ∃ f, IsWritten maxDepth t f) ∧
        ¬ ∃ e, parseOn stack maxDepth ts = .error e) ∧
      (∀ f, parseOn stack maxDepth ts = .ok f → verdict.canonical = some f.render) ∧
      (∀ form, verdict.canonical = some form →
        StackSuffices stack maxDepth (Token.ofFormula form) ∧
        classifyOn stack maxDepth form = ⟨.correct, some form, none⟩ ∧
        orErrorMark (parseOn stack maxDepth (Token.ofFormula form)) =
          orErrorMark (parseOn stack maxDepth ts))) ∧
    (¬ StackSuffices stack maxDepth ts → verdict = ⟨.invalid, none, some .tooDeep⟩) := by
  intro ts verdict
  refine ⟨fun hstack => ?_, classifyOn_of_not_stackSuffices⟩
  have hverdict : verdict = classify maxDepth t := classifyOn_of_stackSuffices hstack
  have hinvalid : verdict.status = .invalid ↔ ∃ e, parse maxDepth ts = .error e := by
    rw [hverdict]
    exact status_invalid_iff maxDepth t
  have hreported : ∀ f, ofText maxDepth t = .ok f → verdict.canonical = some f.render := by
    intro f hf
    rw [hverdict, classify_of_ofText hf]
  rw [hstack.parseOn_eq]
  refine ⟨?_, fun f h => hreported f h.ofText_eq, hinvalid, ?_, hreported, fun form hform => ?_⟩
  · rw [hverdict]
    exact status_correct_iff maxDepth t
  · rw [← status_correct_iff, ← hinvalid, hverdict]
    exact status_loose_iff maxDepth t
  · rw [hverdict, canonical_classify, canonical?_eq_some_iff] at hform
    obtain ⟨f, hf, rfl⟩ := hform
    have hagain := stackSuffices_render hf hstack
    have hform : parse maxDepth (Token.ofFormula f.render) = .ok f := ofText_render_of_ofText hf
    have hread : parse maxDepth ts = .ok f := hf
    refine ⟨hagain, (classifyOn_of_stackSuffices hagain).trans (classify_render hf), ?_⟩
    rw [hagain.parseOn_eq, hform, hread]

/-- Other spellings do not matter, a pair of parentheses that is missing does, and one that does
not close is no formula. A stack with room for the formula alone has none for its operands. -/
theorem classification_is_exact_three_ways :
    let f := binary .implies (atom ['p']) (neg (atom ['Q']))
    IsWritten 2 "(p->(~Q))".toList f ∧
      StackSuffices standardStack 2 (Token.ofFormula "(p->(~Q))".toList) ∧
      (classifyOn standardStack 2 "(p->(~Q))".toList).status = .correct ∧
      (classifyOn standardStack 2 "p -> ~Q".toList).status = .loose ∧
      (classifyOn standardStack 2 "p -> ~Q".toList).canonical = some f.render ∧
      (classifyOn standardStack 2 "p -> (~Q".toList).status = .invalid ∧
      ¬ StackSuffices 1 2 (Token.ofFormula "(p->(~Q))".toList) ∧
      classifyOn 1 2 "(p->(~Q))".toList = ⟨.invalid, none, some .tooDeep⟩ := by
  intro f
  have hread : parse 2 (Token.ofFormula "p -> ~Q".toList) = .ok f := by cbv
  have hstrict : parse 2 (Token.ofFormula "(p->(~Q))".toList) = .ok f := by cbv
  have hwritten : IsWritten 2 "(p->(~Q))".toList f := (isWritten_iff hstrict).2 ⟨rfl, by cbv⟩
  have hstack : ∀ ts, StackSuffices standardStack 2 ts :=
    fun ts => stackSuffices_of_lt (by decide)
  have hfull : ¬ StackSuffices 1 2 (Token.ofFormula "(p->(~Q))".toList) := by
    rw [stackSuffices_iff_of_spells (parse_eq_ok_iff.1 hstrict).1]
    decide
  obtain ⟨hcorrect, -⟩ :=
    (classification_is_exact standardStack 2 "(p->(~Q))".toList).1 (hstack _)
  obtain ⟨-, -, -, hloose, hreported, -⟩ :=
    (classification_is_exact standardStack 2 "p -> ~Q".toList).1 (hstack _)
  obtain ⟨-, -, hinvalid, -⟩ :=
    (classification_is_exact standardStack 2 "p -> (~Q".toList).1 (hstack _)
  rw [(hstack _).parseOn_eq] at hloose hreported hinvalid
  refine ⟨hwritten, hstack _, hcorrect.2 ⟨f, hwritten⟩, hloose.2 ⟨?_, ?_⟩, hreported f hread,
    hinvalid.2 ⟨.unbalancedParentheses, by cbv⟩, hfull,
    (classification_is_exact 1 2 "(p->(~Q))".toList).2 hfull⟩
  · rintro ⟨g, hg⟩
    exact absurd ((isWritten_iff hread).1 hg).2 (by decide +kernel)
  · rintro ⟨e, he⟩
    cases hread.symm.trans he

theorem depth_iterate_neg (n : Nat) (f : Formula) : (neg^[n] f).depth = n + f.depth := by
  induction n with
  | zero => exact (Nat.zero_add _).symm
  | succ n ih => rw [Function.iterate_succ_apply', depth, ih, Nat.add_right_comm]

theorem isProper_iterate_neg (n : Nat) {f : Formula} (h : f.IsProper) : (neg^[n] f).IsProper := by
  induction n with
  | zero => exact h
  | succ n ih =>
    rw [Function.iterate_succ_apply']
    exact ih

/-- The strict form of more negations than the standard stack has room for is not correct, although
so many are allowed. -/
theorem strict_form_is_too_deep :
    let f := neg^[1100] (atom ['P'])
    IsWritten 2200 f.render f ∧
      classifyOn standardStack 2200 f.render = ⟨.invalid, none, some .tooDeep⟩ ∧
      ¬ ((classifyOn standardStack 2200 f.render).status = .correct ↔
        ∃ g, IsWritten 2200 f.render g) := by
  intro f
  have hp : f.IsProper := isProper_iterate_neg 1100 (List.forall_mem_singleton.2 (by decide))
  have hd : f.depth = 1100 := depth_iterate_neg 1100 (atom ['P'])
  have hwritten : IsWritten 2200 f.render f := ⟨hp, by rw [hd]; decide, rfl⟩
  have hdeep : classifyOn standardStack 2200 f.render = ⟨.invalid, none, some .tooDeep⟩ :=
    classifyOn_render_of_le_depth hp hwritten.depth_le (by rw [hd]; decide)
  refine ⟨hwritten, hdeep, fun hiff => ?_⟩
  rw [hdeep] at hiff
  cases hiff.2 ⟨f, hwritten⟩

end LogicTrainer.Grouping
