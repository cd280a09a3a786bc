import LogicTrainer.Proofs.Grouping

/-! What an answer is graded for.

A formula is read from a text without a symbol being lost, doubled or moved: what is left of the
text when it is written compactly and its parentheses are taken out are the symbols of the formula
from left to right (`withoutParens_compact`). So the strict form of a text has the symbols of the
text, and two texts with one strict form have the same. Then the grader cannot find the symbols of
such an answer changed, nor its parentheses unbalanced, since it was read, and what is left to it is
the question of the other exercise: whether the answer is grouped strictly.

The main statement is `only_parentheses_move`. -/
namespace LogicTrainer

/-- The tokens of a compact text are written as the text. -/
theorem Token.flatMap_text_lex (t : Text) : (lex t).flatMap text = t := by
  rw [lex, List.flatMap_map]
  have hid : (fun piece => (ofText piece).text) = id := funext text_ofText
  rw [hid, List.flatMap_id, flatten_fragments]

namespace Grouping
open Formula

theorem withoutParens_append (a b : Text) :
    withoutParens (a ++ b) = withoutParens a ++ withoutParens b := List.filter_append ..

/-- The text of an atom holds no parenthesis. -/
theorem withoutParens_of_isAtom {t : Token} (h : t.isAtom = true) :
    withoutParens t.text = t.text := by
  have hatom := Token.isAtom_text h
  obtain ⟨c, hc⟩ := Atom.exists_char_of_isAtom hatom
  rw [hc] at hatom ⊢
  have hglyph := Atom.not_isGlyph hatom
  have hopen : c ≠ '(' := by
    rintro rfl
    exact absurd hglyph (by decide)
  have hclose : c ≠ ')' := by
    rintro rfl
    exact absurd hglyph (by decide)
  simp [withoutParens, hopen, hclose]

theorem withoutParens_glyph (op : Connective) : withoutParens [op.glyph] = [op.glyph] := by
  cases op <;> rfl

/-- The symbols of a formula from left to right, parentheses left out. -/
def symbols : Formula → Text
  | .atom name => name
  | .neg operand => negationGlyph :: symbols operand
  | .binary op left right => symbols left ++ op.glyph :: symbols right

/-- A list that spells a formula has its symbols in their order. -/
theorem withoutParens_of_derives {level : Level} {ts : List Token} {f : Formula}
    (h : Derives level ts f) : withoutParens (ts.flatMap Token.text) = symbols f := by
  induction h with
  | @join op left right f g _ _ ihl ihr =>
    have hright : withoutParens ([op.glyph] ++ right.flatMap Token.text) =
        op.glyph :: symbols g := by
      rw [withoutParens_append, withoutParens_glyph, ihr]
      rfl
    rw [List.flatMap_append, withoutParens_append, ihl, List.flatMap_cons]
    exact congrArg (symbols f ++ ·) hright
  | tighter _ ih | basic _ ih => exact ih
  | negate _ ih => exact congrArg (negationGlyph :: ·) ih
  | @leaf t ht =>
    rw [List.flatMap_singleton]
    exact withoutParens_of_isAtom ht
  | @group ts f _ ih =>
    rw [List.flatMap_append, withoutParens_append]
    exact (List.append_nil _).trans ih

section
variable {maxDepth : Int} {t : Text}

/-- A text has the symbols of the formula that is read from it. -/
theorem withoutParens_compact {f : Formula} (hf : ofText maxDepth t = .ok f) :
    withoutParens t.compact = symbols f := by
  have hspells := withoutParens_of_derives (parse_eq_ok_iff.1 hf).1
  rwa [Token.ofFormula, Token.flatMap_text_lex] at hspells

/-- A text that is read has its parentheses in pairs. -/
theorem isBalanced_of_ofText {f : Formula} (hf : ofText maxDepth t = .ok f) :
    Token.isBalanced (Token.lex t.compact) = true := (parse_eq_ok_iff.1 hf).1.isBalanced

/-- An answer that is read as the formula that is asked for is graded for its grouping alone. -/
theorem answerStatus_of_ofText {f : Formula} (hf : ofText maxDepth t = .ok f) {raw : Text}
    (hraw : withoutParens raw.compact = symbols f) : answerStatus ⟨raw, f.render⟩ t =
      if (classify maxDepth t).status = .correct then .correct else .wrongGrouping := by
  rw [answerStatus, classify_of_ofText hf]
  by_cases hwritten : t.compact = f.render.compact
  · simp [hwritten]
  · simp [hwritten, isBalanced_of_ofText hf, withoutParens_compact hf, hraw]

end

/-- A text and its strict form have the same symbols in the same order. So an answer with the strict
form of the formula that was set is correct if it is grouped strictly, and wrongly grouped if it is
not. -/
theorem only_parentheses_move :
    (∀ (maxDepth : Int) (t form : Text), canonical? maxDepth t = some form →
      withoutParens t.compact = withoutParens form.compact) ∧
    (∀ (rawDepth maxDepth : Int) (raw answer form : Text), canonical? rawDepth raw = some form →
      canonical? maxDepth answer = some form → checkAnswer ⟨raw, form⟩ answer =
        ⟨if (classify maxDepth answer).status = .correct then .correct else .wrongGrouping,
          some form, none⟩) := by
  constructor
  · intro maxDepth t form h
    obtain ⟨f, hf, rfl⟩ := canonical?_eq_some_iff.1 h
    rw [withoutParens_compact hf, withoutParens_compact (ofText_render_of_ofText hf)]
  · intro rawDepth maxDepth raw answer form hraw hanswer
    obtain ⟨f, hf, rfl⟩ := canonical?_eq_some_iff.1 hanswer
    obtain ⟨g, hg, hform⟩ := canonical?_eq_some_iff.1 hraw
    obtain rfl : g = f :=
      render_injective (isProper_of_ofText hg).1 (isProper_of_ofText hf).1 hform
    rw [checkAnswer, answerStatus_of_ofText hf (withoutParens_compact hg)]

/-- Both answers to a flat formula have its strict form, and one of them is grouped strictly. -/
theorem only_parentheses_move_two_answers :
    let f := binary .implies (atom ['p']) (binary .or (neg (atom ['Q'])) (atom ['r']))
    let raw : Text := "p -> ~Q | r".toList
    withoutParens raw.compact = withoutParens f.render.compact ∧
      (checkAnswer ⟨raw, f.render⟩ "(p=>((~Q)|r))".toList).status = .correct ∧
      (checkAnswer ⟨raw, f.render⟩ "(p=>(~Q|r))".toList).status = .wrongGrouping := by
  intro f raw
  have hraw : ofText 3 "p -> ~Q | r".toList = .ok f := by cbv
  have hstrict : ofText 3 "(p=>((~Q)|r))".toList = .ok f := by cbv
  have hloose : ofText 3 "(p=>(~Q|r))".toList = .ok f := by cbv
  have hform : ∀ t, ofText 3 t = .ok f → canonical? 3 t = some f.render :=
    fun _ h => canonical?_eq_some_iff.2 ⟨f, h, rfl⟩
  have hwritten : Text.compact "(p=>((~Q)|r))".toList = f.render.compact := by decide +kernel
  have hnot : Text.compact "(p=>(~Q|r))".toList ≠ f.render.compact := by decide +kernel
  obtain ⟨hsymbols, hgraded⟩ := only_parentheses_move
  refine ⟨hsymbols 3 raw _ (hform _ hraw), ?_, ?_⟩
  · rw [hgraded 3 3 raw _ _ (hform _ hraw) (hform _ hstrict), classify_of_ofText hstrict,
      if_pos hwritten]
    rfl
  · rw [hgraded 3 3 raw _ _ (hform _ hraw) (hform _ hloose), classify_of_ofText hloose,
      if_neg hnot]
    rfl

end Grouping
end LogicTrainer
