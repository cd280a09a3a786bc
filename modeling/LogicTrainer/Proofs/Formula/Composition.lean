import Mathlib.Order.Iterate
import LogicTrainer.Proofs.Formula.Depth
import LogicTrainer.Proofs.Formula.StrictForm

/-! Composing formulas as texts.

A parenthesis is a glyph, so a text may be cut at it whatever stands on its two sides: no spelling
forms across it, and in front of it or behind it nothing is lost (`Token.ofFormula_append_group`,
`Token.ofFormula_group_append`). What stands in parentheses may be an operand of anything. So a
text that is put together from formulas in parentheses spells the formula that is put together from
theirs in the same way, and the depth that is allowed decides only whether it is read.

The main statement is `composing_texts_composes_formulas`. -/
namespace LogicTrainer

/-- A text writes a glyph: by itself, or by another spelling. -/
def Writes (t : Text) (glyph : Char) : Prop := t = [glyph] ∨ (t, glyph) ∈ spellings

instance (t : Text) (glyph : Char) : Decidable (Writes t glyph) :=
  inferInstanceAs (Decidable (_ ∨ _))

/-- A text with a pair of parentheses around it. -/
def Text.group (t : Text) : Text := '(' :: t ++ [')']

namespace Token

/-- However a glyph is written, its token is all there is. -/
theorem ofFormula_of_writes {t : Text} {glyph : Char} (hglyph : isGlyph glyph = true)
    (h : Writes t glyph) : ofFormula t = [ofText [glyph]] := by
  rcases h with rfl | h
  · rw [ofFormula_glyph hglyph, ofFormula_nil]
  · have hall : ∀ spelling ∈ spellings, ofFormula spelling.1 = [ofText [spelling.2]] := by
      decide +kernel
    exact hall (t, glyph) h

theorem ofFormula_append_group (a t : Text) :
    ofFormula (a ++ t.group) = ofFormula a ++ (.lparen :: ofFormula t ++ [.rparen]) := by
  have hgroup : t.group = '(' :: (t ++ [')']) := rfl
  have hinner : ofFormula (t ++ [')']) = ofFormula t ++ [.rparen] :=
    ofFormula_append_glyph (by decide) t []
  rw [hgroup, ofFormula_append_glyph (by decide), hinner]
  rfl

theorem ofFormula_group_append (t b : Text) :
    ofFormula (t.group ++ b) = (.lparen :: ofFormula t ++ [.rparen]) ++ ofFormula b := by
  have hgroup : t.group ++ b = '(' :: (t ++ ')' :: b) := by simp [Text.group]
  rw [hgroup, ofFormula_glyph (by decide), ofFormula_append_glyph (by decide)]
  simp only [List.cons_append, List.append_assoc, List.nil_append]
  rfl

end Token

namespace Formula
open Token

/-! ### What composed texts spell -/

section
variable {s t : Text} {f g : Formula} (hf : Spells (ofFormula s) f)
include hf

/-- Two texts in parentheses, with a connective between them, spell the formula of the two. -/
theorem Spells.binary (hg : Spells (ofFormula t) g) {op : Connective} {sign : Text}
    (hsign : Writes sign op.glyph) :
    Spells (ofFormula (s.group ++ sign ++ t.group)) (.binary op f g) := by
  have hglyph : isGlyph op.glyph = true := by cases op <;> decide
  have htok : Token.ofText [op.glyph] = .conn op := ofText_text_of_operator (.binary op)
  have hjoin : Derives (.chain op)
      ((.lparen :: ofFormula s ++ [.rparen]) ++ .conn op :: (.lparen :: ofFormula t ++ [.rparen]))
      (.binary op f g) := .join ((Derives.group hf).of_atom _) ((Derives.group hg).of_atom _)
  rw [ofFormula_append_group, ofFormula_group_append, ofFormula_of_writes hglyph hsign, htok]
  simpa using hjoin.spells

/-- A text in parentheses, with a negation in front, spells the negation. -/
theorem Spells.neg {sign : Text} (hsign : Writes sign negationGlyph) :
    Spells (ofFormula (sign ++ s.group)) (.neg f) := by
  rw [ofFormula_append_group, ofFormula_of_writes (by decide) hsign]
  exact (Derives.negate (.basic (.group hf))).spells

/-- However many pairs of parentheses stand around a text, it spells the same formula. -/
theorem Spells.iterate_group (pairs : Nat) : Spells (ofFormula (Text.group^[pairs] s)) f := by
  induction pairs with
  | zero => exact hf
  | succ pairs ih =>
    rw [Function.iterate_succ_apply', Text.group, ofFormula_group]
    exact (Derives.group ih).spells

end

/-- Texts that are read, put in parentheses with a connective between them or a negation in front,
are read as the formula that is composed of theirs, in any spelling and with any parentheses around,
as long as its depth is allowed. -/
theorem composing_texts_composes_formulas {s t : Text} {f g : Formula} {d e : Int}
    (hf : ofText d s = .ok f) (hg : ofText e t = .ok g) (op : Connective) {sign minus : Text}
    (hsign : Writes sign op.glyph) (hminus : Writes minus negationGlyph) (pairs : Nat)
    (maxDepth : Int) :
    ofText maxDepth (Text.group^[pairs] (s.group ++ sign ++ t.group)) =
        (if (max f.depth g.depth : Nat) < maxDepth then .ok (.binary op f g)
          else .error .tooDeep) ∧
      ofText maxDepth (Text.group^[pairs] (minus ++ s.group)) =
        (if (f.depth : Int) < maxDepth then .ok (.neg f) else .error .tooDeep) ∧
      ofText maxDepth (Text.group^[pairs] s) =
        (if (f.depth : Int) ≤ maxDepth then .ok f else .error .tooDeep) := by
  have hs : Spells (ofFormula s) f := (parse_eq_ok_iff.1 hf).1
  have ht : Spells (ofFormula t) g := (parse_eq_ok_iff.1 hg).1
  refine ⟨?_, ?_, parse_of_spells (hs.iterate_group pairs)⟩
  · have hread := parse_of_spells (d := maxDepth) ((hs.binary ht hsign).iterate_group pairs)
    simpa only [ofText, depth, Nat.cast_succ, Int.add_one_le_iff] using hread
  · have hread := parse_of_spells (d := maxDepth) ((hs.neg hminus).iterate_group pairs)
    simpa only [ofText, depth, Nat.cast_succ, Int.add_one_le_iff] using hread

/-- Operands that would be cut apart without their parentheses, one with blanks and one in wide
parentheses of its own. -/
theorem composing_texts_composes_formulas_double_arrow :
    let f := binary .iff (atom ['p']) (neg (atom ['Q']))
    let g := binary .and (binary .or (atom ['r']) (atom ['0'])) (atom ['U'])
    ofText 2 "p <-> ~ Q".toList = .ok f ∧
      ofText 2 "（r \\/ 0）& U".toList = .ok g ∧
      ofText 3 "(((p <-> ~ Q)<=>(（r \\/ 0）& U)))".toList = .ok (binary .iff f g) ∧
      ofText 3 "!(p <-> ~ Q)".toList = .ok (neg f) ∧
      ofText 2 "!(p <-> ~ Q)".toList = .error .tooDeep ∧
      ofText 2 "((((p <-> ~ Q))))".toList = .ok f := by
  intro f g
  have hf : ofText 2 "p <-> ~ Q".toList = .ok f := by cbv
  have hg : ofText 2 "（r \\/ 0）& U".toList = .ok g := by cbv
  have hsign : Writes "<=>".toList Connective.iff.glyph := by decide
  have hminus : Writes "!".toList negationGlyph := by decide
  obtain ⟨hbinary, -, -⟩ := composing_texts_composes_formulas hf hg .iff hsign hminus 2 3
  obtain ⟨-, hneg, -⟩ := composing_texts_composes_formulas hf hg .iff hsign hminus 0 3
  obtain ⟨-, hdeep, -⟩ := composing_texts_composes_formulas hf hg .iff hsign hminus 0 2
  obtain ⟨-, -, hpairs⟩ := composing_texts_composes_formulas hf hg .iff hsign hminus 4 2
  exact ⟨hf, hg, hbinary, hneg, hdeep, hpairs⟩

end Formula
end LogicTrainer
