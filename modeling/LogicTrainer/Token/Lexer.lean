import LogicTrainer.Text.Blank
import LogicTrainer.Token.Basic
import LogicTrainer.Token.Spelling

/-! Reading tokens.

A formula is first written compactly: glyphs for every spelling, and no blanks. It is then
cut around the glyphs; what lies between two of them is one word. Blanks go after the
spellings, so a spelling with a blank inside is not one. -/
namespace LogicTrainer

/-- A formula with glyphs for every spelling and without blanks: two formulas that differ
only in these are the same to a reader. -/
def Text.compact (t : Text) : Text := t.glyphs.squeezed

namespace Token

/-- The pieces of a compact text: each glyph by itself, and the runs between them. -/
def fragments : Text → List Text
  | [] => []
  | c :: rest =>
    if isGlyph c then [c] :: fragments rest
    else
      match fragments rest with
      | (d :: piece) :: pieces =>
        if isGlyph d then [c] :: (d :: piece) :: pieces else (c :: d :: piece) :: pieces
      | pieces => [c] :: pieces

/-- Cutting loses and adds nothing. -/
theorem flatten_fragments (t : Text) : (fragments t).flatten = t := by
  induction t with
  | nil => rfl
  | cons c rest ih =>
    rw [fragments]
    split
    · simp [ih]
    · split
      · next d piece pieces h =>
        rw [h] at ih
        split <;> simpa using ih
      · simp [ih]

/-- The tokens of a compact text. -/
def lex (t : Text) : List Token := (fragments t).map ofText

/-- The tokens of a formula. -/
def ofFormula (t : Text) : List Token := lex t.compact

end Token
end LogicTrainer
