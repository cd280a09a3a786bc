import LogicTrainer.Proofs.Random.Draws
import LogicTrainer.Proofs.Reduction.Bracketed
import LogicTrainer.Problem.Formula

/-! Structured formulas are bracketed.

A structured formula has parentheses around every binary connective and under every negation,
but none around a negation. With bits in the place of its names it is a bracketed list, whatever
is drawn and whatever bits these are (`exists_bracketed`). A name may be any text
that is read as a single operand, as every atom is (`isName_of_isAtom`). -/
namespace LogicTrainer.Problem
open Formula Reduction Draw

/-- A text is read as a single operand. -/
def IsName (name : Text) : Prop :=
  ∃ t, Token.ofFormula name = [t] ∧ ∀ values, ∃ b, substituteToken values t = .bit b

theorem isProper_atom {name : Text} (h : Atom.isAtom name = true) : (atom name).IsProper :=
  fun _ hn => List.mem_singleton.1 hn ▸ h

/-- An atom is a single token. -/
theorem ofFormula_of_isAtom {name : Text} (h : Atom.isAtom name = true) :
    Token.ofFormula name = [Token.ofText name] := by
  simpa only [Formula.render, Formula.tokens] using ofFormula_render (isProper_atom h)

/-- An atom spells itself. -/
theorem derives_of_isAtom {name : Text} (h : Atom.isAtom name = true) :
    Derives .negation (Token.ofFormula name) (.atom name) := by
  rw [ofFormula_of_isAtom h]
  exact .basic (derives_tokens (isProper_atom h))

theorem isName_of_isAtom {name : Text} (h : Atom.isAtom name = true) : IsName name :=
  ⟨_, ofFormula_of_isAtom h, fun values => ⟨_, substituteToken_ofText values (isProper_atom h)⟩⟩

/-- The tokens of a negation. -/
theorem ofFormula_negation (inner : Text) :
    Token.ofFormula (negationGlyph :: ' ' :: '(' :: inner ++ [')']) =
      .neg :: (.lparen :: Token.ofFormula inner ++ [.rparen]) := by
  have hgroup := Token.ofFormula_group inner
  simp only [List.cons_append] at hgroup ⊢
  rw [Token.ofFormula_glyph (by decide), (Token.ofFormula_blank _).1, hgroup]
  rfl

/-- The tokens of two parts with a connective between them. -/
theorem ofFormula_binary (op : Connective) (left right : Text) :
    Token.ofFormula ('(' :: left ++ ' ' :: op.glyph :: ' ' :: right ++ [')']) =
      .lparen :: (Token.ofFormula left ++ .conn op :: Token.ofFormula right) ++ [.rparen] := by
  have hgroup := Token.ofFormula_group (left ++ ' ' :: op.glyph :: ' ' :: right)
  rwa [Token.ofFormula_connective] at hgroup

section
variable {σ : Type} {src : Source σ} {names : List Text} (hnames : ∀ name ∈ names, IsName name)
include hnames

/-- A name is an operand. -/
theorem exists_bracketed_of_variableName {text : Text} (h : Yields (variableName src names) text)
    (values : Text → Bool) : ∃ f, Bracketed (substitute values (Token.ofFormula text)) f := by
  obtain ⟨t, ht, hbit⟩ := hnames text h.mem_of_choose
  obtain ⟨b, hb⟩ := hbit values
  exact ⟨_, by simpa [ht, substitute, hb] using Bracketed.bit b⟩

/-- With bits in it, what is drawn is a bracketed list. -/
theorem exists_bracketed_of_structuredWithin (leaf : Chance) (room : Nat) (depth : Int) {text : Text}
    (h : Yields (structuredWithin src names leaf room depth) text) (values : Text → Bool) :
    ∃ f, Bracketed (substitute values (Token.ofFormula text)) f := by
  induction room generalizing depth text with
  | zero => exact exists_bracketed_of_variableName hnames h values
  | succ room ih =>
    obtain ⟨isLeaf, -, h⟩ := h.exists_of_bind
    split at h
    · exact exists_bracketed_of_variableName hnames h values
    obtain ⟨isNegation, -, h⟩ := h.exists_of_bind
    split at h
    · obtain ⟨inner, hinner, h⟩ := h.exists_of_bind
      obtain rfl := h.eq_of_pure
      obtain ⟨f, hf⟩ := ih _ hinner
      rw [ofFormula_negation]
      exact ⟨_, by simpa [substitute, substituteToken] using hf.group.neg⟩
    · obtain ⟨left, hleft, h⟩ := h.exists_of_bind
      obtain ⟨right, hright, h⟩ := h.exists_of_bind
      obtain ⟨op, -, h⟩ := h.exists_of_bind
      obtain rfl := h.eq_of_pure
      obtain ⟨f, hf⟩ := ih _ hleft
      obtain ⟨g, hg⟩ := ih _ hright
      rw [ofFormula_binary]
      exact ⟨_, by simpa [substitute, substituteToken] using Bracketed.binary op hf hg⟩

/-- A structured formula is a bracketed list once its values are substituted. -/
theorem exists_bracketed_of_structured {maxDepth depth : Int} {leaf : Chance} {text : Text}
    (h : Yields (structured src maxDepth names depth leaf) text) (loose : Entries Json) :
    ∃ f, Bracketed (substituteLoose loose (Token.ofFormula text)) f :=
  exists_bracketed_of_structuredWithin hnames leaf _ depth h _

end

end LogicTrainer.Problem
