import Mathlib.Data.List.Chain
import LogicTrainer.Proofs.Token.Lexing

/-! The one way to cut a text.

Cutting around the glyphs loses and adds nothing, makes every glyph a piece by itself, and cuts
nowhere else. Only one list of pieces is like that (`isCutting_iff`): its first piece is either the
glyph that the text starts with or all that stands before the first glyph.

The main statement is `tokens_are_the_one_cutting`. -/
namespace LogicTrainer.Token

/-- The characters that are tokens by themselves: the operators and the parentheses. -/
def glyphCharacters : Text := ['¬', '∧', '∨', '⇒', '⇔', '(', ')']

theorem isGlyph_iff {c : Char} : isGlyph c = true ↔ c ∈ glyphCharacters := by
  constructor
  · intro h
    by_contra hnot
    simp only [glyphCharacters, List.mem_cons, List.not_mem_nil, or_false, not_or] at hnot
    obtain ⟨hneg, hand, hor, himplies, hiff, hopen, hclose⟩ := hnot
    have hno : ∀ op : Connective, (op.glyph == c) = false := by
      intro op
      cases op <;> simpa [Connective.glyph] using Ne.symm ‹_›
    simp [isGlyph, ofGlyph?, negationGlyph, hneg, hopen, hclose, hno] at h
  · intro h
    have hall : (glyphCharacters.all isGlyph) = true := by decide
    exact List.all_eq_true.1 hall c h

/-- A text without a glyph. -/
def IsPlain (piece : Text) : Prop := ∀ c ∈ piece, c ∉ glyphCharacters

/-- The pieces of a text: none is empty, each is a glyph or has none in it, and no two without a
glyph are neighbours. -/
structure IsCutting (t : Text) (pieces : List Text) : Prop where
  flatten : pieces.flatten = t
  ne_nil : ∀ piece ∈ pieces, piece ≠ []
  glyph_or_plain : ∀ piece ∈ pieces, (∃ c ∈ glyphCharacters, piece = [c]) ∨ IsPlain piece
  apart : pieces.IsChain fun piece next => ¬ (IsPlain piece ∧ IsPlain next)

theorem not_isPlain_glyph {c : Char} (h : c ∈ glyphCharacters) : ¬ IsPlain [c] :=
  fun hplain => hplain c (List.mem_singleton.2 rfl) h

theorem isPlain_cons {c : Char} {piece : Text} (hc : c ∉ glyphCharacters) (h : IsPlain piece) :
    IsPlain (c :: piece) := by
  intro d hd
  rcases List.mem_cons.1 hd with rfl | hd
  · exact hc
  · exact h d hd

/-! ### The first piece -/

theorem isCutting_nil : IsCutting [] [] where
  flatten := rfl
  ne_nil _ h := absurd h List.not_mem_nil
  glyph_or_plain _ h := absurd h List.not_mem_nil
  apart := .nil

/-- The first piece is a glyph, or has none in it and ends where the text does or before a glyph. -/
theorem isCutting_cons_iff {t piece : Text} {pieces : List Text} : IsCutting t (piece :: pieces) ↔
    t = piece ++ pieces.flatten ∧ IsCutting pieces.flatten pieces ∧
      ((∃ c ∈ glyphCharacters, piece = [c]) ∨
        piece ≠ [] ∧ IsPlain piece ∧ ∀ next ∈ pieces.head?, ¬ IsPlain next) := by
  constructor
  · rintro ⟨rfl, hne, hkind, hapart⟩
    obtain ⟨hnext, hchain⟩ := List.isChain_cons.1 hapart
    refine ⟨rfl, ⟨rfl, fun p hp => hne p (List.mem_cons_of_mem _ hp),
      fun p hp => hkind p (List.mem_cons_of_mem _ hp), hchain⟩, ?_⟩
    rcases hkind piece List.mem_cons_self with hglyph | hplain
    · exact .inl hglyph
    · exact .inr ⟨hne piece List.mem_cons_self, hplain,
        fun next hn hnplain => hnext next hn ⟨hplain, hnplain⟩⟩
  · rintro ⟨rfl, ⟨-, hne, hkind, hchain⟩, hfirst⟩
    refine ⟨rfl, List.forall_mem_cons.2 ⟨?_, hne⟩, List.forall_mem_cons.2 ⟨?_, hkind⟩,
      List.isChain_cons.2 ⟨fun next hn => ?_, hchain⟩⟩
    · rcases hfirst with ⟨c, -, rfl⟩ | ⟨hne, -⟩
      · exact List.cons_ne_nil c []
      · exact hne
    · exact hfirst.imp_right fun h => h.2.1
    · rintro ⟨hplain, hnplain⟩
      rcases hfirst with ⟨c, hc, rfl⟩ | ⟨-, -, hnot⟩
      · exact not_isPlain_glyph hc hplain
      · exact hnot next hn hnplain

namespace IsCutting
variable {t piece : Text} {pieces : List Text} {c d : Char}

theorem cons_glyph (hc : c ∈ glyphCharacters) (h : IsCutting t pieces) :
    IsCutting (c :: t) ([c] :: pieces) := by
  have hflatten := h.flatten
  subst hflatten
  exact isCutting_cons_iff.2 ⟨rfl, h, .inl ⟨c, hc, rfl⟩⟩

/-- Where no word starts the text, a character that is no glyph is a word before it. -/
theorem cons_word (hc : c ∉ glyphCharacters) (h : IsCutting t pieces)
    (hnext : ∀ next ∈ pieces.head?, ¬ IsPlain next) : IsCutting (c :: t) ([c] :: pieces) := by
  have hflatten := h.flatten
  subst hflatten
  have hplain : IsPlain [c] := isPlain_cons hc fun _ hd => absurd hd List.not_mem_nil
  exact isCutting_cons_iff.2 ⟨rfl, h, .inr ⟨List.cons_ne_nil c [], hplain, hnext⟩⟩

/-- A character that is no glyph is part of the word that starts the text. -/
theorem extend_word (hc : c ∉ glyphCharacters) (h : IsCutting t ((d :: piece) :: pieces))
    (hd : d ∉ glyphCharacters) : IsCutting (c :: t) ((c :: d :: piece) :: pieces) := by
  obtain ⟨rfl, hrest, hfirst⟩ := isCutting_cons_iff.1 h
  refine isCutting_cons_iff.2 ⟨rfl, hrest, .inr ?_⟩
  rcases hfirst with ⟨e, he, hsame⟩ | ⟨-, hplain, hnext⟩
  · obtain ⟨rfl, -⟩ := List.cons.inj hsame
    exact absurd he hd
  · exact ⟨List.cons_ne_nil c _, isPlain_cons hc hplain, hnext⟩

end IsCutting

/-! ### Fragments -/

theorem fragments_of_isPlain {piece : Text} (hne : piece ≠ []) (h : IsPlain piece) :
    fragments piece = [piece] := by
  induction piece with
  | nil => exact absurd rfl hne
  | cons c rest ih =>
    have hc : ¬ isGlyph c = true := fun hc => h c List.mem_cons_self (isGlyph_iff.1 hc)
    have hrest : IsPlain rest := fun d hd => h d (List.mem_cons_of_mem _ hd)
    rw [fragments, if_neg hc]
    cases rest with
    | nil => rfl
    | cons d rest =>
      have hd : ¬ isGlyph d = true := fun hd => hrest d List.mem_cons_self (isGlyph_iff.1 hd)
      rw [ih (List.cons_ne_nil d rest) hrest]
      exact if_neg hd

theorem isCutting_fragments (t : Text) : IsCutting t (fragments t) := by
  induction t with
  | nil => exact isCutting_nil
  | cons c rest ih =>
    rw [fragments]
    split
    · next hc => exact ih.cons_glyph (isGlyph_iff.1 hc)
    · next hc =>
      have hc : c ∉ glyphCharacters := fun hmem => hc (isGlyph_iff.2 hmem)
      split
      · next d piece pieces heq =>
        rw [heq] at ih
        split
        · next hd =>
          refine ih.cons_word hc fun next hn hplain => ?_
          obtain rfl : d :: piece = next := by simpa using hn
          exact hplain d List.mem_cons_self (isGlyph_iff.1 hd)
        · next hd => exact ih.extend_word hc fun hmem => hd (isGlyph_iff.2 hmem)
      · next hno =>
        -- a first piece would not be empty, so there is none
        refine ih.cons_word hc fun next hn => ?_
        obtain ⟨pieces, hpieces⟩ := List.head?_eq_some_iff.1 hn
        obtain ⟨d, piece, rfl⟩ := List.exists_cons_of_ne_nil
          (ih.ne_nil next (hpieces ▸ List.mem_cons_self))
        exact absurd hpieces (hno d piece pieces)

theorem fragments_eq_of_isCutting {t : Text} {pieces : List Text} (h : IsCutting t pieces) :
    fragments t = pieces := by
  induction pieces generalizing t with
  | nil => exact h.flatten ▸ rfl
  | cons piece pieces ih =>
    obtain ⟨rfl, hrest, hfirst⟩ := isCutting_cons_iff.1 h
    have hpieces := ih hrest
    rcases hfirst with ⟨c, hc, rfl⟩ | ⟨hne, hplain, hnext⟩
    · rw [List.singleton_append, fragments_glyph (isGlyph_iff.2 hc), hpieces]
    · cases pieces with
      | nil => rw [List.flatten_nil, List.append_nil, fragments_of_isPlain hne hplain]
      | cons next pieces =>
        obtain ⟨-, -, hkind⟩ := isCutting_cons_iff.1 hrest
        rcases hkind with ⟨c, hc, rfl⟩ | ⟨-, hplain', -⟩
        · have hglyph := isGlyph_iff.2 hc
          rw [List.flatten_cons, List.singleton_append] at hpieces ⊢
          rw [fragments_append_glyph hglyph, ← fragments_glyph hglyph, hpieces,
            fragments_of_isPlain hne hplain, List.singleton_append]
        · exact absurd hplain' (hnext next rfl)

/-- A text is cut in one way only. -/
theorem isCutting_iff {t : Text} {pieces : List Text} :
    IsCutting t pieces ↔ pieces = fragments t :=
  ⟨fun h => (fragments_eq_of_isCutting h).symm, fun h => h ▸ isCutting_fragments t⟩

theorem map_text_lex (t : Text) : (lex t).map text = fragments t := by
  rw [lex, List.map_map]
  exact (List.map_congr_left fun piece _ => text_ofText piece).trans (List.map_id _)

theorem not_isBlank_of_mem_ofFormula {t : Text} {token : Token} (h : token ∈ ofFormula t) {c : Char}
    (hc : c ∈ token.text) : isBlank c = false := by
  have hpiece : token.text ∈ fragments t.compact := by
    rw [← map_text_lex]
    exact List.mem_map_of_mem h
  have hmem : c ∈ t.compact := by
    rw [← flatten_fragments t.compact]
    exact List.mem_flatten_of_mem hpiece hc
  exact Text.not_blank_of_mem_squeezed hmem

/-- The tokens of a text are the one way to cut its compact form into pieces that are a glyph or
have none in them, no two of the latter being neighbours. No token has a blank in it. -/
theorem tokens_are_the_one_cutting (t : Text) :
    (∀ pieces, IsCutting t.compact pieces ↔ pieces = (ofFormula t).map text) ∧
      ∀ token ∈ ofFormula t, ∀ c ∈ token.text, isBlank c = false := by
  refine ⟨fun pieces => ?_, fun token h c hc => not_isBlank_of_mem_ofFormula h hc⟩
  rw [ofFormula, map_text_lex]
  exact isCutting_iff

/-- A spelling and blanks between two words, one of them of two characters, which is not cut. -/
theorem tokens_are_the_one_cutting_respelled :
    let t : Text := " P1 &\t~(Q ".toList
    IsCutting t.compact [['P', '1'], ['∧'], ['¬'], ['('], ['Q']] ∧
      ¬ IsCutting t.compact [['P'], ['1'], ['∧'], ['¬'], ['('], ['Q']] ∧
      .word ['P', '1'] ∈ ofFormula t ∧ isBlank 'P' = false := by
  intro t
  have htokens : ofFormula t = [.word ['P', '1'], .conn .and, .neg, .lparen, .word ['Q']] := by
    decide +kernel
  obtain ⟨hcut, hblank⟩ := tokens_are_the_one_cutting t
  rw [htokens] at hcut hblank
  exact ⟨(hcut _).2 (by decide), fun h => absurd ((hcut _).1 h) (by decide),
    htokens ▸ List.mem_cons_self, hblank _ List.mem_cons_self 'P' List.mem_cons_self⟩

end LogicTrainer.Token
