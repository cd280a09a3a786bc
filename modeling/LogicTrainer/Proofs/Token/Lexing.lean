import LogicTrainer.Proofs.Formula.Reading
import LogicTrainer.Proofs.Token.Respelling

/-! Cutting texts into tokens.

A glyph is a token wherever it stands, so cutting a compact text at a glyph cuts the two
sides separately (`lex_append_glyph`). It is part of no other spelling either, and nor is a blank,
so the tokens of a formula are those before the glyph, the glyph, and those after it
(`ofFormula_append_glyph`). The texts of atoms are single characters, and none of them is a glyph,
a blank, or the start of another spelling (`isInert_of_isAtom`): writing a formula compactly
leaves its atoms as they are. -/
namespace LogicTrainer

/-! ### Characters that are left alone -/

/-- Whether no spelling starts with a character. -/
def isInert (c : Char) : Bool := spellings.all fun spelling => spelling.1.head? != some c

theorem isInert_glyph (op : Connective) : isInert op.glyph = true := by cases op <;> decide

/-- Where no spelling can start, a text stays as it is. -/
theorem Text.glyphs_of_isInert {t : Text} (h : ∀ c ∈ t, isInert c = true) : t.glyphs = t := by
  refine glyphs_eq_self fun spelling hs hfound => ?_
  obtain ⟨c, rest, hc⟩ := List.exists_cons_of_ne_nil (isTable_spellings.ne_nil spelling hs)
  rw [hc] at hfound
  have := List.all_eq_true.1 (h c (hfound.subset List.mem_cons_self)) spelling hs
  simp [hc] at this

/-- Whether a character is part of no spelling but the glyphs. -/
def isApart (c : Char) : Bool := spellings.all fun spelling => !spelling.1.contains c

/-- Around a character that occurs in no spelling, the two sides are respelled separately. -/
theorem Text.glyphs_append_cons {c : Char} (h : isApart c = true) (a b : Text) :
    (a ++ c :: b : Text).glyphs = a.glyphs ++ c :: b.glyphs := by
  have hc : ∀ spelling ∈ spellings, c ∉ spelling.1 := fun spelling hs => by
    have := List.all_eq_true.1 h spelling hs
    simpa using this
  unfold Text.glyphs
  exact isTable_spellings.foldl_respell_append_cons hc a b

/-- Around a character that occurs in no spelling, the two sides are written compactly by
themselves. -/
theorem Text.compact_append_cons {c : Char} (h : isApart c = true) (a b : Text) :
    compact (a ++ c :: b) = a.compact ++ (Text.squeezed [c] ++ b.compact) := by
  rw [compact, glyphs_append_cons h, ← List.singleton_append, squeezed_append, squeezed_append]
  rfl

/-! ### Characters of atoms -/

theorem capital_ne_nil (c : Char) : capital c ≠ [] := by
  have hgroups : ∀ group ∈ capitalGroups, group.2 ≠ [] := by decide +kernel
  unfold capital
  split
  · exact List.cons_ne_nil _ _
  · unfold capitalBeyondAscii
    split
    · exact List.cons_ne_nil _ _
    · split
      · next group hg =>
        have := hgroups group (List.mem_of_find?_eq_some hg)
        simpa using this
      · exact List.cons_ne_nil _ _

theorem Text.length_le_length_upper (t : Text) : t.length ≤ t.upper.length := by
  induction t with
  | nil => exact Nat.le_refl _
  | cons c rest ih =>
    have hc := List.length_pos_iff.2 (capital_ne_nil c)
    rw [Text.upper, List.flatMap_cons, List.length_append, List.length_cons]
    rw [Text.upper] at ih
    omega

/-- The text of an atom is a single character. -/
theorem Atom.exists_char_of_isAtom {name : Text} (h : isAtom name = true) : ∃ c, name = [c] := by
  have hmem : name.upper ∈ letters ++ (trueLiterals ++ falseLiterals) := by
    simpa [isAtom, isLiteralName, List.elem_eq_contains] using h
  have hlen : ∀ u ∈ letters ++ (trueLiterals ++ falseLiterals), u.length = 1 := by decide
  have hle := Text.length_le_length_upper name
  rw [hlen _ hmem] at hle
  have hne : name ≠ [] := by
    rintro rfl
    exact absurd h (by decide)
  have hpos := List.length_pos_iff.2 hne
  exact List.length_eq_one_iff.1 (by omega)

/-- The numbers of the blank characters. -/
def blankCodes : List Nat :=
  [9, 10, 11, 12, 13, 0x1c, 0x1d, 0x1e, 0x1f, 0x20, 0x85, 0xa0, 0x1680, 0x2000, 0x2001, 0x2002,
   0x2003, 0x2004, 0x2005, 0x2006, 0x2007, 0x2008, 0x2009, 0x200a, 0x2028, 0x2029, 0x202f, 0x205f,
   0x3000]

theorem mem_blankCodes {c : Char} (h : isBlank c = true) : c.toNat ∈ blankCodes := by
  simp only [isBlank, Bool.or_eq_true, Bool.and_eq_true, decide_eq_true_eq, beq_iff_eq] at h
  simp only [blankCodes, List.mem_cons, List.not_mem_nil, or_false]
  omega

theorem Atom.not_isBlank {c : Char} (h : isAtom [c] = true) : isBlank c = false := by
  have hblanks : ∀ n ∈ blankCodes, isAtom [Char.ofNat n] = false := by decide +kernel
  cases hb : isBlank c with
  | false => rfl
  | true =>
    have := hblanks c.toNat (mem_blankCodes hb)
    rw [Char.ofNat_toNat, h] at this
    exact absurd this (by decide)

theorem Atom.not_isGlyph {c : Char} (h : isAtom [c] = true) : Token.isGlyph c = false := by
  unfold Token.isGlyph
  cases hg : Token.ofGlyph? c with
  | none => rfl
  | some t => exact absurd ((Token.of_ofGlyph? hg).2.2.symm.trans h) (by decide)

/-- No spelling starts with the character of an atom. -/
theorem Atom.isInert_of_isAtom {c : Char} (h : isAtom [c] = true) : isInert c = true := by
  have hstarts : ∀ spelling ∈ spellings,
      spelling.1.head?.map (fun d => isAtom [d]) ≠ some true := by decide +kernel
  refine List.all_eq_true.2 fun spelling hs => ?_
  have hne : spelling.1.head? ≠ some c := by
    intro hc
    apply hstarts spelling hs
    rw [hc, Option.map_some, h]
  simpa using hne

/-! ### Cutting around glyphs -/

namespace Token

theorem fragments_glyph {c : Char} (h : isGlyph c = true) (rest : Text) :
    fragments (c :: rest) = [c] :: fragments rest := by
  rw [fragments, if_pos h]

/-- A glyph ends the piece before it. -/
theorem fragments_append_glyph {c : Char} (h : isGlyph c = true) (a b : Text) :
    fragments (a ++ c :: b) = fragments a ++ [c] :: fragments b := by
  induction a with
  | nil => exact fragments_glyph h b
  | cons d a ih =>
    rw [List.cons_append, fragments, fragments]
    by_cases hd : isGlyph d = true
    · rw [if_pos hd, if_pos hd, ih, List.cons_append]
    · rw [if_neg hd, if_neg hd, ih]
      -- the piece that `d` joins is the first of `a`, or else the glyph itself
      rcases fragments a with _ | ⟨_ | ⟨e, piece⟩, pieces⟩
      · simp [h]
      · rfl
      · by_cases he : isGlyph e = true <;> simp [he]

theorem lex_append_glyph {c : Char} (h : isGlyph c = true) (a b : Text) :
    lex (a ++ c :: b) = lex a ++ ofText [c] :: lex b := by
  rw [lex, fragments_append_glyph h, List.map_append, List.map_cons]
  rfl

theorem lex_glyph {c : Char} (h : isGlyph c = true) (b : Text) :
    lex (c :: b) = ofText [c] :: lex b :=
  lex_append_glyph h [] b

/-! ### Cutting formulas -/

/-- A glyph is part of no other spelling, and is not blank. -/
theorem isApart_of_isGlyph {c : Char} (h : isGlyph c = true) :
    isApart c = true ∧ isBlank c = false := by
  obtain ⟨t, ht⟩ := Option.isSome_iff_exists.1 h
  unfold ofGlyph? at ht
  split at ht
  · next hc => exact eq_of_beq hc ▸ (by decide)
  split at ht
  · next hc => exact eq_of_beq hc ▸ (by decide)
  split at ht
  · next hc => exact eq_of_beq hc ▸ (by decide)
  obtain ⟨op, hop, -⟩ := Option.map_eq_some_iff.1 ht
  have hg : (op.glyph == c) = true :=
    List.find?_some (p := fun op : Connective => op.glyph == c) hop
  obtain rfl := eq_of_beq hg
  cases op <;> decide

/-- The tokens around a glyph are those of the texts around it. -/
theorem ofFormula_append_glyph {c : Char} (h : isGlyph c = true) (a b : Text) :
    ofFormula (a ++ c :: b) = ofFormula a ++ ofText [c] :: ofFormula b := by
  obtain ⟨hapart, hblank⟩ := isApart_of_isGlyph h
  have hself : Text.squeezed [c] = [c] := Text.squeezed_cons hblank []
  rw [ofFormula, Text.compact_append_cons hapart, hself, List.singleton_append, lex_append_glyph h]
  rfl

theorem ofFormula_nil : ofFormula [] = [] := by decide

theorem ofFormula_glyph {c : Char} (h : isGlyph c = true) (b : Text) :
    ofFormula (c :: b) = ofText [c] :: ofFormula b := by
  have := ofFormula_append_glyph h [] b
  rwa [ofFormula_nil] at this

/-- A blank at either end of a text is no part of its tokens. -/
theorem ofFormula_blank (a : Text) :
    ofFormula (' ' :: a) = ofFormula a ∧ ofFormula (a ++ [' ']) = ofFormula a := by
  have hapart : isApart ' ' = true := by decide
  have hnil : Text.compact [] = [] := by decide
  have hbefore := Text.compact_append_cons hapart [] a
  have hafter := Text.compact_append_cons hapart a []
  have hblank : Text.squeezed [' '] = [] := rfl
  rw [hnil, hblank] at hbefore hafter
  constructor
  · rw [ofFormula, ← List.nil_append (' ' :: a), hbefore, List.nil_append, List.nil_append,
      ofFormula]
  · rw [ofFormula, hafter, List.append_nil, List.append_nil, ofFormula]

/-- A text in parentheses. -/
theorem ofFormula_group (t : Text) :
    ofFormula ('(' :: t ++ [')']) = .lparen :: ofFormula t ++ [.rparen] := by
  rw [List.cons_append, ofFormula_glyph (by decide), ofFormula_append_glyph (by decide)]
  rfl

/-- A connective with a blank on each side. -/
theorem ofFormula_connective (op : Connective) (left right : Text) :
    ofFormula (left ++ ' ' :: op.glyph :: ' ' :: right) =
      ofFormula left ++ .conn op :: ofFormula right := by
  have hop : isGlyph op.glyph = true := by cases op <;> decide
  have htok : ofText [op.glyph] = .conn op := ofText_text_of_operator (.binary op)
  rw [List.append_cons left, ofFormula_append_glyph hop, (ofFormula_blank left).2,
    (ofFormula_blank right).1, htok]

end Token
end LogicTrainer
