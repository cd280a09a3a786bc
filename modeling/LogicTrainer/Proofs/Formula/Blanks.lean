import Mathlib.Data.List.Chain
import LogicTrainer.Proofs.Formula.Variables
import LogicTrainer.Proofs.Token.Blanks
import LogicTrainer.Proofs.Grouping.Answers

/-! Blanks in formulas.

Where no spelling is parted, two texts that are equal without their blanks are written compactly
in one way, and reading sees nothing else. Where one is, its two sides come to stand next to each
other. In what can be read, neighbours are symbols and not two binary operators
(`isChain_compact`), and the sides of a spelling are never that, even if one of them or both were
taken for other spellings (`exists_not_meet`): such a text cannot be read at all.

The main statement is `blanks_matter_inside_spellings_only`. -/
namespace LogicTrainer.Formula

/-! ### Neighbours in what can be read -/

/-- Whether a character is that of a binary operator. -/
def isBinary (c : Char) : Bool := Connective.all.any (·.glyph == c)

/-- Whether a character is a token of its own in a formula. -/
def isSymbol (c : Char) : Bool := Token.isGlyph c || Atom.isAtom [c]

/-- Whether a formula may start and end with a character. -/
def isOuter (c : Char) : Bool := isSymbol c && !isBinary c

/-- Whether two characters may be neighbours in a formula. -/
def meet (c d : Char) : Bool := isSymbol c && isSymbol d && !(isBinary c && isBinary d)

theorem meet_of_isOuter {c d : Char} (hc : isOuter c = true) (hd : isSymbol d = true) :
    meet c d = true ∧ meet d c = true := by
  simp_all [isOuter, meet]

theorem isSymbol_of_isOuter {c : Char} (h : isOuter c = true) : isSymbol c = true := by
  simp_all [isOuter]

/-- The text of an operand: its neighbours may meet, and a binary operator may come before and
after it. -/
structure IsOperandText (t : Text) : Prop where
  first : ∃ c rest, t = c :: rest ∧ isOuter c = true
  last : ∃ rest c, t = rest ++ [c] ∧ isOuter c = true
  chain : t.IsChain fun c d => meet c d = true

namespace IsOperandText
variable {a b : Text} {c : Char}

theorem singleton (hc : isOuter c = true) : IsOperandText [c] where
  first := ⟨c, [], rfl, hc⟩
  last := ⟨[], c, rfl, hc⟩
  chain := .singleton c

/-- Two operands around an operator. -/
theorem join (ha : IsOperandText a) (hc : isSymbol c = true) (hb : IsOperandText b) :
    IsOperandText (a ++ c :: b) := by
  obtain ⟨rest, d, hd, hdouter⟩ := ha.last
  obtain ⟨e, rest', he, heouter⟩ := hb.first
  refine ⟨?_, ?_, ?_⟩
  · obtain ⟨first, others, hfirst, houter⟩ := ha.first
    exact ⟨first, others ++ c :: b, by rw [hfirst]; rfl, houter⟩
  · obtain ⟨others, last, hlast, houter⟩ := hb.last
    exact ⟨a ++ c :: others, last, by simp [hlast], houter⟩
  · have hachain := ha.chain
    have hbchain := hb.chain
    subst hd he
    rw [List.append_assoc, List.singleton_append, List.isChain_append_cons_cons,
      List.isChain_cons_cons]
    exact ⟨hachain, (meet_of_isOuter hdouter hc).1, (meet_of_isOuter heouter hc).2, hbchain⟩

theorem cons (hc : isOuter c = true) (hb : IsOperandText b) : IsOperandText (c :: b) := by
  obtain ⟨e, rest, rfl, he⟩ := hb.first
  refine ⟨⟨c, _, rfl, hc⟩, ?_, ?_⟩
  · obtain ⟨rest', d, hd, hdouter⟩ := hb.last
    exact ⟨c :: rest', d, by rw [hd]; rfl, hdouter⟩
  · exact List.isChain_cons_cons.2 ⟨(meet_of_isOuter hc (isSymbol_of_isOuter he)).1, hb.chain⟩

theorem concat (ha : IsOperandText a) (hc : isOuter c = true) : IsOperandText (a ++ [c]) := by
  obtain ⟨rest, e, rfl, he⟩ := ha.last
  refine ⟨?_, ⟨_, c, rfl, hc⟩, ?_⟩
  · obtain ⟨d, rest', hd, hdouter⟩ := ha.first
    exact ⟨d, rest' ++ [c], by rw [hd]; rfl, hdouter⟩
  · rw [List.append_assoc, List.singleton_append, List.isChain_append_cons_cons]
    exact ⟨ha.chain, (meet_of_isOuter he (isSymbol_of_isOuter hc)).1, .singleton c⟩

end IsOperandText

theorem isOuter_of_isAtom {c : Char} (h : Atom.isAtom [c] = true) : isOuter c = true := by
  have hbinary : ∀ op : Connective, Atom.isAtom [op.glyph] = false := by
    intro op
    cases op <;> decide +kernel
  have hnot : isBinary c = false := by
    refine List.any_eq_false.2 fun op _ hop => ?_
    rw [← eq_of_beq hop, hbinary op] at h
    cases h
  simp [isOuter, isSymbol, h, hnot]

theorem isOperandText_of_derives {level : Level} {ts : List Token} {f : Formula}
    (h : Derives level ts f) : IsOperandText (ts.flatMap Token.text) := by
  induction h with
  | @join op left right f g _ _ ihl ihr =>
    have hop : isSymbol op.glyph = true := by cases op <;> decide
    rw [List.flatMap_append, List.flatMap_cons]
    exact ihl.join hop ihr
  | tighter _ ih | basic _ ih => exact ih
  | negate _ ih => exact ih.cons (c := negationGlyph) (by decide)
  | @leaf t ht =>
    have hatom := Token.isAtom_text ht
    obtain ⟨c, hc⟩ := Atom.exists_char_of_isAtom hatom
    rw [List.flatMap_singleton, hc]
    exact .singleton (isOuter_of_isAtom (hc ▸ hatom))
  | @group ts f _ ih =>
    rw [List.flatMap_append]
    exact (ih.cons (c := '(') (by decide)).concat (c := ')') (by decide)

/-- In a text that is read, neighbours may meet. -/
theorem isChain_compact {maxDepth : Int} {t : Text} {f : Formula}
    (hf : ofText maxDepth t = .ok f) : t.compact.IsChain fun c d => meet c d = true := by
  have hoperand := isOperandText_of_derives (parse_eq_ok_iff.1 hf).1
  rw [Token.ofFormula, Token.flatMap_text_lex] at hoperand
  exact hoperand.chain

/-! ### The sides of a spelling -/

/-- What the last character of a text may become in glyphs. -/
def lastsFor (c : Char) : Text :=
  c :: (spellings.filter fun spelling => spelling.1.getLast? == some c).map (·.2)

/-- What the first character of a text may become in glyphs. -/
def firstsFor (c : Char) : Text :=
  c :: (spellings.filter fun spelling => spelling.1.head? == some c).map (·.2)

/-- Whether two characters may come to stand next to each other in a formula, when what is before
them and after them is written in glyphs. -/
def mayMeet (c d : Char) : Bool := (lastsFor c).any fun c' => (firstsFor d).any fun d' => meet c' d'

theorem mayMeet_eq_false {c d c' d' : Char} (h : mayMeet c d = false) (hc : c' ∈ lastsFor c)
    (hd : d' ∈ firstsFor d) : meet c' d' = false := by
  have hnone := List.any_eq_false.1 h c' hc
  rw [Bool.not_eq_true] at hnone
  simpa using List.any_eq_false.1 hnone d' hd

/-- The neighbours in a spelling do not meet, whatever becomes of them. -/
theorem isChain_spelling {spelling : Text × Char} (h : spelling ∈ spellings) :
    spelling.1.IsChain fun c d => mayMeet c d = false := by
  have hall : (spellings.all fun spelling =>
      decide (spelling.1.IsChain fun c d => mayMeet c d = false)) = true := by decide +kernel
  exact of_decide_eq_true (List.all_eq_true.1 hall spelling h)

theorem mem_lastsFor_iff {c c' : Char} : c' ∈ lastsFor c ↔
    c' = c ∨ ∃ spelling ∈ spellings, spelling.1.getLast? = some c ∧ spelling.2 = c' := by
  unfold lastsFor
  simp only [List.mem_cons, List.mem_map, List.mem_filter, beq_iff_eq, and_assoc]

theorem mem_firstsFor_iff {d d' : Char} : d' ∈ firstsFor d ↔
    d' = d ∨ ∃ spelling ∈ spellings, spelling.1.head? = some d ∧ spelling.2 = d' := by
  unfold firstsFor
  simp only [List.mem_cons, List.mem_map, List.mem_filter, beq_iff_eq, and_assoc]

/-- Where a spelling is parted, its sides come to stand next to each other as characters that do not
meet. -/
theorem exists_not_meet {spelling : Text × Char} (hmem : spelling ∈ spellings) {before after : Text}
    (h : Straddles spelling.1 before.squeezed after.squeezed) : ∃ v c d w,
      before.compact = v ++ [c] ∧ after.compact = d :: w ∧ meet c d = false := by
  obtain ⟨x, y, hx, hy, hxy, ⟨a, ha⟩, b, hb⟩ := h
  obtain ⟨x, c, rfl⟩ := (List.eq_nil_or_concat' x).resolve_left hx
  obtain ⟨d, y, rfl⟩ := List.exists_cons_of_ne_nil hy
  have hbefore := before.respelledBy_compact
  have hafter := after.respelledBy_compact
  rw [← ha, ← List.append_assoc] at hbefore
  rw [← hb, List.cons_append] at hafter
  obtain ⟨v, c', hv, hc'⟩ := hbefore.exists_concat isTable_spellings
  obtain ⟨d', w, hw, hd'⟩ := hafter.exists_cons isTable_spellings
  have hchain := isChain_spelling hmem
  rw [hxy, List.append_assoc, List.singleton_append, List.isChain_append_cons_cons] at hchain
  exact ⟨v, c', d', w, hv, hw,
    mayMeet_eq_false hchain.2.1 (mem_lastsFor_iff.2 hc') (mem_firstsFor_iff.2 hd')⟩

/-- A text in which a spelling is parted cannot be read. -/
theorem exists_error_of_partsSpelling {t : Text} (h : t.PartsSpelling) (maxDepth : Int) :
    ∃ e, ofText maxDepth t = .error e := by
  obtain ⟨spelling, hs, before, blank, after, rfl, hblank, hstraddles⟩ := h
  obtain ⟨v, c, d, w, hv, hw, hmeet⟩ := exists_not_meet hs hstraddles
  cases hf : ofText maxDepth (before ++ blank :: after) with
  | error e => exact ⟨e, rfl⟩
  | ok f =>
    have hchain := isChain_compact hf
    rw [Text.compact_append_blank hblank, hv, hw, List.append_assoc, List.singleton_append,
      List.isChain_append_cons_cons, hmeet] at hchain
    cases hchain.2.1

/-- What is told about a formula depends on its compact text alone. -/
theorem told_eq_of_compact {s t : Text} (h : s.compact = t.compact) (maxDepth : Int)
    (loose : Entries Json) : ofText maxDepth s = ofText maxDepth t ∧
      canonical? maxDepth s = canonical? maxDepth t ∧
      Grouping.classify maxDepth s = Grouping.classify maxDepth t ∧
      evaluateText maxDepth s loose = evaluateText maxDepth t loose := by
  have hread : ofText maxDepth s = ofText maxDepth t := Grouping.ofText_eq_of_compact h
  refine ⟨hread, ?_, ?_, ?_⟩
  · rw [canonical?, canonical?, hread]
  · rw [Grouping.classify, Grouping.classify, hread, Grouping.verdictOf_congr h]
  · rw [evaluateText, evaluateText, hread]

/-- Two texts that are equal without their blanks and part no spelling have the same tokens, and are
read, classified and evaluated alike. A text that parts a spelling is no formula. -/
theorem blanks_matter_inside_spellings_only (s t : Text) (h : s.squeezed = t.squeezed)
    (maxDepth : Int) (loose : Entries Json) :
    (¬ s.PartsSpelling → ¬ t.PartsSpelling →
      Token.ofFormula s = Token.ofFormula t ∧ s.compact = t.compact ∧
      s.compact.compact = s.compact ∧ ofText maxDepth s = ofText maxDepth t ∧
      canonical? maxDepth s = canonical? maxDepth t ∧
      Grouping.classify maxDepth s = Grouping.classify maxDepth t ∧
      evaluateText maxDepth s loose = evaluateText maxDepth t loose) ∧
    ¬ s.squeezed.PartsSpelling ∧
    (s.PartsSpelling →
      (∃ e, ofText maxDepth s = .error e) ∧ canonical? maxDepth s = none ∧
      (Grouping.classify maxDepth s).status = .invalid ∧ evaluateText maxDepth s loose = false) ∧
    (∀ f, ofText maxDepth t = .ok f →
      (Token.ofFormula s = Token.ofFormula t ↔ ¬ s.PartsSpelling)) := by
  have htokens : ¬ s.PartsSpelling → ¬ t.PartsSpelling → Token.ofFormula s = Token.ofFormula t :=
    fun hs ht => by rw [Token.ofFormula, Token.ofFormula, Text.compact_congr h hs ht]
  refine ⟨fun hs ht => ?_, s.not_partsSpelling_squeezed, fun hs => ?_, fun f hf => ?_⟩
  · have hcompact := Text.compact_congr h hs ht
    exact ⟨htokens hs ht, hcompact, Text.compact_compact hs,
      told_eq_of_compact hcompact maxDepth loose⟩
  · obtain ⟨e, he⟩ := exists_error_of_partsSpelling hs maxDepth
    refine ⟨⟨e, he⟩, ?_, ?_, evaluateText_of_error he loose⟩
    · rw [canonical?, he]
      rfl
    · rw [Grouping.classify_of_error he]
  · have hparts : ∀ u : Text, ofText maxDepth u = .ok f → ¬ u.PartsSpelling := fun u hu hp => by
      obtain ⟨e, he⟩ := exists_error_of_partsSpelling hp maxDepth
      cases hu.symm.trans he
    refine ⟨fun heq => hparts s ?_, fun hs => htokens hs (hparts t hf)⟩
    rw [ofText, heq]
    exact hf

/-- Blanks on both sides of an arrow and before a letter do nothing, and one inside the arrow makes
the formula unreadable. -/
theorem blanks_matter_inside_spellings_only_arrow :
    let f := binary .implies (atom ['p']) (neg (atom ['Q']))
    ofText 2 "p->~Q".toList = .ok f ∧ ofText 2 " p -> ~ Q".toList = .ok f ∧
      Token.ofFormula "p - > ~Q".toList ≠ Token.ofFormula "p->~Q".toList ∧
      canonical? 2 "p - > ~Q".toList = none := by
  intro f
  have hread : ofText 2 "p->~Q".toList = .ok f := by cbv
  have hnone : ¬ Text.PartsSpelling "p->~Q".toList := by decide +kernel
  have houtside : ¬ Text.PartsSpelling " p -> ~ Q".toList := by decide +kernel
  have hinside : Text.PartsSpelling "p - > ~Q".toList := by decide +kernel
  obtain ⟨hsame, -⟩ :=
    blanks_matter_inside_spellings_only " p -> ~ Q".toList "p->~Q".toList (by decide) 2 []
  obtain ⟨-, -, hunread, hexact⟩ :=
    blanks_matter_inside_spellings_only "p - > ~Q".toList "p->~Q".toList (by decide) 2 []
  obtain ⟨-, -, -, hblanks, -⟩ := hsame houtside hnone
  obtain ⟨-, hcanonical, -⟩ := hunread hinside
  exact ⟨hread, hblanks.trans hread, fun heq => (hexact f hread).1 heq hinside, hcanonical⟩

/-- With a blank inside, an arrow is not found: what is equal without blanks is cut into other
tokens, and not read, written, classified or evaluated alike. The arrow is found when the text is
written compactly once more. -/
theorem parted_arrow_is_not_found :
    Text.squeezed "P->Q".toList = Text.squeezed "P- >Q".toList ∧
      Token.ofFormula "P->Q".toList = [.word ['P'], .conn .implies, .word ['Q']] ∧
      Token.ofFormula "P- >Q".toList = [.word "P->Q".toList] ∧
      orErrorMark (ofText 200 "P->Q".toList) ≠ orErrorMark (ofText 200 "P- >Q".toList) ∧
      canonical? 200 "P->Q".toList ≠ canonical? 200 "P- >Q".toList ∧
      (Grouping.classify 200 "P->Q".toList).status ≠
        (Grouping.classify 200 "P- >Q".toList).status ∧
      evaluateText 200 "P->Q".toList [] ≠ evaluateText 200 "P- >Q".toList [] ∧
      Text.compact (Text.compact "P- >Q".toList) ≠ Text.compact "P- >Q".toList := by
  have hread : ofText 200 "P->Q".toList = .ok (binary .implies (atom ['P']) (atom ['Q'])) := by cbv
  have hunread : ofText 200 "P- >Q".toList = .error .unrecognizedToken := by cbv
  refine ⟨by decide, by decide +kernel, by decide +kernel, ?_, ?_, ?_, ?_, by decide +kernel⟩
  · rw [hread, hunread]
    decide
  · rw [canonical?, canonical?, hread, hunread]
    decide
  · rw [Grouping.classify_of_ofText hread, Grouping.classify_of_error hunread]
    decide +kernel
  · rw [evaluateText_of_ofText hread, evaluateText_of_error hunread]
    decide +kernel

end LogicTrainer.Formula
