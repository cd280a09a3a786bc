import LogicTrainer.Proofs.Token.Lexing

/-! The strict form is read back.

The strict form of a proper formula is a token list of its own (`tokens`): cutting the text
into tokens gives this list (`ofFormula_render`), and the list spells the formula
(`spells_tokens`). So reading undoes writing whatever stands inside (`ofText_render`): the
pair of parentheses around an operator is the one that goes, and the operator is the only
one left outside.

The main statement is `reading_undoes_writing`. -/
namespace LogicTrainer.Formula
open Token

/-! ### The tokens of the strict form -/

/-- The strict form as a token list. -/
def tokens : Formula → List Token
  | .atom name => [Token.ofText name]
  | .neg operand => .lparen :: .neg :: operand.tokens ++ [.rparen]
  | .binary op left right =>
    .lparen :: left.tokens ++ .conn op :: right.tokens ++ [.rparen]

theorem IsProper.operand {f : Formula} (h : (neg f).IsProper) : f.IsProper := h

theorem IsProper.left {op : Connective} {f g : Formula} (h : (binary op f g).IsProper) :
    f.IsProper := fun name hn => h name (List.mem_append_left _ hn)

theorem IsProper.right {op : Connective} {f g : Formula} (h : (binary op f g).IsProper) :
    g.IsProper := fun name hn => h name (List.mem_append_right _ hn)

theorem IsProper.atom_char {name : Text} (h : (atom name).IsProper) :
    ∃ c, name = [c] ∧ Atom.isAtom [c] = true := by
  have ha := h name (List.mem_singleton.2 rfl)
  obtain ⟨c, rfl⟩ := Atom.exists_char_of_isAtom ha
  exact ⟨c, rfl, ha⟩

theorem squeezed_blank (t : Text) : Text.squeezed (' ' :: t) = t.squeezed := rfl

/-- The strict form of a negation without its blanks. -/
theorem squeezed_neg (f : Formula) :
    (neg f).render.squeezed = '(' :: negationGlyph :: (f.render.squeezed ++ ')' :: []) := by
  rw [render, Text.squeezed_append]
  rfl

/-- The strict form of a binary formula without its blanks. -/
theorem squeezed_binary (op : Connective) (f g : Formula) :
    (binary op f g).render.squeezed =
      '(' :: (f.render.squeezed ++ op.glyph :: (g.render.squeezed ++ ')' :: [])) := by
  have hop : isBlank op.glyph = false := by cases op <;> decide
  rw [render, List.append_assoc, Text.squeezed_append, Text.squeezed_cons (by decide),
    Text.squeezed_append, squeezed_blank, Text.squeezed_cons hop, squeezed_blank]
  rfl

/-- A strict form has the characters of its atoms and those that are written around them. -/
theorem forall_mem_render {p : Char → Prop} (layout : p ' ' ∧ p '(' ∧ p ')' ∧ p negationGlyph)
    (glyph : ∀ op : Connective, p op.glyph) (leaf : ∀ c, Atom.isAtom [c] = true → p c) {f : Formula}
    (h : f.IsProper) : ∀ c ∈ f.render, p c := by
  obtain ⟨hspace, hopen, hclose, hneg⟩ := layout
  induction f with
  | atom name =>
    obtain ⟨c, rfl, hc⟩ := h.atom_char
    exact fun d hd => List.mem_singleton.1 hd ▸ leaf c hc
  | neg f ih =>
    have hoperand := ih h.operand
    simpa [render, hspace, hopen, hclose, hneg, or_imp, forall_and] using hoperand
  | binary op f g ihf ihg =>
    have hleft := ihf h.left
    have hright := ihg h.right
    simpa [render, hspace, hopen, hclose, glyph op, or_imp, forall_and] using ⟨hleft, hright⟩

/-- No spelling but glyphs occurs in the strict form. -/
theorem glyphs_render {f : Formula} (h : f.IsProper) : f.render.glyphs = f.render :=
  Text.glyphs_of_isInert
    (forall_mem_render (by decide) isInert_glyph (fun _ => Atom.isInert_of_isAtom) h)

theorem lex_squeezed_render {f : Formula} (h : f.IsProper) :
    lex f.render.squeezed = f.tokens := by
  induction f with
  | atom name =>
    obtain ⟨c, rfl, hc⟩ := h.atom_char
    have hglyph : isGlyph c = false := Atom.not_isGlyph hc
    rw [render, Text.squeezed_cons (Atom.not_isBlank hc)]
    simp [Text.squeezed, lex, fragments, hglyph, tokens]
  | neg f ih =>
    rw [squeezed_neg, lex_glyph (by decide), lex_glyph (by decide), lex_append_glyph (by decide),
      ih h.operand]
    rfl
  | binary op f g ihf ihg =>
    have hop : isGlyph op.glyph = true := by cases op <;> decide
    have htok : Token.ofText [op.glyph] = Token.conn op := ofText_text_of_operator (.binary op)
    rw [squeezed_binary, lex_glyph (by decide), lex_append_glyph hop, lex_append_glyph (by decide),
      ihf h.left, ihg h.right, htok, tokens, List.append_assoc]
    rfl

/-- The tokens of the strict form. -/
theorem ofFormula_render {f : Formula} (h : f.IsProper) : ofFormula f.render = f.tokens := by
  rw [ofFormula, Text.compact, glyphs_render h, lex_squeezed_render h]

/-- What stands at a leaf or in parentheses may stand at every level. -/
theorem Derives.of_atom {ts : List Token} {f : Formula} (h : Derives .atom ts f) (level : Level) :
    Derives level ts f := by
  match level with
  | .chain op =>
    exact h.spells.chain op fun op' hop => absurd (h.outer_rank op' hop) (by cases op' <;> decide)
  | .negation => exact .basic h
  | .atom => exact h

theorem derives_tokens {f : Formula} (h : f.IsProper) : Derives .atom f.tokens f := by
  induction f with
  | atom name =>
    have hleaf : Derives .atom [Token.ofText name] (.atom (Token.ofText name).text) :=
      .leaf ((isAtom_ofText name).trans (h name (List.mem_singleton.2 rfl)))
    rwa [text_ofText] at hleaf
  | neg f ih => exact .group (Derives.negate ((ih h.operand).of_atom _)).spells
  | binary op f g ihf ihg =>
    have hjoin : Derives (.chain op) (f.tokens ++ .conn op :: g.tokens) (binary op f g) :=
      .join ((ihf h.left).of_atom _) ((ihg h.right).of_atom _)
    exact .group hjoin.spells

/-- The strict form spells the formula. -/
theorem spells_tokens {f : Formula} (h : f.IsProper) : Spells f.tokens f :=
  (derives_tokens h).spells

/-- Reading undoes writing, if there is room for the formula. -/
theorem ofText_render {f : Formula} (h : f.IsProper) {maxDepth : Int}
    (hd : (f.depth : Int) ≤ maxDepth) : ofText maxDepth f.render = .ok f := by
  rw [ofText, ofFormula_render h]
  exact parse_eq_ok_iff.2 ⟨spells_tokens h, hd⟩

/-- What is read is a proper formula of the allowed depth. -/
theorem isProper_of_ofText {maxDepth : Int} {t : Text} {f : Formula}
    (h : ofText maxDepth t = .ok f) : f.IsProper ∧ (f.depth : Int) ≤ maxDepth := by
  obtain ⟨hs, hd⟩ := parse_eq_ok_iff.1 h
  exact ⟨hs.isProper, hd⟩

/-- A text has a strict form if it can be read: that of the formula. -/
theorem canonical?_eq_some_iff {maxDepth : Int} {t form : Text} :
    canonical? maxDepth t = some form ↔ ∃ f, ofText maxDepth t = .ok f ∧ f.render = form := by
  unfold canonical?
  cases h : ofText maxDepth t with
  | error e => simp [Except.toOption]
  | ok f => simp [Except.toOption]

/-- Reading the strict form of what was read gives it again. -/
theorem ofText_render_of_ofText {maxDepth : Int} {t : Text} {f : Formula}
    (h : ofText maxDepth t = .ok f) : ofText maxDepth f.render = .ok f := by
  obtain ⟨hp, hd⟩ := isProper_of_ofText h
  exact ofText_render hp hd

theorem render_injective {f g : Formula} (hf : f.IsProper) (hg : g.IsProper)
    (h : f.render = g.render) : f = g := by
  have hs := spells_tokens hf
  rw [← ofFormula_render hf, h, ofFormula_render hg] at hs
  exact hs.unique (spells_tokens hg)

/-- The strict form of a proper formula is read as the formula, so different formulas have different
strict forms. The strict form of what was read is its own strict form and is read as the same
formula. -/
theorem reading_undoes_writing :
    (∀ (f : Formula) (maxDepth : Int), f.IsProper → (f.depth : Int) ≤ maxDepth →
      parse maxDepth (Token.ofFormula f.render) = .ok f) ∧
    (∀ f g : Formula, f.IsProper → g.IsProper → f.render = g.render → f = g) ∧
    (∀ (maxDepth : Int) (t form : Text), canonical? maxDepth t = some form →
      canonical? maxDepth form = some form ∧
        orErrorMark (ofText maxDepth form) = orErrorMark (ofText maxDepth t)) := by
  refine ⟨fun f maxDepth hp hd => ofText_render hp hd, fun f g => render_injective, ?_⟩
  intro maxDepth t form h
  obtain ⟨f, hf, rfl⟩ := canonical?_eq_some_iff.1 h
  have hagain := ofText_render_of_ofText hf
  exact ⟨canonical?_eq_some_iff.2 ⟨f, hagain, rfl⟩, by rw [hf, hagain]⟩

/-- Other spellings, a lower case letter and literals are read and written again. -/
theorem reading_undoes_writing_mixed :
    let f := binary .iff (neg (atom ['p'])) (binary .and (atom ['T']) (atom ['0']))
    let form : Text := "((¬ p) ⇔ (T ∧ 0))".toList
    f.IsProper ∧ parse 2 (Token.ofFormula f.render) = .ok f ∧
      canonical? 2 "~p<->T /\\ 0".toList = some form ∧ canonical? 2 form = some form := by
  intro f form
  have hp : f.IsProper := by
    intro name hn
    have : name = ['p'] ∨ name = ['T'] ∨ name = ['0'] := by simpa [f, leaves] using hn
    rcases this with rfl | rfl | rfl <;> decide
  have hform : canonical? 2 "~p<->T /\\ 0".toList = some form := by cbv
  obtain ⟨hread, hinjective, hagain⟩ := reading_undoes_writing
  have hf : f = f := hinjective f f hp hp rfl
  exact ⟨hp, hf ▸ hread f 2 hp (by decide), hform, (hagain 2 _ form hform).1⟩

end LogicTrainer.Formula
