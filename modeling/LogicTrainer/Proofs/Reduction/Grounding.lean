import LogicTrainer.Proofs.Formula.StrictForm
import LogicTrainer.Reduction.Solve
import LogicTrainer.Formula.Value

/-! Strict forms with bits at the leaves.

Substituting in the tokens of a strict form gives the strict form of the tree with its leaves
replaced (`substitute_tokens`), and this tree has the value of the formula whatever is
assigned. A strict form has nothing to collapse (`collapse_tokens`), holds the operators of
its tree, and is printed as it is rendered (`line_tokens`). -/
namespace LogicTrainer.Formula
open Token Reduction

/-! ### The shape of strict forms -/

/-- The strict form of anything but an atom starts and ends with a parenthesis. -/
theorem tokens_cases (f : Formula) :
    (∃ name, f = .atom name ∧ f.tokens = [Token.ofText name]) ∨
      ∃ inner, f.tokens = .lparen :: inner ++ [.rparen] := by
  cases f with
  | atom name => exact .inl ⟨name, rfl, rfl⟩
  | neg f => exact .inr ⟨.neg :: f.tokens, rfl⟩
  | binary op f g => exact .inr ⟨f.tokens ++ .conn op :: g.tokens, by simp [tokens]⟩

/-- The token of an atom is a bit or a word. -/
theorem IsProper.ofText_ne {name : Text} (h : (atom name).IsProper) {t : Token}
    (ht : t.isAtom = false) : Token.ofText name ≠ t := by
  intro he
  have ha := (isAtom_ofText name).trans (h name (List.mem_singleton.2 rfl))
  rw [he, ht] at ha
  cases ha

/-- A list has the operators of the formula that it spells. -/
theorem Derives.connectives_eq {level : Level} {ts : List Token} {f : Formula}
    (h : Derives level ts f) : Token.connectives ts = f.connectives := by
  induction h with
  | join _ _ ihl ihr =>
    rw [connectives, ← ihl, ← ihr, Token.connectives, List.countP_append, List.countP_cons_of_pos rfl]
    rfl
  | tighter _ ih | basic _ ih => exact ih
  | negate _ ih =>
    rw [connectives, ← ih, Token.connectives, List.countP_cons_of_pos rfl]
    rfl
  | @leaf t ht =>
    cases t with
    | bit | word => rfl
    | neg | conn | lparen | rparen => cases ht
  | group _ ih =>
    rw [← ih, Token.connectives, List.countP_append, List.countP_cons_of_neg (by decide)]
    rfl

/-- The operators of the strict form are those of the tree. -/
theorem connectives_tokens {f : Formula} (h : f.IsProper) :
    Token.connectives f.tokens = f.connectives :=
  (derives_tokens h).connectives_eq

/-! ### Printing -/

/-- Between two tokens stands a blank, unless there is a parenthesis that has none. -/
theorem line_append (before : List Token) (a b : Token) (after : List Token) :
    line (before ++ a :: b :: after) =
      line (before ++ [a]) ++ (if a = .lparen ∨ b = .rparen then [] else [' ']) ++
        line (b :: after) := by
  induction before with
  | nil => rfl
  | cons t before ih =>
    cases before with
    | nil =>
      simp only [List.nil_append, List.cons_append] at ih ⊢
      rw [line, ih]
      simp [line]
    | cons u before =>
      simp only [List.cons_append] at ih ⊢
      rw [line, ih]
      simp [line]

/-- A strict form starts with its first token and ends with its last, and these are no
parentheses that open or close the other way. -/
theorem IsProper.exists_ends {f : Formula} (h : f.IsProper) :
    (∃ t rest, f.tokens = t :: rest ∧ t ≠ .rparen) ∧
      ∃ rest t, f.tokens = rest ++ [t] ∧ t ≠ .lparen := by
  rcases tokens_cases f with ⟨name, rfl, hf⟩ | ⟨inner, hf⟩
  · exact ⟨⟨_, [], hf, h.ofText_ne rfl⟩, [], _, hf, h.ofText_ne rfl⟩
  · exact ⟨⟨_, _, hf, by simp⟩, _, _, hf, by simp⟩

/-- A strict form in front of a token. -/
theorem line_tokens_before {f : Formula} (h : f.IsProper) (before : List Token) (t : Token) :
    line (before ++ f.tokens ++ [t]) =
      line (before ++ f.tokens) ++ (if t = .rparen then [] else [' ']) ++ t.text := by
  obtain ⟨-, rest, u, hf, hu⟩ := h.exists_ends
  have hline := line_append (before ++ rest) u t []
  rw [hf]
  simpa [line, hu] using hline

/-- A strict form behind a token. -/
theorem line_tokens_after {f : Formula} (h : f.IsProper) (before : List Token) (t : Token) :
    line (before ++ t :: f.tokens) =
      line (before ++ [t]) ++ (if t = .lparen then [] else [' ']) ++ line f.tokens := by
  obtain ⟨⟨u, rest, hf, hu⟩, -⟩ := h.exists_ends
  have hline := line_append before t u rest
  rw [hf]
  simpa [hu] using hline

/-- The strict form is printed as it is rendered. -/
theorem line_tokens {f : Formula} (h : f.IsProper) : line f.tokens = f.render := by
  induction f with
  | atom name => exact text_ofText name
  | neg f ih =>
    have hclose := line_tokens_before h.operand [.lparen, .neg] .rparen
    have hneg := line_tokens_after h.operand [.lparen] .neg
    rw [ih h.operand] at hneg
    simp only [List.cons_append, List.nil_append] at hclose hneg
    rw [tokens, List.cons_append, List.cons_append, hclose, hneg]
    simp [line, text, render]
  | binary op f g ihf ihg =>
    have hopen := line_tokens_after h.left [] .lparen
    have hop := line_tokens_before h.left [.lparen] (.conn op)
    have hright := line_tokens_after h.right (.lparen :: f.tokens) (.conn op)
    have hclose := line_tokens_before h.right (.lparen :: f.tokens ++ [.conn op]) .rparen
    rw [ihf h.left] at hopen
    rw [ihg h.right] at hright
    simp only [List.cons_append, List.nil_append, List.append_assoc] at hopen hop hright hclose
    rw [tokens, List.append_assoc, List.cons_append, List.cons_append, hclose, hright, hop, hopen]
    simp [line, text, render]

/-! ### Ground formulas -/

/-- A formula of which every leaf is a bit. -/
def IsGround (f : Formula) : Prop := ∀ name ∈ f.leaves, ∃ b, name = Atom.bit b

theorem isGround_bit (b : Bool) : (atom (Atom.bit b)).IsGround :=
  fun _ hn => ⟨b, List.mem_singleton.1 hn⟩

theorem IsGround.operand {f : Formula} (h : (neg f).IsGround) : f.IsGround := h

theorem IsGround.left {op : Connective} {f g : Formula} (h : (binary op f g).IsGround) :
    f.IsGround := fun name hn => h name (List.mem_append_left _ hn)

theorem IsGround.right {op : Connective} {f g : Formula} (h : (binary op f g).IsGround) :
    g.IsGround := fun name hn => h name (List.mem_append_right _ hn)

theorem IsGround.binary {op : Connective} {f g : Formula} (hf : f.IsGround) (hg : g.IsGround) :
    (binary op f g).IsGround := by
  intro name hn
  rcases List.mem_append.1 hn with hn | hn
  · exact hf name hn
  · exact hg name hn

theorem IsGround.isProper {f : Formula} (h : f.IsGround) : f.IsProper := by
  intro name hn
  obtain ⟨b, rfl⟩ := h name hn
  cases b <;> decide

theorem ofText_bit (b : Bool) : Token.ofText (Atom.bit b) = .bit b := by cases b <;> rfl

/-- A ground formula is a bit, or its strict form starts and ends with a parenthesis. -/
theorem IsGround.tokens_cases {f : Formula} (h : f.IsGround) :
    (∃ b, f = .atom (Atom.bit b) ∧ f.tokens = [.bit b]) ∨
      ∃ inner, f.tokens = .lparen :: inner ++ [.rparen] := by
  rcases Formula.tokens_cases f with ⟨name, rfl, hf⟩ | hf
  · obtain ⟨b, rfl⟩ := h name (List.mem_singleton.2 rfl)
    exact .inl ⟨b, rfl, by rw [hf, ofText_bit]⟩
  · exact .inr hf

/-- A strict form that starts with a bit is this bit. -/
theorem IsGround.of_tokens_eq_cons {f : Formula} (h : f.IsGround) {b : Bool} {rest : List Token}
    (ht : f.tokens = .bit b :: rest) : f = .atom (Atom.bit b) ∧ rest = [] := by
  rcases h.tokens_cases with ⟨c, rfl, hc⟩ | ⟨inner, hgroup⟩
  · obtain ⟨hb, rfl⟩ := List.cons.inj (hc.symm.trans ht)
    cases hb
    exact ⟨rfl, rfl⟩
  · cases hgroup.symm.trans ht

/-- A strict form that ends with a bit is this bit. -/
theorem IsGround.of_tokens_eq_concat {f : Formula} (h : f.IsGround) {b : Bool}
    {rest : List Token} (ht : f.tokens = rest ++ [.bit b]) :
    f = .atom (Atom.bit b) ∧ rest = [] := by
  rcases h.tokens_cases with ⟨c, rfl, hc⟩ | ⟨inner, hgroup⟩
  · obtain ⟨rfl, hb⟩ := List.append_inj' (show [] ++ [Token.bit c] = rest ++ [.bit b] from hc.symm.trans ht) rfl
    cases hb
    exact ⟨rfl, rfl⟩
  · have := (List.append_inj' (hgroup.symm.trans ht) rfl).2
    cases this

/-- The value of a bit is the bit. -/
theorem value_bit (values : Text → Bool) (b : Bool) : (atom (Atom.bit b)).value values = b := by
  cases b <;> rfl

/-- The value of a ground formula does not depend on what is assigned. -/
theorem IsGround.value_eq {f : Formula} (h : f.IsGround) (values values' : Text → Bool) :
    f.value values = f.value values' := by
  induction f with
  | atom name =>
    obtain ⟨b, rfl⟩ := h name (List.mem_singleton.2 rfl)
    rw [value_bit, value_bit]
  | neg f ih => rw [value, value, ih h.operand]
  | binary op f g ihf ihg => rw [value, value, ihf h.left, ihg h.right]

/-! ### Substituting -/

/-- The formula with bits in the place of its leaves, given the values of names in capitals. -/
def ground (values : Text → Bool) : Formula → Formula
  | .atom name => .atom (Atom.bit (atomValue values name))
  | .neg operand => .neg (operand.ground values)
  | .binary op left right => .binary op (left.ground values) (right.ground values)

section
variable (values : Text → Bool)

theorem isGround_ground (f : Formula) : (f.ground values).IsGround := by
  induction f with
  | atom => exact isGround_bit _
  | neg f ih => exact ih
  | binary op f g ihf ihg => exact ihf.binary ihg

theorem value_ground (f : Formula) (values' : Text → Bool) :
    (f.ground values).value values' = f.value values := by
  induction f with
  | atom name => exact value_bit values' _
  | neg f ih => rw [ground, value, value, ih]
  | binary op f g ihf ihg => rw [ground, value, value, ihf, ihg]

theorem depth_ground (f : Formula) : (f.ground values).depth = f.depth := by
  induction f with
  | atom => rfl
  | neg f ih => rw [ground, depth, depth, ih]
  | binary op f g ihf ihg => rw [ground, depth, depth, ihf, ihg]

theorem connectives_ground (f : Formula) : (f.ground values).connectives = f.connectives := by
  induction f with
  | atom => rfl
  | neg f ih => rw [ground, connectives, connectives, ih]
  | binary op f g ihf ihg => rw [ground, connectives, connectives, ihf, ihg]

/-- A token at a leaf becomes the bit of its value. -/
theorem substituteToken_of_isAtom {t : Token} (h : t.isAtom = true) :
    substituteToken values t = .bit (atomValue values t.text) := by
  cases t with
  | neg | conn | lparen | rparen => cases h
  | bit b => exact congrArg Token.bit (value_bit values b).symm
  | word w =>
    have hp : (atom w).IsProper := fun name hn => List.mem_singleton.1 hn ▸ h
    rw [atomValue, Token.text, hp.not_isErrorMark]
    rfl

theorem substituteToken_ofText {name : Text} (h : (atom name).IsProper) :
    substituteToken values (Token.ofText name) = .bit (atomValue values name) := by
  have hatom := (isAtom_ofText name).trans (h name (List.mem_singleton.2 rfl))
  rw [substituteToken_of_isAtom values hatom, text_ofText]

/-- Substituting in a strict form gives the strict form of the ground formula. -/
theorem substitute_tokens {f : Formula} (h : f.IsProper) :
    substitute values f.tokens = (f.ground values).tokens := by
  induction f with
  | atom name =>
    have := substituteToken_ofText values h
    rw [tokens, substitute, List.map_singleton, this, ground, tokens, ofText_bit]
  | neg f ih =>
    have := ih h.operand
    simp_all [tokens, substitute, ground, substituteToken]
  | binary op f g ihf ihg =>
    have hf := ihf h.left
    have hg := ihg h.right
    simp_all [tokens, substitute, ground, substituteToken]

end

end LogicTrainer.Formula
