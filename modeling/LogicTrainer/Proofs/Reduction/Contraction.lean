import LogicTrainer.Proofs.Reduction.Grounding
import LogicTrainer.Proofs.Reduction.Firing
import LogicTrainer.Proofs.Reduction.Collapsing

/-! Moves on trees.

A reduction works on a flat token list and never sees a tree. On the tokens of a strict form
it behaves as if it did: an operator that can fire is a node of the tree with bits below it,
firing leaves its value alone between two parentheses, and collapsing takes these away, so
that what remains is the strict form of the tree with the node contracted
(`exists_contracts_of_fires`). A contraction keeps the value, and takes one operator away.
As long as a tree has an operator it has one to contract, so a strict form is stuck only
when it is a bit (`exists_fires`). -/
namespace LogicTrainer

namespace Formula
open Token Reduction

/-! ### Strict forms have nothing to collapse -/

/-- A parenthesis in front changes nothing unless a single bit follows and then its partner. -/
theorem isCollapsed_lparen {ts : List Token} (h : ∀ b rest, ts ≠ .bit b :: .rparen :: rest) :
    isCollapsed (.lparen :: ts) = isCollapsed ts := by
  rw [isCollapsed.eq_def]
  split
  · next heq => cases heq
  · next b rest heq =>
    cases heq
    exact absurd rfl (h b rest)
  · next heq =>
    cases heq
    rfl

theorem isCollapsed_cons {t : Token} (h : t ≠ .lparen) (ts : List Token) :
    isCollapsed (t :: ts) = isCollapsed ts := by
  cases t <;> first | rfl | exact absurd rfl h

theorem isCollapsed_tokens_append {f : Formula} (h : f.IsProper) (rest : List Token) :
    isCollapsed (f.tokens ++ rest) = isCollapsed rest := by
  induction f generalizing rest with
  | atom name => exact isCollapsed_cons (h.ofText_ne rfl) rest
  | neg f ih =>
    rw [tokens, List.append_assoc, List.cons_append, isCollapsed_lparen (by simp),
      List.cons_append, isCollapsed_cons (by simp), ih h.operand]
    exact isCollapsed_cons (by simp) rest
  | binary op f g ihf ihg =>
    have hne : ∀ b r, f.tokens ++ (.conn op :: (g.tokens ++ .rparen :: rest)) ≠ .bit b :: .rparen :: r := by
      intro b r he
      rcases tokens_cases f with ⟨name, _, hf⟩ | ⟨inner, hf⟩ <;> rw [hf] at he <;> simp at he
    have hshape : (binary op f g).tokens ++ rest =
        .lparen :: (f.tokens ++ (.conn op :: (g.tokens ++ .rparen :: rest))) := by simp [tokens]
    rw [hshape, isCollapsed_lparen hne, ihf h.left, isCollapsed_cons (by simp), ihg h.right]
    exact isCollapsed_cons (by simp) rest

/-- In a strict form no bit stands alone between parentheses. -/
theorem collapse_tokens {f : Formula} (h : f.IsProper) : collapse f.tokens = f.tokens := by
  apply collapse_eq_self
  have := isCollapsed_tokens_append h []
  rwa [List.append_nil] at this

/-! ### Contraction -/

/-- A node with bits below it is replaced by its value. -/
inductive Contracts : Formula → Formula → Prop where
  | not (b : Bool) : Contracts (.neg (.atom (Atom.bit b))) (.atom (Atom.bit (!b)))
  | apply (op : Connective) (l r : Bool) :
    Contracts (.binary op (.atom (Atom.bit l)) (.atom (Atom.bit r)))
      (.atom (Atom.bit (op.apply l r)))
  | neg {f g : Formula} (h : Contracts f g) : Contracts (.neg f) (.neg g)
  | left {op : Connective} {f g k : Formula} (h : Contracts f g) :
    Contracts (.binary op f k) (.binary op g k)
  | right {op : Connective} {f g k : Formula} (h : Contracts f g) :
    Contracts (.binary op k f) (.binary op k g)

namespace Contracts
variable {f g : Formula}

theorem isGround (h : Contracts f g) (hf : f.IsGround) : g.IsGround := by
  induction h with
  | not | apply => exact isGround_bit _
  | neg _ ih => exact ih hf.operand
  | left _ ih => exact (ih hf.left).binary hf.right
  | right _ ih => exact hf.left.binary (ih hf.right)

theorem value_eq (h : Contracts f g) (values : Text → Bool) : g.value values = f.value values := by
  induction h with
  | not b => rw [value_bit, value, value_bit]
  | apply op l r => rw [value_bit, value, value_bit, value_bit]
  | neg _ ih => rw [value, value, ih]
  | left _ ih | right _ ih => rw [value, value, ih]

theorem connectives_eq (h : Contracts f g) : f.connectives = g.connectives + 1 := by
  induction h with
  | not | apply => rfl
  | neg _ ih => rw [connectives, connectives, ih]
  | left _ ih | right _ ih =>
    rw [connectives, connectives, ih]
    omega

theorem depth_le (h : Contracts f g) : g.depth ≤ f.depth := by
  induction h with
  | not | apply => exact Nat.zero_le _
  | neg _ ih => exact Nat.succ_le_succ ih
  | left _ ih | right _ ih =>
    simp only [depth]
    omega

end Contracts

/-! ### Where a redex stands -/

/-- A stretch that does not hold a token stands on one side of it. -/
theorem side_of_not_mem {x y before redex after : List Token} {t : Token} (ht : t ∉ redex)
    (h : x ++ t :: y = before ++ (redex ++ after)) :
    (∃ a, x = before ++ (redex ++ a) ∧ after = a ++ t :: y) ∨
      ∃ a, before = x ++ t :: a ∧ y = a ++ (redex ++ after) := by
  rcases List.append_eq_append_iff.1 h with ⟨a, hbefore, hy⟩ | ⟨a, hx, hy⟩
  · cases a with
    | nil =>
      cases redex with
      | nil => exact .inl ⟨[], by simpa using hbefore.symm, hy.symm⟩
      | cons u redex => exact absurd (List.cons.inj hy).1 fun e => ht (e ▸ List.mem_cons_self)
    | cons u a =>
      obtain ⟨rfl, rfl⟩ := List.cons.inj hy
      exact .inr ⟨a, hbefore, rfl⟩
  · rcases List.append_eq_append_iff.1 hy with ⟨c, ha, hc⟩ | ⟨c, hr, hc⟩
    · exact .inl ⟨c, by rw [hx, ha], hc⟩
    · cases c with
      | nil => exact .inl ⟨[], by rw [hx, hr]; simp, hc.symm⟩
      | cons u c =>
        obtain ⟨rfl, _⟩ := List.cons.inj hc
        exact absurd (hr ▸ List.mem_append_right _ List.mem_cons_self) ht

/-- Around a connective a redex stands to its left, to its right, or is the connective with
the bits next to it. -/
theorem side_of_conn {x y before redex after : List Token} {c : Connective} {op : Operator}
    {value : Bool} (hr : Redex redex op value)
    (h : x ++ .conn c :: y = before ++ (redex ++ after)) :
    (∃ a, x = before ++ (redex ++ a) ∧ after = a ++ .conn c :: y) ∨
      (∃ a, before = x ++ .conn c :: a ∧ y = a ++ (redex ++ after)) ∨
      ∃ l r, x = before ++ [.bit l] ∧ y = .bit r :: after ∧ value = c.apply l r := by
  cases hr with
  | not b =>
    rcases side_of_not_mem (by simp) h with hl | hr
    · exact .inl hl
    · exact .inr (.inl hr)
  | binary op l r =>
    have h : x ++ .conn c :: y = (before ++ [.bit l]) ++ .conn op :: (.bit r :: after) := by
      simpa using h
    rcases List.append_eq_append_iff.1 h with ⟨a, hbefore, hy⟩ | ⟨a, hx, hy⟩
    · cases a with
      | nil =>
        obtain ⟨hop, rfl⟩ := List.cons.inj hy
        cases hop
        exact .inr (.inr ⟨l, r, by simpa using hbefore.symm, rfl, rfl⟩)
      | cons u a =>
        obtain ⟨rfl, rfl⟩ := List.cons.inj hy
        rcases List.eq_nil_or_concat a with rfl | ⟨a, d, rfl⟩
        · have := (List.append_inj' hbefore rfl).2
          simp at this
        · rw [List.concat_eq_append, ← List.cons_append, ← List.append_assoc] at hbefore
          obtain ⟨rfl, hd⟩ := List.append_inj' hbefore rfl
          obtain ⟨rfl, -⟩ := List.cons.inj hd
          exact .inr (.inl ⟨a, rfl, by simp⟩)
    · match a with
      | [] =>
        obtain ⟨hop, rfl⟩ := List.cons.inj hy
        cases hop
        exact .inr (.inr ⟨l, r, by simpa using hx, rfl, rfl⟩)
      | [u] => simp at hy
      | u :: v :: a =>
        obtain ⟨rfl, htail⟩ := List.cons.inj hy
        obtain ⟨rfl, hafter⟩ := List.cons.inj htail
        exact .inl ⟨a, by simp [hx], hafter⟩

theorem Redex.not_mem {redex : List Token} {op : Operator} {value : Bool}
    (h : Redex redex op value) : Token.lparen ∉ redex ∧ Token.rparen ∉ redex ∧ redex ≠ [] := by
  cases h <;> simp

theorem Redex.two_le_length {redex : List Token} {op : Operator} {value : Bool}
    (h : Redex redex op value) : 2 ≤ redex.length := by
  cases h <;> simp

/-- A stretch without parentheses inside of parentheses stands between them. -/
theorem side_of_parens {inner before stretch after : List Token} (hl : .lparen ∉ stretch)
    (hr : .rparen ∉ stretch) (hne : stretch ≠ [])
    (h : .lparen :: inner ++ [.rparen] = before ++ (stretch ++ after)) :
    ∃ b a, before = .lparen :: b ∧ after = a ++ [.rparen] ∧ inner = b ++ (stretch ++ a) := by
  have h : [] ++ .lparen :: (inner ++ [.rparen]) = before ++ (stretch ++ after) := h
  rcases side_of_not_mem hl h with ⟨a, hnil, _⟩ | ⟨b, hbefore, hin⟩
  · exact absurd (List.append_eq_nil_iff.1 (List.append_eq_nil_iff.1 hnil.symm).2).1 hne
  · rcases side_of_not_mem hr hin with ⟨a, hinner, hafter⟩ | ⟨a, _, hnil⟩
    · exact ⟨b, a, hbefore, hafter, hinner⟩
    · exact absurd (List.append_eq_nil_iff.1 (List.append_eq_nil_iff.1 hnil.symm).2).1 hne

/-- A redex inside of parentheses stands between them. -/
theorem side_of_group {inner before redex after : List Token} {op : Operator} {value : Bool}
    (hr : Redex redex op value)
    (h : .lparen :: inner ++ [.rparen] = before ++ (redex ++ after)) :
    ∃ b a, before = .lparen :: b ∧ after = a ++ [.rparen] ∧ inner = b ++ (redex ++ a) := by
  obtain ⟨hl, hrp, hne⟩ := Redex.not_mem hr
  exact side_of_parens hl hrp hne h

/-- A redex in a strict form is a node with bits below it: it stands alone between two
parentheses, and with its value in the place of these the form is that of the contracted
tree. -/
theorem exists_contracts_of_redex {f : Formula} (hf : f.IsGround) {redex before after : List Token}
    {op : Operator} {value : Bool} (hr : Redex redex op value)
    (h : f.tokens = before ++ (redex ++ after)) :
    ∃ b a g, before = b ++ [.lparen] ∧ after = .rparen :: a ∧
      g.tokens = b ++ .bit value :: a ∧ Contracts f g := by
  induction f generalizing before after with
  | atom name =>
    obtain ⟨b, rfl⟩ := hf name (List.mem_singleton.2 rfl)
    have hlen := congrArg List.length h
    have hshort := Redex.two_le_length hr
    simp only [tokens, List.length_append, List.length_singleton] at hlen
    omega
  | neg f ih =>
    obtain ⟨b, a, rfl, rfl, hin⟩ := side_of_group hr h
    cases b with
    | nil =>
      cases hr with
      | binary => cases hin
      | not b =>
        have hf' : f.tokens = .bit b :: a := (List.cons.inj hin).2
        obtain ⟨rfl, rfl⟩ := hf.operand.of_tokens_eq_cons hf'
        exact ⟨[], [], .atom (Atom.bit !b), rfl, rfl, by rw [tokens, ofText_bit]; rfl, .not b⟩
    | cons t b =>
      obtain ⟨rfl, hrest⟩ := List.cons.inj hin
      obtain ⟨b, a, g, rfl, rfl, hg, hc⟩ := ih hf.operand hrest
      exact ⟨.lparen :: .neg :: b, a ++ [.rparen], .neg g, rfl, rfl, by simp [tokens, hg], .neg hc⟩
  | binary c f g ihf ihg =>
    have h : .lparen :: (f.tokens ++ .conn c :: g.tokens) ++ [.rparen] =
        before ++ (redex ++ after) := by simpa [tokens] using h
    obtain ⟨b, a, rfl, rfl, hin⟩ := side_of_group hr h
    rcases side_of_conn hr hin with ⟨m, hx, rfl⟩ | ⟨m, rfl, hy⟩ | ⟨l, r, hl, hright, rfl⟩
    · obtain ⟨b, a, k, rfl, rfl, hk, hc⟩ := ihf hf.left hx
      exact ⟨.lparen :: b, a ++ .conn c :: g.tokens ++ [.rparen], .binary c k g, by simp, by simp,
        by simp [tokens, hk], .left hc⟩
    · obtain ⟨b, a, k, rfl, rfl, hk, hc⟩ := ihg hf.right hy
      exact ⟨.lparen :: f.tokens ++ .conn c :: b, a ++ [.rparen], .binary c f k, by simp, by simp,
        by simp [tokens, hk], .right hc⟩
    · obtain ⟨rfl, rfl⟩ := hf.left.of_tokens_eq_concat hl
      obtain ⟨rfl, rfl⟩ := hf.right.of_tokens_eq_cons hright
      exact ⟨[], [], .atom (Atom.bit (c.apply l r)), rfl, rfl, by rw [tokens, ofText_bit]; rfl,
        .apply c l r⟩

/-- A move on the tokens of a strict form is a contraction of its tree. -/
theorem exists_contracts_of_fires {f : Formula} (hf : f.IsGround) {next : List Token} {i : Nat}
    {op : Operator} (h : Fires f.tokens i op next) :
    ∃ g, Contracts f g ∧ collapse next = g.tokens := by
  generalize hts : f.tokens = ts at h
  obtain ⟨before, after, hr⟩ := h
  rw [List.append_assoc] at hts
  obtain ⟨b, a, g, rfl, rfl, hg, hc⟩ := exists_contracts_of_redex hf hr hts
  refine ⟨g, hc, ?_⟩
  rw [List.append_assoc, List.singleton_append, (Collapses.here b a _).collapse_eq, ← hg,
    collapse_tokens (hc.isGround hf).isProper]

/-- A ground formula without operators is a bit. -/
theorem IsGround.eq_bit {f : Formula} (h : f.IsGround) (hn : f.connectives = 0) :
    ∃ b, f = .atom (Atom.bit b) := by
  cases f with
  | atom name =>
    obtain ⟨b, rfl⟩ := h name (List.mem_singleton.2 rfl)
    exact ⟨b, rfl⟩
  | neg | binary => cases hn

/-- A ground formula with an operator has a node to contract. -/
theorem exists_fires {f : Formula} (hf : f.IsGround) (h : f.connectives ≠ 0) :
    ∃ i op next, Fires f.tokens i op next := by
  induction f with
  | atom => exact absurd rfl h
  | neg f ih =>
    by_cases hn : f.connectives = 0
    · obtain ⟨b, rfl⟩ := hf.operand.eq_bit hn
      rw [tokens, tokens, ofText_bit]
      exact ⟨_, _, _, Fires.not [.lparen] [.rparen] b⟩
    · obtain ⟨i, op, next, hfire⟩ := ih hf.operand hn
      exact ⟨_, _, _, hfire.append [.lparen, .neg] [.rparen]⟩
  | binary c f g ihf ihg =>
    by_cases hn : f.connectives = 0
    · by_cases hm : g.connectives = 0
      · obtain ⟨l, rfl⟩ := hf.left.eq_bit hn
        obtain ⟨r, rfl⟩ := hf.right.eq_bit hm
        rw [tokens, tokens, tokens, ofText_bit, ofText_bit]
        exact ⟨_, _, _, Fires.binary [.lparen] [.rparen] c l r⟩
      · obtain ⟨i, op, next, hfire⟩ := ihg hf.right hm
        have := hfire.append (.lparen :: f.tokens ++ [.conn c]) [.rparen]
        exact ⟨_, _, _, by simpa [tokens] using this⟩
    · obtain ⟨i, op, next, hfire⟩ := ihf hf.left hn
      have := hfire.append [.lparen] (.conn c :: g.tokens ++ [.rparen])
      exact ⟨_, _, _, by simpa [tokens] using this⟩

end Formula
end LogicTrainer
