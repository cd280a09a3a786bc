import LogicTrainer.Proofs.Reduction.Contraction

/-! Lists with a pair of parentheses for each binary connective.

A list need not be a strict form to be reduced. In a bracketed list every binary connective has
parentheses of its own, but negations may stand without any, and any part may have more than
one pair. So the bit before a connective may belong to a negation, and an operator that can
fire is not always one whose operands stand next to it. The order of binding makes up for this:
where a negation stands before a bit, only a negation may fire (`op_eq_not_of_legal`), and where
none does, the bits next to a connective are its whole operands. A legal move is then a
contraction of the tree that the list spells (`Bracketed.exists_contracts`), and a collapsed
list in which nothing can fire is a bit (`Bracketed.exists_fires`). -/
namespace LogicTrainer.Formula
open Token Reduction

/-- A list of bits and operators spells a tree, with parentheses around every binary connective,
and wherever else. -/
inductive Bracketed : List Token → Formula → Prop where
  | bit (b : Bool) : Bracketed [.bit b] (.atom (Atom.bit b))
  | neg {ts : List Token} {f : Formula} (h : Bracketed ts f) : Bracketed (.neg :: ts) (.neg f)
  | group {ts : List Token} {f : Formula} (h : Bracketed ts f) :
    Bracketed (.lparen :: ts ++ [.rparen]) f
  | binary (op : Connective) {left right : List Token} {f g : Formula} (hl : Bracketed left f)
    (hr : Bracketed right g) :
    Bracketed (.lparen :: (left ++ .conn op :: right) ++ [.rparen]) (.binary op f g)

/-! ### Reading -/

/-- A negation may stand at every level but that of atoms. -/
theorem Derives.of_negation {ts : List Token} {f : Formula} (h : Derives .negation ts f)
    {level : Level} (hlevel : level ≠ .atom) : Derives level ts f := by
  match level with
  | .chain op =>
    exact h.spells.chain op fun op' hop => absurd (h.outer_rank op' hop) (by cases op' <;> decide)
  | .negation => exact h
  | .atom => exact absurd rfl hlevel

section
variable {left right : List Token} {f g : Formula} {op : Connective}

/-- A negation may stand to the right of every connective. -/
theorem Derives.join_negation (hl : Derives (.chain op) left f) (hr : Derives .negation right g) :
    Derives (.chain op) (left ++ .conn op :: right) (.binary op f g) := by
  have hright : op.tighter ≠ .atom := by cases op <;> simp [Connective.tighter]
  exact .join hl (hr.of_negation hright)

/-- Negations may stand on both sides of every connective. -/
theorem Derives.join_negations (hl : Derives .negation left f) (hr : Derives .negation right g) :
    Derives (.chain op) (left ++ .conn op :: right) (.binary op f g) :=
  (hl.of_negation (by simp)).join_negation hr

end

namespace Bracketed
variable {ts : List Token} {f : Formula}

theorem derives (h : Bracketed ts f) : Derives .negation ts f := by
  induction h with
  | bit b => exact .basic (.leaf (t := .bit b) rfl)
  | neg _ ih => exact .negate ih
  | group _ ih => exact .basic (.group ih.spells)
  | binary op _ _ ihl ihr => exact .basic (.group (ihl.join_negations ihr).spells)

/-- A bracketed list is read as its tree, if there is room for it. -/
theorem parse_eq (h : Bracketed ts f) {maxDepth : Int} (hd : (f.depth : Int) ≤ maxDepth) :
    parse maxDepth ts = .ok f :=
  parse_eq_ok_iff.2 ⟨h.derives.spells, hd⟩

/-- The operators of the list are those of the tree. -/
theorem connectives_eq (h : Bracketed ts f) : Token.connectives ts = f.connectives :=
  h.derives.connectives_eq

/-! ### Where a bit stands at an end -/

/-- A list that starts with a bit is the bit. -/
theorem of_eq_cons (h : Bracketed ts f) {b : Bool} {rest : List Token} (ht : ts = .bit b :: rest) :
    f = .atom (Atom.bit b) ∧ rest = [] := by
  cases h with
  | bit c =>
    cases ht
    exact ⟨rfl, rfl⟩
  | neg | group | binary => cases ht

/-- A list that ends with a bit is the bit, or a negation stands before the bit. -/
theorem of_eq_concat (h : Bracketed ts f) {b : Bool} {rest : List Token}
    (ht : ts = rest ++ [.bit b]) :
    (f = .atom (Atom.bit b) ∧ rest = []) ∨ ∃ before, rest = before ++ [.neg] := by
  induction h generalizing rest with
  | bit c =>
    obtain ⟨rfl, hb⟩ := List.append_inj' (show [] ++ [Token.bit c] = rest ++ [.bit b] from ht) rfl
    cases hb
    exact .inl ⟨rfl, rfl⟩
  | neg _ ih =>
    cases rest with
    | nil => cases ht
    | cons t rest =>
      obtain ⟨rfl, hts⟩ := List.cons.inj ht
      rcases ih hts with ⟨-, rfl⟩ | ⟨before, rfl⟩
      · exact .inr ⟨[], rfl⟩
      · exact .inr ⟨.neg :: before, rfl⟩
  | group | binary => cases (List.append_inj' ht rfl).2

/-! ### Collapsing -/

/-- A parenthesis that is put before a bracketed list stays, or the list is a bit. -/
theorem putBefore_lparen (h : Bracketed ts f) (rest : List Token) :
    (∃ b, ts = [.bit b]) ∨ putBefore .lparen (ts ++ rest) = .lparen :: (ts ++ rest) := by
  cases h with
  | bit b => exact .inl ⟨b, rfl⟩
  | neg | group | binary => exact .inr rfl

/-- What is collapsed is bracketed still, and spells the same tree, whatever follows it. -/
theorem exists_collapse (h : Bracketed ts f) :
    ∃ us, Bracketed us f ∧ ∀ rest, collapse (ts ++ rest) = us ++ collapse rest := by
  induction h with
  | bit b => exact ⟨_, .bit b, fun _ => rfl⟩
  | neg _ ih =>
    obtain ⟨us, hus, hcollapse⟩ := ih
    refine ⟨_, hus.neg, fun rest => ?_⟩
    rw [List.cons_append, collapse, hcollapse]
    rfl
  | @group ts _ _ ih =>
    obtain ⟨us, hus, hcollapse⟩ := ih
    have hpass : ∀ rest, collapse (.lparen :: ts ++ [.rparen] ++ rest) =
        putBefore .lparen (us ++ .rparen :: collapse rest) := fun rest => by
      rw [List.append_assoc, List.cons_append, collapse, hcollapse]
      rfl
    by_cases hbit : ∃ b, us = [.bit b]
    · obtain ⟨b, rfl⟩ := hbit
      exact ⟨_, hus, hpass⟩
    · refine ⟨_, hus.group, fun rest => ?_⟩
      rw [hpass, (hus.putBefore_lparen _).resolve_left hbit]
      simp
  | @binary op left right _ _ _ _ ihl ihr =>
    obtain ⟨us, hus, hleft⟩ := ihl
    obtain ⟨vs, hvs, hright⟩ := ihr
    refine ⟨_, .binary op hus hvs, fun rest => ?_⟩
    have hpass : collapse (.lparen :: (left ++ .conn op :: right) ++ [.rparen] ++ rest) =
        putBefore .lparen (us ++ .conn op :: (vs ++ .rparen :: collapse rest)) := by
      simp only [List.append_assoc, List.cons_append, collapse, hleft, hright]
      rfl
    rw [hpass]
    rcases hus.putBefore_lparen (.conn op :: (vs ++ .rparen :: collapse rest)) with
      ⟨b, rfl⟩ | hstays
    · simp [putBefore]
    · rw [hstays]
      simp

theorem collapse (h : Bracketed ts f) : Bracketed (collapse ts) f := by
  obtain ⟨us, hus, hcollapse⟩ := h.exists_collapse
  have hnil := hcollapse []
  rw [List.append_nil] at hnil
  rw [hnil]
  simpa [Reduction.collapse] using hus

end Bracketed

/-! ### Firing -/

/-- A negation stands before a bit. -/
def NegatesBit (ts : List Token) : Prop :=
  ∃ before b after, ts = before ++ .neg :: .bit b :: after

theorem NegatesBit.append {ts : List Token} (h : NegatesBit ts) (before after : List Token) :
    NegatesBit (before ++ ts ++ after) := by
  obtain ⟨x, b, y, rfl⟩ := h
  exact ⟨before ++ x, b, y ++ after, by simp⟩

theorem NegatesBit.append_left {ts : List Token} (h : NegatesBit ts) (after : List Token) :
    NegatesBit (ts ++ after) :=
  h.append [] after

theorem NegatesBit.append_right {ts : List Token} (h : NegatesBit ts) (before : List Token) :
    NegatesBit (before ++ ts) := by
  have := h.append before []
  rwa [List.append_nil] at this

theorem NegatesBit.cons {ts : List Token} (h : NegatesBit ts) (t : Token) : NegatesBit (t :: ts) :=
  h.append_right [t]

/-- Where a negation stands before a bit, only a negation may fire. -/
theorem op_eq_not_of_legal {ts : List Token} {c : Candidate} (hc : c ∈ legalMoves ts)
    (hn : NegatesBit ts) : c.op = .not := by
  obtain ⟨before, b, after, rfl⟩ := hn
  have hcan : (⟨before.length, .not⟩ : Candidate) ∈ reducible (before ++ .neg :: .bit b :: after) :=
    mem_reducible_iff.2 ⟨_, Fires.not before after b⟩
  have hrank : Operator.not.rank ≤ c.op.rank := (mem_legalMoves_iff.1 hc).2 _ hcan
  cases hop : c.op with
  | not => rfl
  | binary op =>
    have hlt := Operator.rank_binary_lt op
    rw [hop] at hrank
    omega

/-- A redex of a bracketed list is a node with bits below it, if a connective fires only where no
negation stands before a bit. -/
theorem Bracketed.exists_contracts_of_redex {ts : List Token} {f : Formula} (h : Bracketed ts f)
    {redex before after : List Token} {op : Operator} {value : Bool} (hr : Redex redex op value)
    (hop : NegatesBit ts → op = .not) (ht : ts = before ++ (redex ++ after)) :
    ∃ g, Contracts f g ∧ Bracketed (before ++ .bit value :: after) g := by
  induction h generalizing before after with
  | bit b =>
    have hlen := congrArg List.length ht
    have hshort := Redex.two_le_length hr
    simp only [List.length_append, List.length_singleton] at hlen
    omega
  | @neg ts f h ih =>
    cases before with
    | nil =>
      cases hr with
      | binary => cases ht
      | not b =>
        obtain ⟨rfl, rfl⟩ := h.of_eq_cons (List.cons.inj ht).2
        exact ⟨_, .not b, .bit _⟩
    | cons t before =>
      obtain ⟨rfl, hts⟩ := List.cons.inj ht
      obtain ⟨g, hc, hg⟩ := ih (fun hn => hop (hn.cons _)) hts
      exact ⟨_, .neg hc, hg.neg⟩
  | @group ts f h ih =>
    obtain ⟨b, a, rfl, rfl, hin⟩ := side_of_group hr ht
    obtain ⟨g, hc, hg⟩ := ih (fun hn => hop (hn.append [.lparen] [.rparen])) hin
    exact ⟨g, hc, by simpa using hg.group⟩
  | @binary c left right f g hl hrt ihl ihr =>
    obtain ⟨b, a, rfl, rfl, hin⟩ := side_of_group hr ht
    have hleft : NegatesBit left → op = .not := fun hn =>
      hop (((hn.append_left _).cons .lparen).append_left _)
    rcases side_of_conn hr hin with ⟨m, hx, rfl⟩ | ⟨m, rfl, hy⟩ | ⟨l, r, hx, hy, hvalue⟩
    · obtain ⟨k, hc, hk⟩ := ihl hleft hx
      exact ⟨_, .left hc, by simpa using Bracketed.binary c hk hrt⟩
    · have hright : NegatesBit right → op = .not := fun hn =>
        hop ((((hn.cons _).append_right left).cons .lparen).append_left _)
      obtain ⟨k, hc, hk⟩ := ihr hright hy
      exact ⟨_, .right hc, by simpa using Bracketed.binary c hl hk⟩
    · obtain ⟨rfl, rfl⟩ := hrt.of_eq_cons hy
      rcases hl.of_eq_concat hx with ⟨rfl, rfl⟩ | ⟨before, rfl⟩
      · rw [hvalue]
        exact ⟨_, .apply c l r, (Bracketed.bit _).group⟩
      · -- the left bit belongs to a negation, but none stands here to fire
        obtain rfl : op = .not := hleft ⟨before, l, [], by simpa using hx⟩
        rw [hx, hy] at hin
        cases hr
        simp at hin

/-- A legal move in a bracketed list is a contraction of its tree. -/
theorem Bracketed.exists_contracts {ts next : List Token} {f : Formula} (h : Bracketed ts f)
    {c : Candidate} (hc : c ∈ legalMoves ts) (hfires : Fires ts c.index c.op next) :
    ∃ g, Contracts f g ∧ Bracketed next g := by
  have hop := op_eq_not_of_legal hc
  generalize c.index = i at hfires
  obtain ⟨before, after, hr⟩ := hfires
  exact h.exists_contracts_of_redex hr hop (List.append_assoc ..)

/-! ### Going on -/

theorem isCollapsed_of_append (before after : List Token) {ts : List Token}
    (h : isCollapsed (before ++ ts ++ after) = true) : isCollapsed ts = true := by
  rw [isCollapsed_iff] at h ⊢
  rintro _ ⟨x, y, b⟩
  have := Collapses.here (before ++ x) (y ++ after) b
  exact h _ (by simpa using this)

namespace Bracketed
variable {ts : List Token} {f : Formula}

/-- A collapsed list without operators is a bit. -/
theorem eq_bit (h : Bracketed ts f) (hcollapsed : isCollapsed ts = true) (hn : f.connectives = 0) :
    ∃ b, ts = [.bit b] ∧ f = .atom (Atom.bit b) := by
  induction h with
  | bit b => exact ⟨b, rfl, rfl⟩
  | neg | binary => cases hn
  | @group ts f _ ih =>
    obtain ⟨b, rfl, -⟩ := ih (isCollapsed_of_append [.lparen] [.rparen] hcollapsed) hn
    cases hcollapsed

/-- In a collapsed list with an operator something can fire. -/
theorem exists_fires (h : Bracketed ts f) (hcollapsed : isCollapsed ts = true)
    (hn : f.connectives ≠ 0) : ∃ i op next, Fires ts i op next := by
  induction h with
  | bit b => exact absurd rfl hn
  | @neg ts f h ih =>
    have hin : isCollapsed ts = true :=
      isCollapsed_of_append [.neg] [] (by simpa using hcollapsed)
    by_cases hzero : f.connectives = 0
    · obtain ⟨b, rfl, -⟩ := h.eq_bit hin hzero
      exact ⟨_, _, _, Fires.not [] [] b⟩
    · obtain ⟨i, op, next, hfires⟩ := ih hin hzero
      have := hfires.append [.neg] []
      exact ⟨_, _, _, by simpa using this⟩
  | group _ ih =>
    obtain ⟨i, op, next, hfires⟩ := ih (isCollapsed_of_append [.lparen] [.rparen] hcollapsed) hn
    exact ⟨_, _, _, hfires.append [.lparen] [.rparen]⟩
  | @binary c left right f g hl hr ihl ihr =>
    have hleft : isCollapsed left = true :=
      isCollapsed_of_append [.lparen] (.conn c :: right ++ [.rparen])
        (by simpa using hcollapsed)
    have hright : isCollapsed right = true :=
      isCollapsed_of_append (.lparen :: left ++ [.conn c]) [.rparen]
        (by simpa using hcollapsed)
    by_cases hzero : f.connectives = 0
    · by_cases hzero' : g.connectives = 0
      · obtain ⟨l, rfl, -⟩ := hl.eq_bit hleft hzero
        obtain ⟨r, rfl, -⟩ := hr.eq_bit hright hzero'
        exact ⟨_, _, _, Fires.binary [.lparen] [.rparen] c l r⟩
      · obtain ⟨i, op, next, hfires⟩ := ihr hright hzero'
        have := hfires.append (.lparen :: left ++ [.conn c]) [.rparen]
        exact ⟨_, _, _, by simpa using this⟩
    · obtain ⟨i, op, next, hfires⟩ := ihl hleft hzero
      have := hfires.append [.lparen] (.conn c :: right ++ [.rparen])
      exact ⟨_, _, _, by simpa using this⟩

end Bracketed

end LogicTrainer.Formula
