import LogicTrainer.Proofs.Reduction.Bracketed
import LogicTrainer.Proofs.Reduction.Substitution
import LogicTrainer.Proofs.Reduction.Solving

/-! Lists without parentheses.

In a flat list neighbouring operators share the bit between them, so the order in which they fire
decides the value. Nothing but the order of binding stands for the parentheses here, and it takes
two facts to see that it is enough. Where no negation stands before a bit, every connective stands
between bits (`Derives.exists_fires_of_conn`), so a legal connective binds tightest of all that are
there, and the leftmost one tighter than all to its left (`Derives.rank_le_of_leftmost`). And the
grammar puts the connectives that bind tightest deepest, equal ones to the left, so the two
operands of that connective are the bits next to it (`Derives.exists_contracts_of_redex`). The
leftmost move then contracts the tree that the list spells, and what is left is flat and spells
the contracted tree (`SpellsFlat.exists_contracts`).

The main statement is `flat_solving_agrees`. -/
namespace LogicTrainer.Formula
open Token Reduction

/-- Nothing but operators and bits. -/
def IsFlat (ts : List Token) : Prop := ∀ t ∈ ts, t.isConnective = true ∨ ∃ b, t = .bit b

section
variable {x y : List Token} {t : Token}

theorem isFlat_append : IsFlat (x ++ y) ↔ IsFlat x ∧ IsFlat y := List.forall_mem_append

theorem isFlat_cons : IsFlat (t :: x) ↔ (t.isConnective = true ∨ ∃ b, t = .bit b) ∧ IsFlat x :=
  List.forall_mem_cons

namespace IsFlat

theorem lparen_not_mem (h : IsFlat x) : .lparen ∉ x := by
  intro hx
  rcases h _ hx with hc | ⟨b, hb⟩
  · cases hc
  · cases hb

theorem collapse_eq (h : IsFlat x) : collapse x = x := by
  refine collapse_eq_self (isCollapsed_iff.2 ?_)
  rintro _ ⟨before, after, b⟩
  exact h.lparen_not_mem (List.mem_append_right _ List.mem_cons_self)

theorem isBalanced (h : IsFlat x) : isBalanced x = true := by
  induction x with
  | nil => rfl
  | cons t x ih =>
    obtain ⟨ht, hx⟩ := isFlat_cons.1 h
    have hparen : t.isParen = false := by
      rcases ht with hc | ⟨b, rfl⟩
      · cases t <;> first | rfl | cases hc
      · rfl
    exact (balancedFrom_of_not_paren hparen 0 x).trans (ih hx)

/-- Every connective of a flat list stands outside of parentheses. -/
theorem mem_outer (h : IsFlat x) {c : Connective} (hc : .conn c ∈ x) : c ∈ outer x := by
  obtain ⟨left, right, rfl⟩ := List.append_of_mem hc
  rw [outer_append (isFlat_append.1 h).1.isBalanced]
  exact List.mem_append_right _ List.mem_cons_self

/-- A leaf of a flat list is a bit. -/
theorem exists_bit (h : IsFlat [t]) (ht : t.isAtom = true) : ∃ b, t = .bit b := by
  rcases h t List.mem_cons_self with hc | hb
  · cases t with
    | neg | conn => cases ht
    | lparen | rparen | bit | word => cases hc
  · exact hb

theorem of_fires (h : IsFlat x) {i : Nat} {op : Operator} (hfires : Fires x i op y) : IsFlat y := by
  obtain ⟨before, after, hr⟩ := hfires
  rw [isFlat_append, isFlat_append] at h
  exact isFlat_append.2 ⟨h.1.1, isFlat_cons.2 ⟨.inr ⟨_, rfl⟩, h.2⟩⟩

end IsFlat
end

namespace Derives
variable {level : Level} {ts : List Token} {f : Formula}

/-! ### The ends of a flat list -/

theorem starts_with_bit_or_negatesBit (h : Derives level ts f) (hflat : IsFlat ts) :
    (∃ b rest, ts = .bit b :: rest) ∨ NegatesBit ts := by
  induction h with
  | join _ _ ihl _ =>
    rcases ihl (isFlat_append.1 hflat).1 with ⟨b, rest, rfl⟩ | hn
    · exact .inl ⟨b, _, rfl⟩
    · exact .inr (hn.append_left _)
  | tighter _ ih | basic _ ih => exact ih hflat
  | negate _ ih =>
    rcases ih (isFlat_cons.1 hflat).2 with ⟨b, rest, rfl⟩ | hn
    · exact .inr ⟨[], b, rest, rfl⟩
    · exact .inr (hn.cons _)
  | leaf ht =>
    obtain ⟨b, rfl⟩ := hflat.exists_bit ht
    exact .inl ⟨b, [], rfl⟩
  | group => exact absurd List.mem_cons_self hflat.lparen_not_mem

theorem ends_with_bit (h : Derives level ts f) (hflat : IsFlat ts) :
    ∃ rest b, ts = rest ++ [.bit b] := by
  induction h with
  | @join op left right _ _ _ _ _ ihr =>
    obtain ⟨rest, b, rfl⟩ := ihr (isFlat_cons.1 (isFlat_append.1 hflat).2).2
    exact ⟨left ++ .conn op :: rest, b, by simp⟩
  | tighter _ ih | basic _ ih => exact ih hflat
  | negate _ ih =>
    obtain ⟨rest, b, rfl⟩ := ih (isFlat_cons.1 hflat).2
    exact ⟨.neg :: rest, b, rfl⟩
  | leaf ht =>
    obtain ⟨b, rfl⟩ := hflat.exists_bit ht
    exact ⟨[], b, rfl⟩
  | group => exact absurd List.mem_cons_self hflat.lparen_not_mem

/-- At the level of negations, what starts with a bit is the bit. -/
theorem of_bit_cons {b : Bool} {rest : List Token} (h : Derives .negation (.bit b :: rest) f) :
    f = .atom (Atom.bit b) ∧ rest = [] := by
  cases h with
  | basic h =>
    cases h with
    | leaf => exact ⟨rfl, rfl⟩

/-- Without connectives, and with no negation before a bit, a flat list is a bit. -/
theorem eq_bit (h : Derives level ts f) (hflat : IsFlat ts) (hconn : ∀ c, .conn c ∉ ts)
    (hn : ¬ NegatesBit ts) : ∃ b, ts = [.bit b] ∧ f = .atom (Atom.bit b) := by
  induction h with
  | join => exact absurd (List.mem_append_right _ List.mem_cons_self) (hconn _)
  | tighter _ ih | basic _ ih => exact ih hflat hconn hn
  | negate h =>
    rcases h.starts_with_bit_or_negatesBit (isFlat_cons.1 hflat).2 with ⟨b, rest, rfl⟩ | hin
    · exact absurd ⟨[], b, rest, rfl⟩ hn
    · exact absurd (hin.cons _) hn
  | leaf ht =>
    obtain ⟨b, rfl⟩ := hflat.exists_bit ht
    exact ⟨b, rfl, rfl⟩
  | group => exact absurd List.mem_cons_self hflat.lparen_not_mem

/-! ### What can fire -/

/-- Where no negation stands before a bit, every connective of a flat list can fire. -/
theorem exists_fires_of_conn (h : Derives level ts f) (hflat : IsFlat ts) (hn : ¬ NegatesBit ts)
    {i : Nat} {c : Connective} (hi : ts[i]? = some (.conn c)) :
    ∃ next, Fires ts i (.binary c) next := by
  induction h generalizing i with
  | @join op left right _ _ hl hr ihl ihr =>
    obtain ⟨hleft, hright⟩ := isFlat_append.1 hflat
    have hright : IsFlat right := (isFlat_cons.1 hright).2
    have hnl : ¬ NegatesBit left := mt (·.append_left _) hn
    have hnr : ¬ NegatesBit right := mt (fun h => (h.cons _).append_right _) hn
    rcases Nat.lt_trichotomy i left.length with hlt | rfl | hgt
    · rw [List.getElem?_append_left hlt] at hi
      obtain ⟨next, hfires⟩ := ihl hleft hnl hi
      have := hfires.append [] (.conn op :: right)
      exact ⟨_, by simpa using this⟩
    · obtain rfl : op = c := by simpa using hi
      obtain ⟨before, l, rfl⟩ := hl.ends_with_bit hleft
      obtain ⟨r, after, rfl⟩ := (hr.starts_with_bit_or_negatesBit hright).resolve_right hnr
      have := Fires.binary before after op l r
      exact ⟨_, by simpa using this⟩
    · obtain ⟨k, rfl⟩ := Nat.exists_eq_add_of_lt hgt
      rw [Nat.add_assoc, getElem?_after, List.getElem?_cons_succ] at hi
      obtain ⟨next, hfires⟩ := ihr hright hnr hi
      have := hfires.append (left ++ [.conn op]) []
      exact ⟨_, by simpa [Nat.add_assoc, Nat.add_comm 1] using this⟩
  | tighter _ ih | basic _ ih => exact ih hflat hn hi
  | @negate ts _ _ ih =>
    have hin : ¬ NegatesBit ts := mt (·.cons _) hn
    cases i with
    | zero => cases hi
    | succ i =>
      obtain ⟨next, hfires⟩ := ih (isFlat_cons.1 hflat).2 hin hi
      have := hfires.append [.neg] []
      exact ⟨_, by simpa [Nat.add_comm] using this⟩
  | leaf ht =>
    obtain ⟨b, rfl⟩ := hflat.exists_bit ht
    have hmem := List.mem_of_getElem? hi
    simp at hmem
  | group => exact absurd List.mem_cons_self hflat.lparen_not_mem

/-- A flat list that spells a formula is a bit, or something can fire. -/
theorem eq_bit_or_exists_fires (h : Derives level ts f) (hflat : IsFlat ts) :
    (∃ b, ts = [.bit b] ∧ f = .atom (Atom.bit b)) ∨ ∃ i op next, Fires ts i op next := by
  by_cases hn : NegatesBit ts
  · obtain ⟨before, b, after, rfl⟩ := hn
    exact .inr ⟨_, _, _, Fires.not before after b⟩
  · by_cases hconn : ∃ c, .conn c ∈ ts
    · obtain ⟨c, hc⟩ := hconn
      obtain ⟨i, hi⟩ := List.mem_iff_getElem?.1 hc
      obtain ⟨next, hfires⟩ := h.exists_fires_of_conn hflat hn hi
      exact .inr ⟨_, _, _, hfires⟩
    · exact .inl (h.eq_bit hflat (fun c hc => hconn ⟨c, hc⟩) hn)

/-- No connective of a flat list binds tighter than the leftmost legal move, and none to its left
as tight. -/
theorem rank_le_of_leftmost (h : Derives level ts f) (hflat : IsFlat ts) {c : Candidate}
    (hc : (legalMoves ts).head? = some c) {i : Nat} {d : Connective}
    (hi : ts[i]? = some (.conn d)) :
    d.rank ≤ c.op.rank ∧ (i < c.index → d.rank < c.op.rank) := by
  have hlegal := List.mem_of_head? hc
  by_cases hop : c.op = .not
  · have hlt := Operator.rank_binary_lt d
    rw [hop]
    exact ⟨Nat.le_of_lt hlt, fun _ => hlt⟩
  · obtain ⟨_, hfires⟩ := h.exists_fires_of_conn hflat (mt (op_eq_not_of_legal hlegal) hop) hi
    have hcan : (⟨i, .binary d⟩ : Candidate) ∈ reducible ts := mem_reducible_iff.2 ⟨_, hfires⟩
    have hmax := (mem_legalMoves_iff.1 hlegal).2
    refine ⟨hmax _ hcan, fun hlt => Nat.lt_of_le_of_ne (hmax _ hcan) fun heq => ?_⟩
    -- of the same rank it would be a legal move as well, and the leftmost is not behind it
    have hother : (⟨i, .binary d⟩ : Candidate) ∈ legalMoves ts :=
      mem_legalMoves_iff.2 ⟨hcan, fun e he => Nat.le_trans (hmax e he) (Nat.le_of_eq heq.symm)⟩
    exact absurd (index_le_of_head? hc hother) (Nat.not_le_of_lt hlt)

/-! ### Contraction -/

/-- Where no connective binds tighter than a redex, and none to its left as tight, the redex is a
node with bits below it. -/
theorem exists_contracts_of_redex (h : Derives level ts f) (hflat : IsFlat ts)
    {redex before after : List Token} {op : Operator} {value : Bool} (hr : Redex redex op value)
    (hop : NegatesBit ts → op = .not) (hbefore : ∀ c, .conn c ∈ before → c.rank < op.rank)
    (hafter : ∀ c, .conn c ∈ after → c.rank ≤ op.rank) (ht : ts = before ++ (redex ++ after)) :
    ∃ g, Contracts f g ∧ Derives level (before ++ .bit value :: after) g := by
  induction h generalizing before after with
  | @join c left right f g hl hrt ihl ihr =>
    obtain ⟨hleft, hright⟩ := isFlat_append.1 hflat
    have hright : IsFlat right := (isFlat_cons.1 hright).2
    have hnl : NegatesBit left → op = .not := fun h => hop (h.append_left _)
    have hnr : NegatesBit right → op = .not := fun h => hop ((h.cons _).append_right _)
    rcases side_of_conn hr ht with ⟨m, hx, rfl⟩ | ⟨m, rfl, hy⟩ | ⟨l, r, rfl, rfl, -⟩
    · obtain ⟨k, hc, hk⟩ :=
        ihl hleft hnl hbefore (fun d hd => hafter d (List.mem_append_left _ hd)) hx
      exact ⟨_, .left hc, by simpa using hk.join hrt⟩
    · obtain ⟨k, hc, hk⟩ := ihr hright hnr
        (fun d hd => hbefore d (List.mem_append_right _ (List.mem_cons_of_mem _ hd))) hafter hy
      exact ⟨_, .right hc, by simpa using hl.join hk⟩
    · cases hr with
      | not => simp at ht
      | binary _ l' r' =>
        obtain ⟨rfl, rfl, rfl⟩ : l = l' ∧ c = _ ∧ r = r' := by simpa using ht
        -- a connective in the left operand binds as tight, one in the right operand tighter
        have hleftConn : ∀ d, .conn d ∉ before ++ [.bit l] := by
          intro d hd
          have hlow := hbefore d (by simpa using hd)
          exact absurd (hl.outer_rank d (hleft.mem_outer hd)) (Nat.not_le_of_lt hlow)
        have hrightConn : ∀ d, .conn d ∉ Token.bit r :: after := by
          intro d hd
          have hlow := hafter d (by simpa using hd)
          have hhigh := hrt.outer_rank d (hright.mem_outer hd)
          rw [Connective.rank_tighter] at hhigh
          exact absurd hhigh (Nat.not_le_of_lt (Nat.lt_succ_of_le hlow))
        obtain ⟨b, hb, rfl⟩ := hl.eq_bit hleft hleftConn fun h => by cases hnl h
        obtain ⟨b', hb', rfl⟩ := hrt.eq_bit hright hrightConn fun h => by cases hnr h
        obtain ⟨rfl, rfl⟩ : before = [] ∧ l = b := by
          simpa [List.append_eq_singleton_iff] using hb
        obtain ⟨rfl, rfl⟩ : r = b' ∧ after = [] := by simpa using hb'
        exact ⟨_, .apply c l r, (Derives.leaf rfl).of_atom _⟩
  | tighter _ ih =>
    obtain ⟨g, hc, hg⟩ := ih hflat hop hbefore hafter ht
    exact ⟨g, hc, .tighter hg⟩
  | basic _ ih =>
    obtain ⟨g, hc, hg⟩ := ih hflat hop hbefore hafter ht
    exact ⟨g, hc, .basic hg⟩
  | negate h ih =>
    cases before with
    | nil =>
      cases hr with
      | binary => cases ht
      | not b =>
        obtain ⟨rfl, rfl⟩ := of_bit_cons ((List.cons.inj ht).2 ▸ h)
        exact ⟨_, .not b, .basic (.leaf rfl)⟩
    | cons t before =>
      obtain ⟨rfl, hts⟩ := List.cons.inj ht
      obtain ⟨g, hc, hg⟩ := ih (isFlat_cons.1 hflat).2 (fun h => hop (h.cons _))
        (fun d hd => hbefore d (List.mem_cons_of_mem _ hd)) hafter hts
      exact ⟨_, .neg hc, hg.negate⟩
  | leaf =>
    have hlen := congrArg List.length ht
    have hshort := Redex.two_le_length hr
    simp only [List.length_append, List.length_singleton] at hlen
    omega
  | group => exact absurd List.mem_cons_self hflat.lparen_not_mem

/-- The leftmost legal move in a flat list is a contraction of its tree. -/
theorem exists_contracts_of_leftmost (h : Derives level ts f) (hflat : IsFlat ts) {c : Candidate}
    (hc : (legalMoves ts).head? = some c) {next : List Token}
    (hfires : Fires ts c.index c.op next) : ∃ g, Contracts f g ∧ Derives level next g := by
  have hop := op_eq_not_of_legal (List.mem_of_head? hc)
  have hrank := fun i d => h.rank_le_of_leftmost hflat hc (i := i) (d := d)
  generalize c.index = k at hfires hrank
  obtain ⟨before, after, hr⟩ := hfires
  refine h.exists_contracts_of_redex hflat hr hop (fun d hd => ?_) (fun d hd => ?_)
    (List.append_assoc ..)
  · obtain ⟨i, hi⟩ := List.mem_iff_getElem?.1 hd
    have hlt := (List.getElem?_eq_some_iff.1 hi).1
    refine (hrank i d ?_).2 (Nat.lt_of_lt_of_le hlt (Nat.le_add_right _ _))
    rw [List.append_assoc, List.getElem?_append_left hlt]
    exact hi
  · obtain ⟨i, hi⟩ := List.mem_iff_getElem?.1 (List.mem_append_right (before ++ _) hd)
    exact (hrank i d hi).1

end Derives

/-! ### Solving -/

/-- A flat list spells a formula. -/
structure SpellsFlat (ts : List Token) (f : Formula) : Prop where
  flat : IsFlat ts
  spells : Spells ts f

/-- With bits for its words, a list without parentheses is flat. -/
theorem spellsFlat_substitute (values : Text → Bool) {ts : List Token} {f : Formula}
    (h : Spells ts f) (hplain : ∀ t ∈ ts, t.isParen = false) :
    SpellsFlat (substitute values ts) (f.ground values) := by
  refine ⟨fun t ht => ?_, h.substitute values⟩
  obtain ⟨u, hu, rfl⟩ := List.mem_map.1 ht
  rcases substituteToken_cases values u with hc | hp | hb
  · exact .inl hc
  · rw [isParen_substituteToken, hplain u hu] at hp
    cases hp
  · exact .inr hb

namespace SpellsFlat
variable {ts : List Token} {f : Formula}

/-- The leftmost move leaves a flat list, which spells the contracted tree. -/
theorem exists_contracts (h : SpellsFlat ts f) {next : List Token}
    (hmove : leftmostMove? ts = some next) : ∃ g, Contracts f g ∧ SpellsFlat next g := by
  obtain ⟨c, fired, hc, hfires, rfl⟩ := leftmostMove?_eq_some_iff.1 hmove
  obtain ⟨g, hg, hspells⟩ := h.spells.exists_contracts_of_leftmost h.flat hc hfires
  have hflat := h.flat.of_fires hfires
  rw [hflat.collapse_eq]
  exact ⟨g, hg, hflat, hspells⟩

/-- Without a move left, the list is the bit of its value. -/
theorem eq_bit (h : SpellsFlat ts f) (hnone : leftmostMove? ts = none) (values : Text → Bool) :
    ts = [.bit (f.value values)] := by
  rcases h.spells.eq_bit_or_exists_fires h.flat with ⟨b, rfl, rfl⟩ | ⟨i, op, next, hfires⟩
  · rw [value_bit]
  · exact absurd (leftmostMove?_eq_none_iff.1 hnone) (legalMoves_ne_nil_of_fires hfires)

/-- There is one state for each operator. -/
theorem length_statesFrom (h : SpellsFlat ts f) : (statesFrom ts).length = Token.connectives ts := by
  induction ts using statesFrom_induction generalizing f with
  | stuck ts hnone =>
    rw [statesFrom_of_none hnone, h.eq_bit hnone fun _ => false]
    rfl
  | move ts next hmove ih =>
    obtain ⟨g, -, hnext⟩ := h.exists_contracts hmove
    rw [statesFrom_of_some hmove, List.length_cons, ih hnext, connectives_of_leftmostMove? hmove]

/-- The last state is the bit of the value. -/
theorem getLast?_statesFrom (h : SpellsFlat ts f) (values : Text → Bool) :
    (ts :: statesFrom ts).getLast? = some [.bit (f.value values)] := by
  induction ts using statesFrom_induction generalizing f with
  | stuck ts hnone =>
    rw [statesFrom_of_none hnone, h.eq_bit hnone values]
    rfl
  | move ts next hmove ih =>
    obtain ⟨g, hg, hnext⟩ := h.exists_contracts hmove
    rw [statesFrom_of_some hmove, List.getLast?_cons_cons, ih hnext, hg.value_eq]

end SpellsFlat

/-- A list without parentheses that is read as a formula is solved, with bits for its words, through
one state for each operator, each with one operator less. The last is the bit of the value of the
formula. -/
theorem flat_solving_agrees {maxDepth : Int} {ts : List Token} {f : Formula}
    (h : parse maxDepth ts = .ok f) (hplain : ∀ t ∈ ts, t.isParen = false) (loose : Entries Json) :
    let start := substituteLoose loose ts
    let states := Reduction.solve start
    states.length = Token.connectives ts ∧
    (∀ i state, states[i]? = some state →
      Token.connectives state + (i + 1) = Token.connectives ts) ∧
    (start :: states).getLast? = some [.bit (f.evaluate loose)] := by
  intro start states
  have hstart : SpellsFlat start (f.ground (Assignment.normalize loose).value) :=
    spellsFlat_substitute _ (parse_eq_ok_iff.1 h).1 hplain
  have hstates : states = statesFrom start :=
    congrArg statesFrom hstart.flat.collapse_eq
  have hconn : Token.connectives start = Token.connectives ts := connectives_substitute _ ts
  have hlast := hstart.getLast?_statesFrom (Assignment.normalize loose).value
  rw [value_ground] at hlast
  rw [hstates, ← hconn]
  exact ⟨hstart.length_statesFrom, fun i state => connectives_getElem?_statesFrom, hlast⟩

/-- Implications group to the left, and the negation comes first: grouped to the right this would
be true. -/
theorem flat_solving_agrees_chain :
    let ts : List Token :=
      [.word ['p'], .conn .implies, .neg, .word ['q'], .conn .implies, .bit false]
    let f := binary .implies (binary .implies (atom ['p']) (neg (atom ['q']))) (atom ['0'])
    let start := substituteLoose [] ts
    parse 3 ts = .ok f ∧ (∀ t ∈ ts, t.isParen = false) ∧ (Reduction.solve start).length = 3 ∧
      (start :: Reduction.solve start).getLast? = some [.bit false] := by
  intro ts f start
  have h : parse 3 ts = .ok f := by cbv
  have hplain : ∀ t ∈ ts, t.isParen = false := by decide
  have hvalue : f.evaluate [] = false := by cbv
  obtain ⟨hlength, -, hlast⟩ := flat_solving_agrees h hplain []
  rw [hvalue] at hlast
  exact ⟨h, hplain, hlength, hlast⟩

end LogicTrainer.Formula
