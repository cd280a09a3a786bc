import LogicTrainer.Reduction.Moves

/-! What can fire, and what firing does.

`Fires` says once what a move does: an operator with bits as its operands is replaced by its
value, together with them. Firing at a place does this (`fireAt?_eq_some_iff`), and the
candidates are the places where it can be done (`mem_reducible_iff`): both list the same
conditions in their own way. The legal moves are the candidates of the highest rank
(`mem_legalMoves_iff`), and there is one as soon as anything can fire. -/
namespace LogicTrainer.Reduction

/-- An operator with its operands, and the value of the three. -/
inductive Redex : List Token → Operator → Bool → Prop where
  | not (b : Bool) : Redex [.neg, .bit b] .not (!b)
  | binary (op : Connective) (left right : Bool) :
    Redex [.bit left, .conn op, .bit right] (.binary op) (op.apply left right)

/-- How many tokens stand before the operator among its operands. -/
def offset : Operator → Nat
  | .not => 0
  | .binary _ => 1

/-- A list becomes another when the operator at an index fires. -/
inductive Fires : List Token → Nat → Operator → List Token → Prop where
  | at (before after : List Token) {redex : List Token} {op : Operator} {value : Bool}
    (h : Redex redex op value) :
    Fires (before ++ redex ++ after) (before.length + offset op) op
      (before ++ .bit value :: after)

namespace Fires
variable {ts next : List Token} {i : Nat} {op : Operator}

theorem not (before after : List Token) (b : Bool) :
    Fires (before ++ .neg :: .bit b :: after) before.length .not (before ++ .bit (!b) :: after) := by
  have := Fires.at before after (Redex.not b)
  simpa [offset] using this

theorem binary (before after : List Token) (op : Connective) (left right : Bool) :
    Fires (before ++ .bit left :: .conn op :: .bit right :: after) (before.length + 1) (.binary op)
      (before ++ .bit (op.apply left right) :: after) := by
  have := Fires.at before after (Redex.binary op left right)
  simpa [offset] using this

/-- What stands around a list is not touched. -/
theorem append (h : Fires ts i op next) (before after : List Token) :
    Fires (before ++ ts ++ after) (before.length + i) op (before ++ next ++ after) := by
  obtain ⟨b, a, hr⟩ := h
  have := Fires.at (before ++ b) (a ++ after) hr
  simpa [Nat.add_assoc] using this

/-- What a move does, the places counted. -/
theorem exists_redex (h : Fires ts i op next) : ∃ before redex after value, Redex redex op value ∧
    ts = before ++ redex ++ after ∧ i = before.length + offset op ∧
      next = before ++ .bit value :: after := by
  obtain ⟨before, after, hredex⟩ := h
  exact ⟨before, _, after, _, hredex, rfl, rfl, rfl⟩

/-- There is one operator less. -/
theorem connectives_eq (h : Fires ts i op next) :
    Token.connectives ts = Token.connectives next + 1 := by
  obtain ⟨before, after, hr⟩ := h
  simp only [Token.connectives, List.countP_append]
  cases hr with
  | not b | binary op left right =>
    simp only [List.countP_cons, List.countP_nil, Token.isConnective, if_true, if_false,
      Bool.false_eq_true]
    omega

end Fires

/-! ### Firing at a place -/

/-- A place in a list cuts it in two. -/
theorem exists_append_of_getElem? {ts : List Token} {i : Nat} {t : Token} (h : ts[i]? = some t) :
    ∃ before after, ts = before ++ t :: after ∧ before.length = i := by
  obtain ⟨hi, rfl⟩ := List.getElem?_eq_some_iff.1 h
  refine ⟨ts.take i, ts.drop (i + 1), ?_, List.length_take_of_le (Nat.le_of_lt hi)⟩
  rw [List.getElem_cons_drop, List.take_append_drop]

theorem getElem?_after (before ts : List Token) (k : Nat) :
    (before ++ ts)[before.length + k]? = ts[k]? := by
  rw [List.getElem?_append_right (Nat.le_add_right _ _), Nat.add_sub_cancel_left]

theorem bitAt?_eq_some_iff {ts : List Token} {i : Nat} {b : Bool} :
    bitAt? ts i = some b ↔ ts[i]? = some (.bit b) := by
  unfold bitAt?
  split
  · next c hc => rw [hc]; simp
  · next hc =>
    constructor
    · intro h
      cases h
    · intro h
      exact absurd h (hc b)

theorem fireAt?_of_fires {ts next : List Token} {i : Nat} {op : Operator} (h : Fires ts i op next) :
    fireAt? ts i = some next := by
  obtain ⟨before, after, hr⟩ := h
  cases hr with
  | not b => simp [fireAt?, offset, bitAt?]
  | binary op left right =>
    rw [List.append_assoc]
    generalize hts : before ++ ([.bit left, .conn op, .bit right] ++ after) = ts
    have hi : ts[before.length + 1]? = some (.conn op) := by rw [← hts, getElem?_after]; rfl
    have hl : bitAt? ts (before.length + 1 - 1) = some left := by
      rw [bitAt?_eq_some_iff, ← hts, Nat.add_sub_cancel]
      exact getElem?_after before _ 0
    have hr : bitAt? ts (before.length + 1 + 1) = some right := by
      rw [bitAt?_eq_some_iff, ← hts, Nat.add_assoc, getElem?_after]
      rfl
    have hdrop : ts.drop (before.length + 1 + 2) = after := by
      rw [← hts, Nat.add_assoc, List.drop_length_add_append]
      rfl
    simp only [fireAt?, offset, hi, hl, hr, hdrop, if_neg (Nat.succ_ne_zero _)]
    rw [← hts, Nat.add_sub_cancel, List.take_left]

theorem fire_of_fires {ts next : List Token} {i : Nat} {op : Operator} (h : Fires ts i op next) :
    fire ts i = .ok next := by
  rw [fire, if_neg (by omega), Int.toNat_natCast, fireAt?_of_fires h]

theorem fires_of_fireAt? {ts next : List Token} {i : Nat} (h : fireAt? ts i = some next) :
    ∃ op, Fires ts i op next := by
  unfold fireAt? at h
  split at h
  · next hi =>
    obtain ⟨b, hb, rfl⟩ := Option.map_eq_some_iff.1 h
    obtain ⟨before, rest, rfl, rfl⟩ := exists_append_of_getElem? hi
    rw [bitAt?_eq_some_iff, getElem?_after, List.getElem?_cons_succ] at hb
    rw [List.take_left, List.drop_length_add_append]
    match rest with
    | [] => cases hb
    | t :: after =>
      cases hb
      exact ⟨.not, Fires.not before after b⟩
  · next op hi =>
    split at h
    · cases h
    · next hne =>
      split at h
      · next left right hl hr =>
        cases h
        obtain ⟨before, rest, rfl, hlen⟩ := exists_append_of_getElem? (bitAt?_eq_some_iff.1 hl)
        obtain rfl : i = before.length + 1 := by omega
        rw [getElem?_after, List.getElem?_cons_succ] at hi
        rw [bitAt?_eq_some_iff, Nat.add_assoc, getElem?_after, List.getElem?_cons_succ] at hr
        rw [Nat.add_sub_cancel, List.take_left, Nat.add_assoc, List.drop_length_add_append]
        match rest with
        | [] => cases hi
        | [_] => cases hr
        | t :: u :: after =>
          cases hi
          cases hr
          exact ⟨.binary op, Fires.binary before after op left right⟩
      · cases h
  · cases h

/-- Firing at a place does what a move does. -/
theorem fireAt?_eq_some_iff {ts next : List Token} {i : Nat} :
    fireAt? ts i = some next ↔ ∃ op, Fires ts i op next :=
  ⟨fires_of_fireAt?, fun ⟨_, h⟩ => fireAt?_of_fires h⟩

/-! ### Candidates -/

theorem mem_reducibleFrom_iff {c : Candidate} {k : Nat} {last : Option Token} {ts : List Token} :
    c ∈ reducibleFrom k last ts ↔ ∃ before t after, ts = before ++ t :: after ∧
      c.index = k + before.length ∧
      readyBetween (before.getLast?.or last) t after.head? = some c.op := by
  induction ts generalizing k last with
  | nil => simp [reducibleFrom]
  | cons t rest ih =>
    rw [reducibleFrom, List.mem_append, ih]
    constructor
    · rintro (h | ⟨before, u, after, rfl, hk, hready⟩)
      · obtain ⟨op, hop, rfl⟩ : ∃ op, readyBetween last t rest.head? = some op ∧ ⟨k, op⟩ = c := by
          simpa using h
        exact ⟨[], t, rest, rfl, rfl, hop⟩
      · refine ⟨t :: before, u, after, rfl, by rw [hk, List.length_cons]; omega, ?_⟩
        rw [List.getLast?_cons]
        cases hl : before.getLast? <;> simpa [hl] using hready
    · rintro ⟨before, u, after, hts, hk, hready⟩
      cases before with
      | nil =>
        obtain ⟨rfl, rfl⟩ := List.cons.inj hts
        left
        obtain ⟨index, op⟩ := c
        simp only [List.length_nil, Nat.add_zero] at hk
        simpa [hk] using hready
      | cons v before =>
        obtain ⟨rfl, rfl⟩ := List.cons.inj hts
        refine .inr ⟨before, u, after, rfl, by rw [hk, List.length_cons]; omega, ?_⟩
        rw [List.getLast?_cons] at hready
        cases hl : before.getLast? <;> simpa [hl] using hready

/-- An operator is ready where its operands are next to it. -/
theorem readyBetween_eq_some {last next : Option Token} {t : Token} {op : Operator}
    (h : readyBetween last t next = some op) :
    (t = .neg ∧ op = .not ∧ ∃ b, next = some (.bit b)) ∨
      ∃ c left right, t = .conn c ∧ op = .binary c ∧ last = some (.bit left) ∧
        next = some (.bit right) := by
  unfold readyBetween at h
  split at h
  · cases h
    exact .inl ⟨rfl, rfl, _, rfl⟩
  · cases h
    exact .inr ⟨_, _, _, rfl, rfl, rfl, rfl⟩
  · cases h

/-- The candidates are the operators that can fire. -/
theorem mem_reducible_iff {c : Candidate} {ts : List Token} :
    c ∈ reducible ts ↔ ∃ next, Fires ts c.index c.op next := by
  rw [reducible, mem_reducibleFrom_iff]
  constructor
  · rintro ⟨before, t, after, rfl, hk, hready⟩
    obtain ⟨index, op⟩ := c
    simp only [Nat.zero_add, Option.or_none] at hk hready ⊢
    subst hk
    rcases readyBetween_eq_some hready with
      ⟨rfl, rfl, b, hnext⟩ | ⟨op, left, right, rfl, rfl, hlast, hnext⟩
    · obtain ⟨after, rfl⟩ := List.head?_eq_some_iff.1 hnext
      exact ⟨_, Fires.not before after b⟩
    · obtain ⟨before, rfl⟩ := List.getLast?_eq_some_iff.1 hlast
      obtain ⟨after, rfl⟩ := List.head?_eq_some_iff.1 hnext
      have hf := Fires.binary before after op left right
      exact ⟨_, by simpa using hf⟩
  · rintro ⟨next, h⟩
    obtain ⟨index, op⟩ := c
    simp only at h ⊢
    obtain ⟨before, after, hr⟩ := h
    cases hr with
    | not b => exact ⟨before, .neg, .bit b :: after, by simp, by simp [offset], rfl⟩
    | binary op left right =>
      refine ⟨before ++ [.bit left], .conn op, .bit right :: after, by simp, by simp [offset], ?_⟩
      rw [List.getLast?_concat]
      rfl

/-- What is at a candidate's place fires. -/
theorem exists_fires_of_mem {c : Candidate} {ts : List Token} (h : c ∈ reducible ts) :
    ∃ next, fireAt? ts c.index = some next ∧ Fires ts c.index c.op next := by
  obtain ⟨next, hf⟩ := mem_reducible_iff.1 h
  exact ⟨next, fireAt?_of_fires hf, hf⟩

/-! ### Legal moves -/

theorem foldl_max_rank (cs : List Candidate) (init : Nat) :
    let top := cs.foldl (fun top c => max top c.rank) init
    init ≤ top ∧ (∀ c ∈ cs, c.rank ≤ top) ∧ (top = init ∨ ∃ c ∈ cs, c.rank = top) := by
  induction cs generalizing init with
  | nil => exact ⟨Nat.le_refl _, fun _ hc => absurd hc List.not_mem_nil, .inl rfl⟩
  | cons c cs ih =>
    obtain ⟨hinit, hle, hmem⟩ := ih (max init c.rank)
    rw [List.foldl_cons]
    refine ⟨by omega, fun d hd => ?_, ?_⟩
    · rcases List.mem_cons.1 hd with rfl | hd
      · omega
      · exact hle d hd
    · rcases hmem with htop | ⟨d, hd, htop⟩
      · by_cases hc : init ≤ c.rank
        · exact .inr ⟨c, List.mem_cons_self, by omega⟩
        · exact .inl (by omega)
      · exact .inr ⟨d, List.mem_cons_of_mem _ hd, htop⟩

theorem rank_le_topRank {c : Candidate} {cs : List Candidate} (h : c ∈ cs) :
    c.rank ≤ topRank cs :=
  (foldl_max_rank cs 0).2.1 c h

theorem exists_rank_eq_topRank {cs : List Candidate} (h : cs ≠ []) :
    ∃ c ∈ cs, c.rank = topRank cs := by
  rcases (foldl_max_rank cs 0).2.2 with htop | hmem
  · obtain ⟨c, rest, rfl⟩ := List.exists_cons_of_ne_nil h
    have hle := rank_le_topRank (List.mem_cons_self (a := c) (l := rest))
    have htop : topRank (c :: rest) = 0 := htop
    exact ⟨c, List.mem_cons_self, by omega⟩
  · exact hmem

/-- A candidate is a legal move if none binds tighter. -/
theorem mem_legalMoves_iff {c : Candidate} {ts : List Token} :
    c ∈ legalMoves ts ↔ c ∈ reducible ts ∧ ∀ d ∈ reducible ts, d.rank ≤ c.rank := by
  rw [legalMoves, List.mem_filter, beq_iff_eq]
  constructor
  · rintro ⟨hc, htop⟩
    exact ⟨hc, fun d hd => htop ▸ rank_le_topRank hd⟩
  · rintro ⟨hc, hmax⟩
    obtain ⟨d, hd, htop⟩ := exists_rank_eq_topRank (List.ne_nil_of_mem hc)
    exact ⟨hc, Nat.le_antisymm (rank_le_topRank hc) (htop ▸ hmax d hd)⟩

/-- There is a legal move as soon as anything can fire. -/
theorem legalMoves_ne_nil_iff {ts : List Token} : legalMoves ts ≠ [] ↔ reducible ts ≠ [] := by
  constructor
  · intro h
    obtain ⟨c, hc⟩ := List.exists_mem_of_ne_nil _ h
    exact List.ne_nil_of_mem (mem_legalMoves_iff.1 hc).1
  · intro h
    obtain ⟨c, hc, htop⟩ := exists_rank_eq_topRank h
    exact List.ne_nil_of_mem (mem_legalMoves_iff.2 ⟨hc, fun d hd => htop ▸ rank_le_topRank hd⟩)

theorem legalMoves_ne_nil_of_fires {ts next : List Token} {i : Nat} {op : Operator}
    (h : Fires ts i op next) : legalMoves ts ≠ [] := by
  have hcan : (⟨i, op⟩ : Candidate) ∈ reducible ts := mem_reducible_iff.2 ⟨next, h⟩
  exact legalMoves_ne_nil_iff.2 (List.ne_nil_of_mem hcan)

/-- The candidates are listed from left to right. -/
theorem pairwise_reducibleFrom (k : Nat) (last : Option Token) (ts : List Token) :
    (reducibleFrom k last ts).Pairwise (·.index < ·.index) := by
  induction ts generalizing k last with
  | nil => exact .nil
  | cons t rest ih =>
    rw [reducibleFrom]
    cases readyBetween last t rest.head? with
    | none => exact ih _ _
    | some op =>
      refine List.pairwise_cons.2 ⟨fun d hd => ?_, ih _ _⟩
      obtain ⟨before, _, _, _, hindex, -⟩ := mem_reducibleFrom_iff.1 hd
      show k < d.index
      omega

/-- The first of the legal moves is the leftmost. -/
theorem index_le_of_head? {c d : Candidate} {ts : List Token} (hc : (legalMoves ts).head? = some c)
    (hd : d ∈ legalMoves ts) : c.index ≤ d.index := by
  have hpairs : (legalMoves ts).Pairwise (·.index < ·.index) :=
    (pairwise_reducibleFrom 0 none ts).filter _
  obtain ⟨rest, hlegal⟩ := List.head?_eq_some_iff.1 hc
  rw [hlegal] at hd hpairs
  rcases List.mem_cons.1 hd with rfl | hd
  · exact Nat.le_refl _
  · exact Nat.le_of_lt ((List.pairwise_cons.1 hpairs).1 d hd)

/-- The operator that fires stands at the index. -/
theorem Fires.getElem?_eq {ts next : List Token} {i : Nat} {op : Operator}
    (h : Fires ts i op next) : ts[i]? = some (.ofOperator op) := by
  obtain ⟨before, after, hr⟩ := h
  rw [List.append_assoc, getElem?_after]
  cases hr <;> rfl

/-- Two candidates at one place are the same. -/
theorem eq_of_index_eq {c d : Candidate} {ts : List Token} (hc : c ∈ reducible ts)
    (hd : d ∈ reducible ts) (h : c.index = d.index) : c = d := by
  obtain ⟨_, hc⟩ := mem_reducible_iff.1 hc
  obtain ⟨_, hd⟩ := mem_reducible_iff.1 hd
  have hop : Token.ofOperator c.op = Token.ofOperator d.op :=
    Option.some.inj (hc.getElem?_eq.symm.trans (h ▸ hd.getElem?_eq))
  obtain ⟨index, op⟩ := c
  obtain ⟨index', op'⟩ := d
  have hop : op = op' := by
    cases op <;> cases op' <;> simp_all [Token.ofOperator]
  simp_all

end LogicTrainer.Reduction
