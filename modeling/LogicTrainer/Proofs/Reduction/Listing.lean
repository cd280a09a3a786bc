import Mathlib.Data.List.Induction
import LogicTrainer.Proofs.Reduction.Firing

/-! Listing and firing by index.

What can fire is said twice by index arithmetic: for the list of the candidates, which looks one place
to each side of every place of a list, and for the move at an index, which may be any integer. The
listing from left to right, which only keeps the token before, comes to the first
(`reducible_eq_filterMap`), since no bit stands one place before the start or behind the end. Firing
agrees with it: at the index of a candidate it puts the value in the place of the operator and its
operands, and at every other index it fails and tells what stands there (`fire_eq_error_iff`).

The main statement is `listing_and_firing_agree`. -/
namespace LogicTrainer.Reduction

/-! ### Looking at an index -/

/-- The token at an index. None stands before the start or behind the end. -/
def tokenAt? (ts : List Token) (index : Int) : Option Token :=
  if index < 0 then none else ts[index.toNat]?

/-- Whether a bit stands at an index. -/
def isBitAt (ts : List Token) (index : Int) : Bool :=
  match tokenAt? ts index with
  | some (.bit _) => true
  | _ => false

/-- The operator at an index, if bits stand at the indices of its operands. -/
def readyAt? (ts : List Token) (index : Int) : Option Operator :=
  match tokenAt? ts index with
  | some .neg => if isBitAt ts (index + 1) then some .not else none
  | some (.conn op) =>
    if isBitAt ts (index - 1) && isBitAt ts (index + 1) then some (.binary op) else none
  | _ => none

/-- The candidate at a place. -/
def candidateAt? (ts : List Token) (i : Nat) : Option Candidate :=
  (readyAt? ts i).map fun op => ⟨i, op⟩

section
variable (before : List Token) (t : Token) (after : List Token)

theorem tokenAt?_length : tokenAt? (before ++ t :: after) before.length = some t := by
  have h := getElem?_after before (t :: after) 0
  rw [tokenAt?, if_neg (by omega)]
  exact h

theorem tokenAt?_next : tokenAt? (before ++ t :: after) (before.length + 1) = after.head? := by
  have h := getElem?_after before (t :: after) 1
  rw [tokenAt?, if_neg (by omega), List.head?_eq_getElem?]
  exact h

/-- At the start there is nothing before, although the index before it is an index. -/
theorem tokenAt?_previous :
    tokenAt? (before ++ t :: after) (before.length - 1) = before.getLast? := by
  cases before using List.reverseRecOn with
  | nil => rfl
  | append_singleton before u =>
    have hindex : ((before ++ [u]).length : Int) - 1 = before.length := by
      rw [List.length_append, List.length_singleton]
      omega
    rw [hindex, List.append_assoc, List.getLast?_concat]
    exact tokenAt?_length before u (t :: after)

/-- Looking at the indices on both sides is looking at the neighbours. -/
theorem readyAt?_length : readyAt? (before ++ t :: after) before.length =
    readyBetween before.getLast? t after.head? := by
  rw [readyAt?, isBitAt, isBitAt, tokenAt?_length, tokenAt?_next, tokenAt?_previous]
  cases t with
  | neg =>
    rcases after.head? with _ | u
    · rfl
    · cases u <;> rfl
  | conn op =>
    rcases before.getLast? with _ | s
    · rfl
    · rcases after.head? with _ | u
      · cases s <;> rfl
      · cases s <;> cases u <;> rfl
  | lparen | rparen | bit | word => rfl

end

/-! ### The listing -/

/-- Behind some tokens the places from their number on are looked at. -/
theorem reducibleFrom_eq_filterMap (before ts : List Token) :
    reducibleFrom before.length before.getLast? ts =
      (List.range' before.length ts.length).filterMap (candidateAt? (before ++ ts)) := by
  induction ts generalizing before with
  | nil => rfl
  | cons t rest ih =>
    -- the token goes over to those before, and the whole list stays the same
    have hrest := ih (before ++ [t])
    rw [List.length_append, List.length_singleton, List.getLast?_concat, ← List.append_cons] at hrest
    rw [reducibleFrom, hrest, List.length_cons, List.range'_succ, List.filterMap_cons, candidateAt?,
      readyAt?_length]
    cases readyBetween before.getLast? t rest.head? <;> rfl

/-- The candidates are found by looking at one place after another. -/
theorem reducible_eq_filterMap (ts : List Token) :
    reducible ts = (List.range ts.length).filterMap (candidateAt? ts) := by
  rw [List.range_eq_range']
  exact reducibleFrom_eq_filterMap [] ts

/-- The legal moves are the candidates that none outranks. -/
theorem legalMoves_eq_filter (ts : List Token) :
    legalMoves ts = (reducible ts).filter fun c => decide (∀ d ∈ reducible ts, d.rank ≤ c.rank) := by
  refine List.filter_congr fun c hc => Bool.eq_iff_iff.2 ?_
  have hmem : c ∈ legalMoves ts ↔ c ∈ reducible ts ∧ ∀ d ∈ reducible ts, d.rank ≤ c.rank :=
    mem_legalMoves_iff
  rw [legalMoves, List.mem_filter, and_iff_right hc, and_iff_right hc] at hmem
  rw [hmem, decide_eq_true_eq]

/-! ### Firing at an index -/

/-- At the index of a candidate firing does what a move does. -/
theorem fire_eq_ok_iff {ts next : List Token} {index : Int} : fire ts index = .ok next ↔
    ∃ c ∈ reducible ts, (c.index : Int) = index ∧ Fires ts c.index c.op next := by
  constructor
  · intro h
    unfold fire at h
    split at h
    · cases h
    · next hpos =>
      split at h
      · next fired hfired =>
        cases h
        obtain ⟨op, hfires⟩ := fireAt?_eq_some_iff.1 hfired
        exact ⟨⟨index.toNat, op⟩, mem_reducible_iff.2 ⟨next, hfires⟩,
          Int.toNat_of_nonneg (Int.not_lt.1 hpos), hfires⟩
      · cases h
  · rintro ⟨c, -, rfl, hfires⟩
    exact fire_of_fires hfires

/-- What is told of a failure is the index and the token there. -/
theorem eq_of_fire_eq_error {ts : List Token} {index : Int} {e : NotReducible}
    (h : fire ts index = .error e) : e = ⟨tokenAt? ts index, index⟩ := by
  unfold fire at h
  unfold tokenAt?
  split at h
  · next hneg =>
    rw [if_pos hneg]
    exact (Except.error.inj h).symm
  · next hpos =>
    rw [if_neg hpos]
    split at h
    · cases h
    · exact (Except.error.inj h).symm

/-- Firing fails where no candidate is. -/
theorem fire_eq_error_iff {ts : List Token} {index : Int} :
    fire ts index = .error ⟨tokenAt? ts index, index⟩ ↔
      ∀ c ∈ reducible ts, (c.index : Int) ≠ index := by
  constructor
  · intro h c hc hindex
    obtain ⟨next, -, hfires⟩ := exists_fires_of_mem hc
    have hok : fire ts index = .ok next := fire_eq_ok_iff.2 ⟨c, hc, hindex, hfires⟩
    rw [hok] at h
    cases h
  · intro hno
    cases hfire : fire ts index with
    | ok next =>
      obtain ⟨c, hc, hindex, -⟩ := fire_eq_ok_iff.1 hfire
      exact absurd hindex (hno c hc)
    | error e => rw [eq_of_fire_eq_error hfire]

/-- Firing at an integer fails, and tells what stands there, if and only if no candidate has this
index. At a candidate's index the operator and its operands give way to its value. The legal moves
are the candidates of the highest rank, in the same order. -/
theorem listing_and_firing_agree (ts : List Token) (index : Int) :
    reducible ts = (List.range ts.length).filterMap (candidateAt? ts) ∧
    (fire ts index = .error ⟨tokenAt? ts index, index⟩ ↔
      ∀ c ∈ reducible ts, (c.index : Int) ≠ index) ∧
    (∀ c ∈ reducible ts, (c.index : Int) = index → ∃ before redex after value,
      Redex redex c.op value ∧ ts = before ++ redex ++ after ∧
      c.index = before.length + offset c.op ∧
      fire ts index = .ok (before ++ .bit value :: after) ∧
      Token.connectives ts = Token.connectives (before ++ .bit value :: after) + 1) ∧
    legalMoves ts = (reducible ts).filter (fun c => decide (∀ d ∈ reducible ts, d.rank ≤ c.rank)) ∧
    (legalMoves ts = [] ↔ reducible ts = []) := by
  refine ⟨reducible_eq_filterMap ts, fire_eq_error_iff, fun c hc hindex => ?_,
    legalMoves_eq_filter ts, Decidable.not_iff_not.1 legalMoves_ne_nil_iff⟩
  obtain ⟨next, -, hfires⟩ := exists_fires_of_mem hc
  have hok : fire ts index = .ok next := fire_eq_ok_iff.2 ⟨c, hc, hindex, hfires⟩
  obtain ⟨before, redex, after, value, hredex, hts, hplace, rfl⟩ := hfires.exists_redex
  exact ⟨before, redex, after, value, hredex, hts, hplace, hok, hfires.connectives_eq⟩

/-- A conjunction can fire behind a negation that binds tighter. The implication at the end lacks an
operand; nothing stands behind it and before the start. -/
theorem listing_and_firing_agree_at_both_ends :
    let ts : List Token := [.neg, .bit false, .conn .and, .bit true, .conn .implies]
    reducible ts = [⟨0, .not⟩, ⟨2, .binary .and⟩] ∧ legalMoves ts = [⟨0, .not⟩] ∧
      (∃ next, fire ts 2 = .ok next ∧ Token.connectives ts = Token.connectives next + 1) ∧
      fire ts 4 = .error ⟨some (.conn .implies), 4⟩ ∧ fire ts 5 = .error ⟨none, 5⟩ ∧
      fire ts (-1) = .error ⟨none, -1⟩ := by
  intro ts
  obtain ⟨hlisted, -, hfires, hlegal, -⟩ := listing_and_firing_agree ts 2
  obtain ⟨_, _, _, _, -, -, -, hok, hcount⟩ := hfires ⟨2, .binary .and⟩ (by decide) rfl
  obtain ⟨-, hlast, -⟩ := listing_and_firing_agree ts 4
  obtain ⟨-, hbehind, -⟩ := listing_and_firing_agree ts 5
  obtain ⟨-, hbefore, -⟩ := listing_and_firing_agree ts (-1)
  exact ⟨hlisted.trans (by decide), hlegal.trans (by decide), ⟨_, hok, hcount⟩,
    hlast.2 (by decide), hbehind.2 (by decide), hbefore.2 (by decide)⟩

end LogicTrainer.Reduction
