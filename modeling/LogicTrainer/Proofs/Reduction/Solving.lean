import Mathlib.Data.List.Chain
import LogicTrainer.Proofs.Reduction.History

/-! Solving always ends, and in one way.

A list can be solved by itself, and a session can be solved. The first makes the leftmost legal
move as long as there is one, and keeps the states. The second is a loop around selections that
does not look at their answers: it would never end if the leftmost legal move were refused.
`Plays` says what this loop is, without a bound on its turns. It ends from every session
(`exists_plays`), because no selection in it is refused and each takes one operator away, and it
appends the states that the list goes through by itself (`Plays.exists_appended`).

The main statement is `solving_ends`. -/
namespace LogicTrainer.Reduction
open Token

/-! ### The leftmost move -/

/-- The leftmost move fires the first of the legal moves, and collapses what that leaves. -/
theorem leftmostMove?_eq_some_iff {ts next : List Token} :
    leftmostMove? ts = some next ↔ ∃ c fired, (legalMoves ts).head? = some c ∧
      Fires ts c.index c.op fired ∧ next = collapse fired := by
  unfold leftmostMove?
  constructor
  · intro h
    obtain ⟨c, hc, h⟩ := Option.bind_eq_some_iff.1 h
    obtain ⟨fired, hfire, rfl⟩ := Option.map_eq_some_iff.1 h
    have hcan := (mem_legalMoves_iff.1 (List.mem_of_head? hc)).1
    obtain ⟨fired', hfire', hfires⟩ := exists_fires_of_mem hcan
    obtain rfl : fired = fired' := Option.some.inj (hfire.symm.trans hfire')
    exact ⟨c, fired, hc, hfires, rfl⟩
  · rintro ⟨c, fired, hc, hfires, rfl⟩
    rw [hc, Option.bind_some, fireAt?_of_fires hfires, Option.map_some]

theorem leftmostMove?_eq_none_iff {ts : List Token} :
    leftmostMove? ts = none ↔ legalMoves ts = [] := by
  constructor
  · intro h
    cases hlegal : legalMoves ts with
    | nil => rfl
    | cons c rest =>
      have hc : c ∈ legalMoves ts := hlegal ▸ List.mem_cons_self
      obtain ⟨fired, -, hfires⟩ := exists_fires_of_mem (mem_legalMoves_iff.1 hc).1
      have hmove := leftmostMove?_eq_some_iff.2 ⟨c, fired, by rw [hlegal]; rfl, hfires, rfl⟩
      rw [h] at hmove
      cases hmove
  · intro h
    rw [leftmostMove?, h]
    rfl

/-- A single bit has no move left. -/
theorem leftmostMove?_of_isTerminal {ts : List Token} (h : isTerminal ts = true) :
    leftmostMove? ts = none := by
  unfold isTerminal at h
  split at h
  · rfl
  · cases h

/-- The leftmost move takes one operator away. -/
theorem connectives_of_leftmostMove? {ts next : List Token} (h : leftmostMove? ts = some next) :
    connectives ts = connectives next + 1 := by
  obtain ⟨c, fired, -, hfires, rfl⟩ := leftmostMove?_eq_some_iff.1 h
  rw [hfires.connectives_eq, connectives_collapse]

/-! ### The states of a list -/

theorem statesFrom_of_none {ts : List Token} (h : leftmostMove? ts = none) : statesFrom ts = [] := by
  rw [statesFrom]
  split
  · rfl
  · split
    · rfl
    · next heq =>
      rw [h] at heq
      cases heq

theorem statesFrom_of_some {ts next : List Token} (h : leftmostMove? ts = some next) :
    statesFrom ts = next :: statesFrom next := by
  rw [statesFrom]
  split
  · next hterminal =>
    rw [leftmostMove?_of_isTerminal hterminal] at h
    cases h
  · split
    · next heq =>
      rw [h] at heq
      cases heq
    · next heq =>
      rw [h] at heq
      cases heq
      rfl

/-- To show something of all lists, it is enough to show it where no move is left, and to carry it
back over the leftmost move. -/
theorem statesFrom_induction {motive : List Token → Prop}
    (stuck : ∀ ts, leftmostMove? ts = none → motive ts)
    (move : ∀ ts next, leftmostMove? ts = some next → motive next → motive ts) (ts : List Token) :
    motive ts := by
  induction hn : ts.length using Nat.strongRecOn generalizing ts with
  | ind n ih =>
    cases h : leftmostMove? ts with
    | none => exact stuck ts h
    | some next => exact move ts next h (ih _ (hn ▸ length_leftmostMove?_lt h) next rfl)

/-- From state to state there is one operator less. -/
theorem isChain_statesFrom (ts : List Token) :
    List.IsChain (fun a b => connectives a = connectives b + 1) (ts :: statesFrom ts) := by
  induction ts using statesFrom_induction with
  | stuck ts h =>
    rw [statesFrom_of_none h]
    exact .singleton ts
  | move ts next h ih =>
    rw [statesFrom_of_some h]
    exact .cons_cons (connectives_of_leftmostMove? h) ih

theorem connectives_getElem?_statesFrom {ts state : List Token} {i : Nat}
    (h : (statesFrom ts)[i]? = some state) : connectives state + (i + 1) = connectives ts := by
  induction ts using statesFrom_induction generalizing i with
  | stuck ts hnone =>
    rw [statesFrom_of_none hnone] at h
    cases h
  | move ts next hmove ih =>
    have hless := connectives_of_leftmostMove? hmove
    rw [statesFrom_of_some hmove] at h
    cases i with
    | zero =>
      cases h
      omega
    | succ i =>
      have := ih h
      omega

/-- There are no more states than operators. -/
theorem length_statesFrom_le (ts : List Token) : (statesFrom ts).length ≤ connectives ts := by
  induction ts using statesFrom_induction with
  | stuck ts hnone =>
    rw [statesFrom_of_none hnone]
    exact Nat.zero_le _
  | move ts next hmove ih =>
    have hless := connectives_of_leftmostMove? hmove
    rw [statesFrom_of_some hmove, List.length_cons]
    omega

namespace Session

/-! ### The loop -/

/-- The loop that solves a session, with the answers that it gets and the session that it leaves:
the leftmost legal move is selected, whatever is answered, until the session is solved or there is
none. -/
inductive Plays : Session → List MoveResult → Session → Prop where
  | stop {s : Session} (h : s.isSolved = true ∨ s.legalMoves = []) : Plays s [] s
  | turn {s done : Session} {c : Candidate} {answers : List MoveResult} (hs : s.isSolved = false)
    (hc : s.legalMoves.head? = some c) (h : Plays (s.select c.index).2 answers done) :
    Plays s ((s.select c.index).1 :: answers) done

/-- Playing ends where the loop does, not for want of turns. -/
theorem exists_plays {fuel : Nat} {s : Session} (hfuel : s.tokens.length ≤ fuel) :
    ∃ answers, Plays s answers (play fuel s) := by
  induction fuel generalizing s with
  | zero => exact ⟨[], .stop (play_stops hfuel)⟩
  | succ fuel ih =>
    rw [play]
    split
    · next hsolved => exact ⟨[], .stop (.inl hsolved)⟩
    · next hsolved =>
      split
      · next hnil => exact ⟨[], .stop (.inr hnil)⟩
      · next c rest hlegal =>
        have hlt := length_tokens_select_lt (s := s) (hlegal ▸ List.mem_cons_self)
        obtain ⟨answers, h⟩ := ih (s := (s.select c.index).2) (by omega)
        exact ⟨_, .turn (Bool.eq_false_iff.2 hsolved) (by rw [hlegal]; rfl) h⟩

/-- Where the loop stops there is nothing to select. -/
theorem legalMoves_of_stop {s : Session} (h : s.isSolved = true ∨ s.legalMoves = []) :
    s.legalMoves = [] :=
  h.elim legalMoves_of_isSolved id

/-- The loop has no choice: it stops or selects, and it selects one thing. -/
theorem Plays.unique {s done done' : Session} {answers answers' : List MoveResult}
    (h : Plays s answers done) (h' : Plays s answers' done') : answers' = answers ∧ done' = done := by
  induction h generalizing answers' with
  | stop hstop =>
    cases h' with
    | stop => exact ⟨rfl, rfl⟩
    | turn _ hc =>
      rw [legalMoves_of_stop hstop] at hc
      cases hc
  | turn _ hc _ ih =>
    cases h' with
    | stop hstop =>
      rw [legalMoves_of_stop hstop] at hc
      cases hc
    | turn _ hc' h' =>
      obtain rfl := Option.some.inj (hc'.symm.trans hc)
      obtain ⟨rfl, rfl⟩ := ih h'
      exact ⟨rfl, rfl⟩

section
variable {s : Session} (hs : s.substituted = true)
include hs

/-- Where nothing can be selected the list has no move left. -/
theorem leftmostMove?_of_legalMoves (h : s.legalMoves = []) : leftmostMove? s.tokens = none := by
  rwa [leftmostMove?_eq_none_iff, ← legalMoves_of_substituted hs]

/-- A turn of the loop makes the leftmost move of the list. -/
theorem select_leftmost {c : Candidate} (hc : s.legalMoves.head? = some c) :
    ∃ next, leftmostMove? s.tokens = some next ∧
      s.select c.index = (⟨.applied, some ⟨s.history.length, .reduction, next⟩⟩,
        s.append .reduction next) := by
  obtain ⟨fired, hfires, heq⟩ := select_of_mem (List.mem_of_head? hc)
  rw [legalMoves_of_substituted hs] at hc
  exact ⟨_, leftmostMove?_eq_some_iff.2 ⟨c, fired, hc, hfires, rfl⟩, heq⟩

/-- The loop appends a reduction for each of its selections, all of them accepted, and these are
the states that the list goes through by itself. -/
theorem Plays.exists_appended {done : Session} {answers : List MoveResult}
    (h : Plays s answers done) :
    ∃ appended, done.history = s.history ++ appended ∧
      answers = appended.map (fun step => ⟨.applied, some step⟩) ∧
      (∀ step ∈ appended, step.kind = .reduction) ∧
      appended.map Step.tokens = statesFrom s.tokens := by
  induction h with
  | stop hstop =>
    refine ⟨[], (List.append_nil _).symm, rfl, fun _ hstep => absurd hstep List.not_mem_nil, ?_⟩
    rw [statesFrom_of_none (leftmostMove?_of_legalMoves hs (legalMoves_of_stop hstop))]
    rfl
  | @turn s done c answers _ hc _ ih =>
    obtain ⟨next, hmove, heq⟩ := select_leftmost hs hc
    have hnext := substituted_select c.index hs
    rw [heq] at ih hnext ⊢
    obtain ⟨appended, hhistory, hanswers, hkinds, htokens⟩ := ih hnext
    refine ⟨⟨s.history.length, .reduction, next⟩ :: appended, ?_, ?_, ?_, ?_⟩
    · rw [hhistory, history_append, List.append_assoc]
      rfl
    · rw [hanswers]
      rfl
    · exact List.forall_mem_cons.2 ⟨rfl, hkinds⟩
    · rw [List.map_cons, htokens, statesFrom_of_some hmove]
      rfl

end

/-- Solving returns the bit that is left, or nothing where other tokens are left and none of them
can fire. -/
theorem solve_cases {s : Session} (h : s.ready.substituted = true) :
    (∃ b, s.solve.2.tokens = [.bit b] ∧ s.solve.1 = some b) ∨
      ((∀ b, s.solve.2.tokens ≠ [.bit b]) ∧ Reduction.reducible s.solve.2.tokens = [] ∧
        s.solve.1 = none) := by
  have hs := substituted_solve h
  have hresult : s.solve.1 = s.solve.2.result := rfl
  rw [hresult, result]
  by_cases hsolved : s.solve.2.isSolved = true
  · obtain ⟨-, b, hb⟩ := isSolved_eq_true_iff.1 hsolved
    exact .inl ⟨b, hb, by rw [hsolved, hb]⟩
  · have hnil := (solve_stops s).resolve_left hsolved
    rw [legalMoves_of_substituted hs] at hnil
    refine .inr ⟨fun b hb => hsolved (isSolved_eq_true_iff.2 ⟨hs, b, hb⟩), ?_, ?_⟩
    · exact Decidable.of_not_not fun hne => legalMoves_ne_nil_iff.2 hne hnil
    · rw [Bool.eq_false_iff.2 hsolved]

/-- In a history the substituted list has nothing left to collapse. -/
theorem IsHistory.collapse_tokens {opening : Opening} {s : Session}
    (h : IsHistory opening s.history) (hs : s.substituted = true) : collapse s.tokens = s.tokens := by
  have hcurrent : s.current ∈ s.history := List.mem_append_right _ (List.mem_singleton.2 rfl)
  exact collapse_eq_self
    (isCollapsed_iff.2 (h.collapsed s.current hcurrent (substituted_eq_true_iff.1 hs)))

/-- Whatever has been called, solving comes to an end, in one way only: every selection is accepted,
and the states are those of solving the list by itself, each with one operator less. Then a single
bit is left and is returned, or nothing can fire. -/
theorem solving_ends (opening : Opening) (actions : List Action) :
    let s := opening.session.run actions
    s.ready.substituted = true ∧ ∃ answers appended,
      (∀ others done, Plays s.ready others done ↔ others = answers ∧ done = s.solve.2) ∧
      (∀ answer ∈ answers, answer.accepted = true) ∧
      answers.map MoveResult.step = appended.map some ∧
      s.solve.2.history = s.ready.history ++ appended ∧
      (∀ step ∈ appended, step.kind = .reduction) ∧
      appended.map Step.tokens = Reduction.solve s.ready.tokens ∧
      List.IsChain (fun a b => connectives a.tokens = connectives b.tokens + 1)
        (s.ready.current :: appended) ∧
      appended.length ≤ connectives s.ready.tokens ∧
      ((∃ b, s.solve.2.tokens = [.bit b] ∧ s.solve.1 = some b) ∨
        ((∀ b, s.solve.2.tokens ≠ [.bit b]) ∧ Reduction.reducible s.solve.2.tokens = [] ∧
          s.solve.1 = none)) := by
  intro s
  have hhistory : IsHistory opening s.history := isHistory_run opening actions
  have hs : s.ready.substituted = true := substituted_ready hhistory.past_eq_nil
  have hcollapsed := (hhistory.reaches (reaches_ready s)).collapse_tokens hs
  obtain ⟨answers, hplays⟩ := exists_plays (Nat.le_refl s.ready.tokens.length)
  obtain ⟨appended, hgrows, rfl, hkinds, htokens⟩ := hplays.exists_appended hs
  refine ⟨hs, _, appended, fun others done => ⟨hplays.unique, ?_⟩, ?_, ?_, hgrows, hkinds, ?_, ?_,
    ?_, solve_cases hs⟩
  · rintro ⟨rfl, rfl⟩
    exact hplays
  · intro answer hanswer
    obtain ⟨step, -, rfl⟩ := List.mem_map.1 hanswer
    rfl
  · rw [List.map_map]
    rfl
  · rw [htokens, Reduction.solve, hcollapsed]
  · have hchain := isChain_statesFrom s.ready.tokens
    rw [← htokens] at hchain
    exact (List.isChain_map (l := s.ready.current :: appended) Step.tokens).1 hchain
  · rw [← List.length_map (f := Step.tokens), htokens]
    exact length_statesFrom_le s.ready.tokens

/-- In a list that is no formula the loop makes its two moves and then ends without a result: the
last operator has nothing behind it. -/
theorem solving_ends_stuck :
    let s := (Opening.tokens [.lparen, .bit true, .rparen, .conn .or, .bit false, .conn .and,
      .bit true, .conn .and]).session.run [.select 1]
    s.solve.1 = none ∧ s.solve.2.tokens = [.bit true, .conn .and] ∧
      ∃ answers, answers.length = 2 ∧ Plays s.ready answers s.solve.2 := by
  intro s
  obtain ⟨-, answers, appended, hplays, -, hsteps, hgrows, -⟩ := solving_ends
    (.tokens [.lparen, .bit true, .rparen, .conn .or, .bit false, .conn .and, .bit true,
      .conn .and]) [.select 1]
  have hone : s.ready.history.length = 1 := by decide
  have hthree : s.solve.2.history.length = 3 := by decide
  refine ⟨by decide, by decide, answers, ?_, (hplays _ _).2 ⟨rfl, rfl⟩⟩
  have hlen := congrArg List.length hsteps
  have hmore : s.solve.2.history.length = (s.ready.history ++ appended).length :=
    congrArg List.length hgrows
  rw [List.length_map, List.length_map] at hlen
  rw [hthree, List.length_append, hone] at hmore
  omega

end Session
end LogicTrainer.Reduction
