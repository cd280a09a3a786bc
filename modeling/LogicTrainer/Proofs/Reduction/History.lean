import LogicTrainer.Proofs.Reduction.Calls
import LogicTrainer.Proofs.Reduction.Collapsing

/-! Histories only grow.

`Appends` says what can be put at the end of a history: the substituted list, after the
formula, and the list after a legal move. Every call is a chain of such steps, of one, of
many, or of none, and so is every run (`reaches_run`). A chain keeps the states that are there
(`Reaches.prefix_history`), and what is true of a history when the session is opened and after
each step is true of every history (`isHistory_run`). Nothing is asked of the tokens: they may
come from a formula that cannot be read, or be any list at all.

The main statement is `histories_only_grow`. -/
namespace LogicTrainer.Reduction.Session

/-! ### Opening a session -/

/-- How a session is opened: with a formula, or with a list that has bits in it already. -/
inductive Opening where
  | formula (text : Text) (loose : Entries Json) (maxDepth : Int)
  | tokens (ts : List Token)

namespace Opening

/-- The session that is opened. -/
def session : Opening → Session
  | .formula text loose maxDepth => start text loose maxDepth
  | .tokens ts => ofTokens ts

/-- The kind of the state at an index: the formula comes first, the substituted list second,
and everything later is a reduction. Without a formula the substituted list comes first. -/
def kindAt : Opening → Nat → StepKind
  | .formula .., 0 => .formula
  | .formula .., 1 => .substituted
  | .formula .., _ + 2 => .reduction
  | .tokens _, 0 => .substituted
  | .tokens _, _ + 1 => .reduction

/-- Only reductions follow what is not the formula. -/
theorem kindAt_succ {opening : Opening} {i : Nat} (h : opening.kindAt i ≠ .formula) :
    opening.kindAt (i + 1) = .reduction := by
  match opening, i with
  | .formula .., 0 => exact absurd rfl h
  | .formula .., _ + 1 => rfl
  | .tokens _, _ => rfl

/-- The formula comes first, and the substituted list follows it. -/
theorem eq_zero_of_kindAt {opening : Opening} {i : Nat} (h : opening.kindAt i = .formula) :
    i = 0 ∧ opening.kindAt 1 = .substituted := by
  match opening, i with
  | .formula .., 0 => exact ⟨rfl, rfl⟩
  | .formula .., 1 => cases h
  | .formula .., _ + 2 => cases h
  | .tokens _, 0 => cases h
  | .tokens _, _ + 1 => cases h

end Opening

/-! ### What a history looks like -/

/-- A state follows another by a legal move: the operator fires, and what is left alone between
parentheses loses them. -/
def IsMove (before after : Step) : Prop :=
  ∃ c ∈ Reduction.legalMoves before.tokens, ∃ fired,
    fire before.tokens c.index = .ok fired ∧ after.tokens = collapse fired

/-- The states are numbered and of the kinds that belong there, from the substituted list on no
bit stands alone between parentheses, and each reduction is a legal move from the state before
it. -/
structure IsHistory (opening : Opening) (history : List Step) : Prop where
  index : ∀ i (step : Step), history[i]? = some step → step.index = i
  kind : ∀ i step, history[i]? = some step → step.kind = opening.kindAt i
  collapsed : ∀ step ∈ history, step.kind ≠ .formula → ∀ next, ¬ Collapses step.tokens next
  moves : ∀ i before after, history[i]? = some before → history[i + 1]? = some after →
    after.kind = .reduction → IsMove before after

theorem getElem?_concat_iff {history : List Step} {last step : Step} {i : Nat} :
    (history ++ [last])[i]? = some step ↔
      history[i]? = some step ∨ i = history.length ∧ step = last := by
  rcases Nat.lt_trichotomy i history.length with hi | rfl | hi
  · rw [List.getElem?_append_left hi]
    simp [Nat.ne_of_lt hi]
  · rw [List.getElem?_concat_length, List.getElem?_eq_none (Nat.le_refl _)]
    simp [eq_comm]
  · have hlen : (history ++ [last]).length ≤ i := by rwa [List.length_append]
    rw [List.getElem?_eq_none (Nat.le_of_lt hi), List.getElem?_eq_none hlen]
    simp [Nat.ne_of_gt hi]

section
variable {opening : Opening} {history : List Step} {s s' : Session}

theorem isHistory_nil : IsHistory opening [] where
  index _ _ h := by cases h
  kind _ _ h := by cases h
  collapsed _ h := by cases h
  moves _ _ _ h := by cases h

/-- One more state that belongs there. -/
theorem IsHistory.concat (h : IsHistory opening history) {step : Step}
    (hindex : step.index = history.length) (hkind : step.kind = opening.kindAt history.length)
    (hcollapsed : step.kind ≠ .formula → ∀ next, ¬ Collapses step.tokens next)
    (hmove : step.kind = .reduction → ∀ before ∈ history.getLast?, IsMove before step) :
    IsHistory opening (history ++ [step]) where
  index i other hother := by
    rcases getElem?_concat_iff.1 hother with hold | ⟨rfl, rfl⟩
    · exact h.index i other hold
    · exact hindex
  kind i other hother := by
    rcases getElem?_concat_iff.1 hother with hold | ⟨rfl, rfl⟩
    · exact h.kind i other hold
    · exact hkind
  collapsed other hother hne := by
    rcases List.mem_append.1 hother with hold | hnew
    · exact h.collapsed other hold hne
    · obtain rfl := List.mem_singleton.1 hnew
      exact hcollapsed hne
  moves i before after hbefore hafter hreduction := by
    rcases getElem?_concat_iff.1 hbefore with hprev | ⟨rfl, -⟩
    · rcases getElem?_concat_iff.1 hafter with hold | ⟨hi, rfl⟩
      · exact h.moves i before after hprev hold hreduction
      · refine hmove hreduction before ?_
        rw [Option.mem_def, List.getLast?_eq_getElem?, ← hi]
        exact hprev
    · -- nothing follows the last state
      rcases getElem?_concat_iff.1 hafter with hold | ⟨hi, -⟩
      · have hlt := (List.getElem?_eq_some_iff.1 hold).1
        omega
      · omega

theorem length_history (s : Session) : s.history.length = s.past.length + 1 :=
  List.length_append

theorem IsHistory.current_kind (h : IsHistory opening s.history) :
    s.current.kind = opening.kindAt s.past.length :=
  h.kind _ _ List.getElem?_concat_length

/-! ### Steps -/

/-- One session becomes another by a state at the end of its history: the substituted list, if
there is nothing but a formula, or the list after a legal move. -/
inductive Appends (s : Session) : Session → Prop where
  | substituted (hs : s.substituted = false) :
    Appends s (s.append .substituted
      (collapse (substituteLoose s.assignment.loosen s.tokens)))
  | reduction {c : Candidate} (hc : c ∈ s.legalMoves) {fired : List Token}
    (h : fire s.tokens c.index = .ok fired) : Appends s (s.append .reduction (collapse fired))

theorem Appends.prefix_history (h : Appends s s') : s.history <+: s'.history := by
  cases h <;> exact List.prefix_append _ _

/-- A step keeps what a history looks like. -/
theorem IsHistory.step (h : IsHistory opening s.history) (hstep : Appends s s') :
    IsHistory opening s'.history := by
  cases hstep with
  | substituted hs =>
    have hformula := h.current_kind.symm.trans (substituted_eq_false_iff.1 hs)
    obtain ⟨hpast, hnext⟩ := Opening.eq_zero_of_kindAt hformula
    refine h.concat rfl ?_ (fun _ => isCollapsed_iff.1 (isCollapsed_collapse _))
      fun hk => by cases hk
    rw [length_history, hpast]
    exact hnext.symm
  | @reduction c hc fired hfire =>
    have hs := substituted_of_mem_legalMoves hc
    have hne : opening.kindAt s.past.length ≠ .formula := by
      rw [← h.current_kind]
      exact substituted_eq_true_iff.1 hs
    refine h.concat rfl ?_ (fun _ => isCollapsed_iff.1 (isCollapsed_collapse _))
      fun _ before hbefore => ?_
    · rw [length_history, Opening.kindAt_succ hne]
      rfl
    · obtain rfl : s.current = before := by simpa [history] using hbefore
      rw [legalMoves_of_substituted hs] at hc
      exact ⟨c, hc, fired, hfire, rfl⟩

/-! ### Runs -/

/-- A session becomes another by any number of steps. -/
def Reaches : Session → Session → Prop := Relation.ReflTransGen Appends

theorem Reaches.prefix_history (h : Reaches s s') : s.history <+: s'.history := by
  induction h with
  | refl => exact List.prefix_rfl
  | tail _ hstep ih => exact ih.trans hstep.prefix_history

theorem IsHistory.reaches (h : IsHistory opening s.history) (hreach : Reaches s s') :
    IsHistory opening s'.history := by
  induction hreach with
  | refl => exact h
  | tail _ hstep ih => exact ih.step hstep

end

theorem reaches_substitute (s : Session) : Reaches s s.substitute.2 := by
  rcases substitute_cases s with ⟨-, hs, heq⟩ | ⟨-, heq⟩
  · rw [heq]
    exact .single (.substituted hs)
  · rw [heq]
    exact .refl

theorem reaches_select (s : Session) (i : Int) : Reaches s (s.select i).2 := by
  rcases select_cases s i with ⟨c, hc, -, -, next, hfires, heq⟩ | ⟨-, -, heq⟩
  · rw [heq]
    exact .single (.reduction hc (fire_of_fires hfires))
  · rw [heq]
    exact .refl

theorem reaches_ready (s : Session) : Reaches s s.ready := by
  unfold Session.ready
  split
  · exact .refl
  · exact reaches_substitute s

theorem reaches_solve (s : Session) : Reaches s s.solve.2 :=
  play_induction (P := Reaches s) (fun s' i h => h.trans (reaches_select s' i)) _ (reaches_ready s)

theorem reaches_perform (s : Session) (action : Action) : Reaches s (s.perform action) := by
  cases action with
  | substitute => exact reaches_substitute s
  | select i => exact reaches_select s i
  | solve => exact reaches_solve s

theorem reaches_run (s : Session) (actions : List Action) : Reaches s (s.run actions) := by
  induction actions generalizing s with
  | nil => exact .refl
  | cons action actions ih => exact (reaches_perform s action).trans (ih _)

/-- A session opens with one state. -/
theorem isHistory_session (opening : Opening) : IsHistory opening opening.session.history := by
  cases opening with
  | formula text loose maxDepth =>
    exact isHistory_nil.concat rfl rfl (fun hne => absurd rfl hne) fun _ _ h => by cases h
  | tokens ts =>
    exact isHistory_nil.concat rfl rfl (fun _ => isCollapsed_iff.1 (isCollapsed_collapse ts))
      fun _ _ h => by cases h

theorem isHistory_run (opening : Opening) (actions : List Action) :
    IsHistory opening (opening.session.run actions).history :=
  (isHistory_session opening).reaches (reaches_run _ actions)

/-! ### The histories of a session -/

/-- Before substitution there is only the formula. -/
theorem IsHistory.past_eq_nil {opening : Opening} {s : Session} (h : IsHistory opening s.history)
    (hs : s.substituted = false) : s.past = [] := by
  have hformula := h.current_kind.symm.trans (substituted_eq_false_iff.1 hs)
  exact List.length_eq_zero_iff.1 (Opening.eq_zero_of_kindAt hformula).1

/-- Substituting is refused if and only if it has been done. -/
theorem substitute_eq_none_iff {opening : Opening} {s : Session}
    (h : IsHistory opening s.history) : s.substitute.1 = none ↔ s.substituted = true := by
  unfold substitute
  cases hs : s.substituted
  · simp [h.past_eq_nil hs]
  · simp

theorem substitute_of_none {s : Session} (h : s.substitute.1 = none) : s.substitute.2 = s := by
  unfold substitute at h ⊢
  split
  · next hstart =>
    rw [if_pos hstart] at h
    cases h
  · rfl

/-- Whatever has been called, the history is numbered, its kinds are in order, each reduction is a
legal move, and more calls leave all of it in place. A selection is answered as `Answers` says, and
appends the state that is returned or changes nothing. -/
theorem histories_only_grow (opening : Opening) (actions : List Action) :
    let s := opening.session.run actions
    IsHistory opening s.history ∧
    (∀ more, s.history <+: (s.run more).history) ∧
    (∀ i, (∀ status, (s.select i).1.status = status ↔ Answers s i status) ∧
      ((s.select i).1.status = .applied → ∃ step fired, fire s.tokens i = .ok fired ∧
        step.tokens = collapse fired ∧ (s.select i).1.step = some step ∧
        (s.select i).2.history = s.history ++ [step]) ∧
      ((s.select i).1.status ≠ .applied → (s.select i).2 = s)) ∧
    (∀ c ∈ s.reducible, ∃ fired, fire s.tokens c.index = .ok fired) ∧
    (s.substitute.1 = none ↔ s.substituted = true) ∧
    (s.substitute.1 = none → s.substitute.2 = s) := by
  intro s
  have h : IsHistory opening s.history := isHistory_run opening actions
  refine ⟨h, fun more => (reaches_run s more).prefix_history, fun i => ⟨fun _ => status_select_iff,
    fun happlied => ?_, fun hne => ?_⟩, fun c hc => ?_, substitute_eq_none_iff h, substitute_of_none⟩
  · obtain ⟨c, hc, rfl⟩ := status_select_iff.1 happlied
    obtain ⟨fired, hfires, heq⟩ := select_of_mem hc
    rw [heq]
    exact ⟨_, fired, fire_of_fires hfires, rfl, rfl, rfl⟩
  · rw [select_of_answers (status_select_iff.1 rfl) hne]
  · obtain ⟨fired, -, hfires⟩ := fire_of_mem hc
    exact ⟨fired, fire_of_fires hfires⟩

/-- In a list that is no formula, an operator that must wait is turned down, one that binds
tighter is accepted, and the last one never can be. -/
theorem histories_only_grow_malformed :
    let s := (Opening.tokens [.lparen, .bit true, .rparen, .conn .or, .bit false, .conn .and,
      .bit true, .conn .and]).session.run [.select 1, .substitute]
    (s.select 1).1.status = .orderViolation ∧ (s.select 1).2 = s ∧
      (s.select 3).1.status = .applied ∧ (s.select 5).1.status = .notReducible ∧
      s.history <+: (s.run [.select 3, .solve]).history ∧ s.substitute.2 = s := by
  intro s
  obtain ⟨-, hgrows, hselect, -, hrefused, hsame⟩ := histories_only_grow
    (.tokens [.lparen, .bit true, .rparen, .conn .or, .bit false, .conn .and, .bit true,
      .conn .and]) [.select 1, .substitute]
  have hviolation : (s.select 1).1.status = .orderViolation := ((hselect 1).1 _).2 (by decide)
  refine ⟨hviolation, (hselect 1).2.2 ?_, ((hselect 3).1 _).2 (by decide),
    ((hselect 5).1 _).2 (by decide), hgrows _, hsame (hrefused.2 (by decide))⟩
  rw [hviolation]
  decide

end LogicTrainer.Reduction.Session
