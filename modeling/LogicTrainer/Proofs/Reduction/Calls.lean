import LogicTrainer.Proofs.Reduction.Firing
import LogicTrainer.Reduction.Session

/-! What the calls of a session do.

A session has three calls. Substituting appends one state or does nothing
(`substitute_cases`). Selecting has five answers, and `Answers` says when each is given:
one answer fits every index (`exists_answers`), the one that fits is given
(`status_select_iff`), a move is appended where it is accepted (`select_of_mem`), and nothing
changes where it is not (`select_of_answers`). Solving selects, again and again: it keeps what
a selection keeps (`play_induction`), and goes on to the end or to where nothing can be
selected (`solve_stops`). -/
namespace LogicTrainer.Reduction.Session

theorem history_append (s : Session) (kind : StepKind) (ts : List Token) :
    (s.append kind ts).history = s.history ++ [⟨s.history.length, kind, ts⟩] := rfl

theorem substituted_eq_true_iff {s : Session} : s.substituted = true ↔ s.current.kind ≠ .formula := by
  rw [substituted, bne_iff_ne]

theorem substituted_eq_false_iff {s : Session} :
    s.substituted = false ↔ s.current.kind = .formula := by
  rw [substituted, bne_eq_false_iff_eq]

theorem isSolved_eq_true_iff {s : Session} :
    s.isSolved = true ↔ s.substituted = true ∧ ∃ b, s.tokens = [.bit b] := by
  rw [isSolved, Bool.and_eq_true]
  refine and_congr_right fun _ => ?_
  unfold isTerminal
  split
  · next b heq => exact ⟨fun _ => ⟨b, heq⟩, fun _ => rfl⟩
  · next hne => exact ⟨fun h => (by cases h), fun ⟨b, heq⟩ => absurd heq (hne b)⟩

/-! ### Substituting -/

/-- Substituting appends one state at the start, and does nothing later. -/
theorem substitute_cases (s : Session) :
    (s.past = [] ∧ s.substituted = false ∧ s.substitute.2 =
        s.append .substituted (collapse (substituteLoose s.assignment.loosen s.tokens))) ∨
      ((s.past ≠ [] ∨ s.substituted = true) ∧ s.substitute.2 = s) := by
  unfold substitute
  split
  · next h =>
    simp only [Bool.and_eq_true, List.isEmpty_iff, Bool.not_eq_true'] at h
    exact .inl ⟨h.1, h.2, rfl⟩
  · next h =>
    refine .inr ⟨?_, rfl⟩
    simp only [Bool.and_eq_true, List.isEmpty_iff, Bool.not_eq_true', not_and,
      Bool.not_eq_false] at h
    by_cases hp : s.past = []
    · exact .inr (h hp)
    · exact .inl hp

/-! ### What may be selected -/

section
variable {s : Session} {c : Candidate}

theorem legalMoves_of_substituted (hs : s.substituted = true) :
    s.legalMoves = Reduction.legalMoves s.tokens := if_pos hs

theorem reducible_of_substituted (hs : s.substituted = true) :
    s.reducible = Reduction.reducible s.tokens := if_pos hs

/-- There is nothing to select before substitution. -/
theorem substituted_of_mem_reducible (hc : c ∈ s.reducible) : s.substituted = true := by
  by_cases hs : s.substituted = true
  · exact hs
  · rw [Session.reducible, if_neg hs] at hc
    exact absurd hc List.not_mem_nil

theorem substituted_of_mem_legalMoves (hc : c ∈ s.legalMoves) : s.substituted = true := by
  by_cases hs : s.substituted = true
  · exact hs
  · rw [Session.legalMoves, if_neg hs] at hc
    exact absurd hc List.not_mem_nil

/-- A legal move is one that can fire and that no other outranks. -/
theorem mem_legalMoves_iff_rank :
    c ∈ s.legalMoves ↔ c ∈ s.reducible ∧ ¬ c.rank < topRank s.reducible := by
  by_cases hs : s.substituted = true
  · rw [legalMoves_of_substituted hs, reducible_of_substituted hs, Reduction.legalMoves,
      List.mem_filter, beq_iff_eq]
    refine and_congr_right fun hc => ?_
    have hle := rank_le_topRank hc
    omega
  · rw [Session.legalMoves, Session.reducible, if_neg hs, if_neg hs]
    simp

/-- There is nothing to select when a single bit is left. -/
theorem reducible_of_isSolved (h : s.isSolved = true) : s.reducible = [] := by
  obtain ⟨hs, b, hb⟩ := isSolved_eq_true_iff.1 h
  rw [reducible_of_substituted hs, hb]
  rfl

theorem legalMoves_of_isSolved (h : s.isSolved = true) : s.legalMoves = [] := by
  obtain ⟨hs, b, hb⟩ := isSolved_eq_true_iff.1 h
  rw [legalMoves_of_substituted hs, hb]
  rfl

/-- The operator that is looked for at an index is the one that stands there. -/
theorem find?_reducible (hc : c ∈ s.reducible) :
    s.reducible.find? (fun d => (d.index : Int) == c.index) = some c := by
  cases hfind : s.reducible.find? (fun d => (d.index : Int) == c.index) with
  | none => exact absurd (beq_iff_eq.2 rfl) (List.find?_eq_none.1 hfind c hc)
  | some d =>
    have hred := reducible_of_substituted (substituted_of_mem_reducible hc)
    have hd := List.mem_of_find?_eq_some hfind
    have hindex : (d.index : Int) = c.index := by simpa using List.find?_some hfind
    rw [hred] at hc hd
    rw [eq_of_index_eq hd hc (Int.ofNat.inj hindex)]

/-- What can fire does not fail to. -/
theorem fire_of_mem (hc : c ∈ s.reducible) :
    ∃ fired, fireAt? s.tokens c.index = some fired ∧ Fires s.tokens c.index c.op fired := by
  rw [reducible_of_substituted (substituted_of_mem_reducible hc)] at hc
  exact exists_fires_of_mem hc

end

/-! ### Selecting -/

/-- When each answer is given to a selection: the index is that of a legal move; it is that of
an operator that can fire, but not of a legal move; it is that of no operator that can fire,
although the session is neither before substitution nor at its end; it is before substitution;
it is at the end. -/
def Answers (s : Session) (i : Int) : MoveStatus → Prop
  | .applied => ∃ c ∈ s.legalMoves, (c.index : Int) = i
  | .orderViolation =>
    (∃ c ∈ s.reducible, (c.index : Int) = i) ∧ ¬ ∃ c ∈ s.legalMoves, (c.index : Int) = i
  | .notReducible =>
    s.substituted = true ∧ s.isSolved = false ∧ ¬ ∃ c ∈ s.reducible, (c.index : Int) = i
  | .notReady => s.substituted = false
  | .solved => s.isSolved = true

instance (s : Session) (i : Int) : (status : MoveStatus) → Decidable (Answers s i status)
  | .applied => inferInstanceAs (Decidable (∃ c ∈ s.legalMoves, (c.index : Int) = i))
  | .orderViolation => inferInstanceAs (Decidable ((∃ c ∈ s.reducible, (c.index : Int) = i) ∧
      ¬ ∃ c ∈ s.legalMoves, (c.index : Int) = i))
  | .notReducible => inferInstanceAs (Decidable (s.substituted = true ∧ s.isSolved = false ∧
      ¬ ∃ c ∈ s.reducible, (c.index : Int) = i))
  | .notReady => inferInstanceAs (Decidable (s.substituted = false))
  | .solved => inferInstanceAs (Decidable (s.isSolved = true))

section
variable (s : Session) (i : Int)

/-- Every selection has an answer. -/
theorem exists_answers : ∃ status, Answers s i status := by
  by_cases hlegal : ∃ c ∈ s.legalMoves, (c.index : Int) = i
  · exact ⟨.applied, hlegal⟩
  by_cases hcan : ∃ c ∈ s.reducible, (c.index : Int) = i
  · exact ⟨.orderViolation, hcan, hlegal⟩
  cases hs : s.substituted
  · exact ⟨.notReady, hs⟩
  cases hsolved : s.isSolved
  · exact ⟨.notReducible, hs, hsolved, hcan⟩
  · exact ⟨.solved, hsolved⟩

variable {s i}

/-- Where a legal move stands it is made. -/
theorem select_of_mem {c : Candidate} (hc : c ∈ s.legalMoves) :
    ∃ fired, Fires s.tokens c.index c.op fired ∧
      s.select c.index = (⟨.applied, some ⟨s.history.length, .reduction, collapse fired⟩⟩,
        s.append .reduction (collapse fired)) := by
  have hs := substituted_of_mem_legalMoves hc
  have hsolved : s.isSolved ≠ true := by
    intro h
    rw [legalMoves_of_isSolved h] at hc
    exact absurd hc List.not_mem_nil
  obtain ⟨hcan, hrank⟩ := mem_legalMoves_iff_rank.1 hc
  obtain ⟨fired, hfire, hfires⟩ := fire_of_mem hcan
  refine ⟨fired, hfires, ?_⟩
  simp only [select, hs, hsolved, find?_reducible hcan, hrank, hfire]
  rfl

/-- Where another answer fits, it is given, and nothing changes. -/
theorem select_of_answers {status : MoveStatus} (h : Answers s i status)
    (hne : status ≠ .applied) : s.select i = (⟨status, none⟩, s) := by
  cases status with
  | applied => exact absurd rfl hne
  | orderViolation =>
    obtain ⟨⟨c, hc, rfl⟩, hnot⟩ := h
    have hs := substituted_of_mem_reducible hc
    have hsolved : s.isSolved ≠ true := by
      intro h
      rw [reducible_of_isSolved h] at hc
      exact absurd hc List.not_mem_nil
    have hrank : c.rank < topRank s.reducible := Decidable.of_not_not fun hrank =>
      hnot ⟨c, mem_legalMoves_iff_rank.2 ⟨hc, hrank⟩, rfl⟩
    simp only [select, hs, hsolved, find?_reducible hc, hrank]
    rfl
  | notReducible =>
    obtain ⟨hs, hsolved, hnot⟩ := h
    have hfind : s.reducible.find? (fun c => (c.index : Int) == i) = none :=
      List.find?_eq_none.2 fun c hc he => hnot ⟨c, hc, beq_iff_eq.1 he⟩
    simp only [select, hs, hsolved, hfind]
    rfl
  | notReady =>
    have hs : s.substituted = false := h
    simp only [select, hs]
    rfl
  | solved =>
    have hsolved : s.isSolved = true := h
    have hs := (isSolved_eq_true_iff.1 hsolved).1
    simp only [select, hs, hsolved]
    rfl

theorem status_of_answers {status : MoveStatus} (h : Answers s i status) :
    (s.select i).1.status = status := by
  by_cases happlied : status = .applied
  · subst happlied
    obtain ⟨c, hc, rfl⟩ := h
    obtain ⟨fired, -, heq⟩ := select_of_mem hc
    rw [heq]
  · rw [select_of_answers h happlied]

/-- The answer that is given is the one that fits. -/
theorem status_select_iff {status : MoveStatus} :
    (s.select i).1.status = status ↔ Answers s i status := by
  constructor
  · rintro rfl
    obtain ⟨status, h⟩ := exists_answers s i
    rwa [status_of_answers h]
  · exact status_of_answers

variable (s i)

/-- A move is accepted if a legal one stands at the index, and appends the state that it
leads to; otherwise nothing changes. -/
theorem select_cases :
    (∃ c ∈ s.legalMoves, (c.index : Int) = i ∧ (s.select i).1.accepted = true ∧
        ∃ next, Fires s.tokens c.index c.op next ∧
          (s.select i).2 = s.append .reduction (collapse next)) ∨
      ((∀ c ∈ s.legalMoves, (c.index : Int) ≠ i) ∧ (s.select i).1.accepted = false ∧
        (s.select i).2 = s) := by
  by_cases hlegal : ∃ c ∈ s.legalMoves, (c.index : Int) = i
  · obtain ⟨c, hc, rfl⟩ := hlegal
    obtain ⟨fired, hfires, heq⟩ := select_of_mem hc
    exact .inl ⟨c, hc, rfl, by rw [heq]; rfl, fired, hfires, by rw [heq]⟩
  · have hne : (s.select i).1.status ≠ .applied := fun h => hlegal (status_select_iff.1 h)
    refine .inr ⟨fun c hc hi => hlegal ⟨c, hc, hi⟩, beq_eq_false_iff_ne.2 hne, ?_⟩
    rw [select_of_answers (status_select_iff.1 rfl) hne]

theorem accepted_select_iff :
    (s.select i).1.accepted = true ↔ ∃ c ∈ s.legalMoves, (c.index : Int) = i := by
  rw [MoveResult.accepted, beq_iff_eq]
  exact status_select_iff

variable {s}

theorem substituted_select (hs : s.substituted = true) : (s.select i).2.substituted = true := by
  rcases select_cases s i with ⟨_, -, -, -, _, -, heq⟩ | ⟨-, -, heq⟩
  · rw [heq]
    exact substituted_eq_true_iff.2 (by simp [Session.append])
  · rwa [heq]

end

/-! ### Solving -/

/-- The session that solving plays: after substitution. -/
def ready (s : Session) : Session := if s.substituted then s else s.substitute.2

/-- Substitution is never refused at the start. -/
theorem substituted_ready {s : Session} (h : s.substituted = false → s.past = []) :
    s.ready.substituted = true := by
  unfold ready
  split
  · next hs => exact hs
  · next hs =>
    rcases substitute_cases s with ⟨-, -, heq⟩ | ⟨hpast | hsub, -⟩
    · rw [heq]
      exact substituted_eq_true_iff.2 (by simp [Session.append])
    · exact absurd (h (Bool.eq_false_iff.2 hs)) hpast
    · exact absurd hsub hs

/-- What every selection keeps is kept by playing. -/
theorem play_induction {P : Session → Prop} (hselect : ∀ s i, P s → P (s.select i).2) (fuel : Nat)
    {s : Session} (hs : P s) : P (play fuel s) := by
  induction fuel generalizing s with
  | zero => exact hs
  | succ fuel ih =>
    rw [play]
    split
    · exact hs
    · split
      · exact hs
      · exact ih (hselect s _ hs)

/-- A move makes the list shorter. -/
theorem length_tokens_select_lt {s : Session} {c : Candidate} (hc : c ∈ s.legalMoves) :
    (s.select c.index).2.tokens.length < s.tokens.length := by
  obtain ⟨fired, hfires, heq⟩ := select_of_mem hc
  have hlt := length_fireAt?_lt (fireAt?_of_fires hfires)
  have hle := length_collapse_le fired
  rw [heq]
  exact Nat.lt_of_le_of_lt hle hlt

/-- Playing has a turn for every move that can be made. -/
theorem play_stops {fuel : Nat} {s : Session} (hfuel : s.tokens.length ≤ fuel) :
    (play fuel s).isSolved = true ∨ (play fuel s).legalMoves = [] := by
  induction fuel generalizing s with
  | zero =>
    refine .inr (List.eq_nil_iff_forall_not_mem.2 fun c hc => ?_)
    have hlt : _ < s.tokens.length := length_tokens_select_lt hc
    omega
  | succ fuel ih =>
    rw [play]
    split
    · next hsolved => exact .inl hsolved
    · split
      · next hnil => exact .inr hnil
      · next c rest hlegal =>
        have hlt := length_tokens_select_lt (s := s) (hlegal ▸ List.mem_cons_self)
        exact ih (by omega)

/-- What is substituted stays so. -/
theorem substituted_solve {s : Session} (h : s.ready.substituted = true) :
    s.solve.2.substituted = true :=
  play_induction (P := fun s => s.substituted = true) (fun _ i hs => substituted_select i hs) _ h

/-- Solving goes on to the end, or to where nothing can be selected. -/
theorem solve_stops (s : Session) : s.solve.2.isSolved = true ∨ s.solve.2.legalMoves = [] :=
  play_stops (Nat.le_refl s.ready.tokens.length)

end LogicTrainer.Reduction.Session
