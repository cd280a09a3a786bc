import LogicTrainer.Proofs.Formula.Variables
import LogicTrainer.Proofs.Reduction.Contraction
import LogicTrainer.Proofs.Reduction.Calls

/-! Every run of a session reduces its formula.

Whatever is called, and in whatever order, a session only appends states (`select_cases`,
`substitute_cases`), and each state it appends shows a ground formula of the right value
with one operator less (`Reduces`). So a run is never stuck before its end, cannot go on
beyond it, and ends with the value of the formula, whichever legal moves were chosen.

The main statement is `every_run_reduces`. -/
namespace LogicTrainer.Reduction.Session
open Token Formula

/-- How many moves were accepted so far. -/
def moves (s : Session) : Nat := s.history.countP fun step => step.kind == .reduction

/-- Whether nothing that may be called changes the session. -/
def IsFinal (s : Session) : Prop := ∀ a : Action, s.perform a = s

/-! ### Counting moves -/

theorem moves_append (s : Session) (kind : StepKind) (ts : List Token) :
    (s.append kind ts).moves = s.moves + if kind = .reduction then 1 else 0 := by
  rw [moves, history_append, List.countP_append, ← moves, List.countP_singleton]
  simp only [beq_iff_eq]

/-- A selection counts as a move if it is accepted. -/
theorem moves_select (s : Session) (i : Int) :
    (s.select i).2.moves = s.moves + if (s.select i).1.accepted then 1 else 0 := by
  rcases select_cases s i with ⟨_, -, -, haccepted, _, -, heq⟩ | ⟨-, haccepted, heq⟩
  · rw [haccepted, heq, moves_append]
    rfl
  · rw [haccepted, heq]
    rfl

theorem moves_select_of_mem {s : Session} {c : Candidate} (hc : c ∈ s.legalMoves) :
    (s.select c.index).2.moves = s.moves + 1 := by
  rw [moves_select, if_pos ((accepted_select_iff s c.index).2 ⟨c, hc, rfl⟩)]

/-! ### The invariant -/

/-- What a state of a session for `f` shows: `f` itself at the start, and later a ground
formula of the same value that is no deeper. -/
structure Shows (f : Formula) (values : Text → Bool) (step : Step) (g : Formula) : Prop where
  tokens : step.tokens = g.tokens
  proper : g.IsProper
  value : g.value values = f.value values
  depth : g.depth ≤ f.depth
  opening : step.kind = .formula → g = f
  ground : step.kind ≠ .formula → g.IsGround

/-- The session reduces `f` under `a`: its states show `f` on the way to its value, and an
operator is gone for each move. -/
structure Reduces (f : Formula) (a : Assignment) (s : Session) : Prop where
  assignment : s.assignment = a
  shows : ∀ step ∈ s.history, ∃ g, Shows f a.value step g
  opening : s.substituted = false → s.past = []
  count : Token.connectives s.tokens + s.moves = f.connectives

section
variable {f : Formula} {a : Assignment} {s : Session}

/-- Once substituted, the tokens are those of a ground formula. -/
theorem Reduces.exists_ground (h : Reduces f a s) (hs : s.substituted = true) :
    ∃ g : Formula, g.IsGround ∧ s.tokens = g.tokens ∧ g.value a.value = f.value a.value ∧
      g.depth ≤ f.depth ∧ g.connectives + s.moves = f.connectives := by
  obtain ⟨g, hg⟩ := h.shows s.current (List.mem_append_right _ (List.mem_singleton.2 rfl))
  have hground := hg.ground (substituted_eq_true_iff.1 hs)
  have hcount := h.count
  have htokens : s.tokens = g.tokens := hg.tokens
  rw [htokens, connectives_tokens hg.proper] at hcount
  exact ⟨g, hground, htokens, hg.value, hg.depth, hcount⟩

/-- Appending a ground formula of the right value and the right number of operators. -/
theorem Reduces.append (h : Reduces f a s) {kind : StepKind} (hkind : kind ≠ .formula)
    {g : Formula} (hg : g.IsGround) (hvalue : g.value a.value = f.value a.value)
    (hdepth : g.depth ≤ f.depth)
    (hcount : g.connectives + (s.moves + if kind = .reduction then 1 else 0) = f.connectives) :
    Reduces f a (s.append kind g.tokens) where
  assignment := h.assignment
  shows := by
    intro step hstep
    rcases List.mem_append.1 hstep with hstep | hstep
    · exact h.shows step hstep
    · rw [List.mem_singleton.1 hstep]
      exact ⟨g, rfl, hg.isProper, hvalue, hdepth, fun hk => absurd hk hkind, fun _ => hg⟩
  opening := by
    intro hs
    have hk : (s.append kind g.tokens).substituted = true := substituted_eq_true_iff.2 hkind
    rw [hk] at hs
    cases hs
  count := by
    rw [moves_append]
    show Token.connectives g.tokens + _ = _
    rw [connectives_tokens hg.isProper, hcount]

theorem Reduces.substitute (ha : a.IsNormal) (h : Reduces f a s) : Reduces f a s.substitute.2 := by
  rcases substitute_cases s with ⟨hpast, hs, heq⟩ | ⟨-, heq⟩
  · obtain ⟨g, hg⟩ := h.shows s.current (List.mem_append_right _ (List.mem_singleton.2 rfl))
    obtain rfl : g = f := hg.opening (substituted_eq_false_iff.1 hs)
    have htokens : s.tokens = g.tokens := hg.tokens
    have hcount := h.count
    rw [htokens, connectives_tokens hg.proper] at hcount
    have hground := isGround_ground a.value g
    have hnext : collapse (substituteLoose s.assignment.loosen s.tokens) =
        (g.ground a.value).tokens := by
      rw [h.assignment, substituteLoose, ha.normalize_loosen, htokens,
        substitute_tokens a.value hg.proper, collapse_tokens hground.isProper]
    rw [heq, hnext]
    refine h.append (by simp) hground (value_ground a.value g a.value) ?_ ?_
    · exact Nat.le_of_eq (depth_ground a.value g)
    · rw [connectives_ground, if_neg (by simp)]
      exact hcount
  · rwa [heq]

theorem Reduces.select (h : Reduces f a s) (i : Int) : Reduces f a (s.select i).2 := by
  rcases select_cases s i with ⟨c, hc, -, -, next, hfires, heq⟩ | ⟨-, -, heq⟩
  · obtain ⟨g, hg, htokens, hvalue, hdepth, hcount⟩ :=
      h.exists_ground (substituted_of_mem_legalMoves hc)
    rw [htokens] at hfires
    obtain ⟨k, hk, hnext⟩ := exists_contracts_of_fires hg hfires
    rw [heq, hnext]
    refine h.append (by simp) (hk.isGround hg) ((hk.value_eq a.value).trans hvalue)
      (Nat.le_trans hk.depth_le hdepth) ?_
    rw [hk.connectives_eq] at hcount
    rw [if_pos rfl]
    omega
  · rwa [heq]

theorem Reduces.ready (ha : a.IsNormal) (h : Reduces f a s) : Reduces f a s.ready := by
  unfold Session.ready
  split
  · exact h
  · exact h.substitute ha

theorem Reduces.solve (ha : a.IsNormal) (h : Reduces f a s) : Reduces f a s.solve.2 :=
  play_induction (fun _ i hs => hs.select i) _ (h.ready ha)

theorem Reduces.perform (ha : a.IsNormal) (h : Reduces f a s) (action : Action) :
    Reduces f a (s.perform action) := by
  cases action with
  | substitute => exact h.substitute ha
  | select i => exact h.select i
  | solve => exact h.solve ha

theorem Reduces.run (ha : a.IsNormal) (h : Reduces f a s) (actions : List Action) :
    Reduces f a (s.run actions) := by
  induction actions generalizing s with
  | nil => exact h
  | cons action actions ih => exact ih (h.perform ha action)

end

/-- A session of a formula that can be read starts from the strict form. -/
theorem start_eq {f : Formula} {formula : Text} {maxDepth : Int} (loose : Entries Json)
    (hf : Formula.ofText maxDepth formula = .ok f) : start formula loose maxDepth =
      ⟨formula, Assignment.normalize loose, [], ⟨0, .formula, f.tokens⟩⟩ := by
  rw [start, openingTokens, hf]
  show Session.mk _ _ _ ⟨0, .formula, ofFormula f.render⟩ = _
  rw [ofFormula_render (isProper_of_ofText hf).1]

theorem reduces_start {f : Formula} {formula : Text} {maxDepth : Int} (loose : Entries Json)
    (hf : Formula.ofText maxDepth formula = .ok f) :
    Reduces f (Assignment.normalize loose) (start formula loose maxDepth) := by
  have hp := (isProper_of_ofText hf).1
  rw [start_eq loose hf]
  refine ⟨rfl, fun step hstep => ?_, fun _ => rfl, connectives_tokens hp⟩
  rw [List.mem_singleton.1 hstep]
  exact ⟨f, rfl, hp, rfl, Nat.le_refl _, fun _ => rfl, fun hk => absurd rfl hk⟩

/-! ### The end of a run -/

theorem play_of_isSolved {s : Session} (h : s.isSolved = true) (fuel : Nat) : play fuel s = s := by
  cases fuel with
  | zero => rfl
  | succ fuel => rw [play, if_pos h]

/-- Nothing that is called changes a solved session. -/
theorem isFinal_of_isSolved {s : Session} (h : s.isSolved = true) : s.IsFinal := by
  have hs := (isSolved_eq_true_iff.1 h).1
  intro action
  cases action with
  | substitute =>
    rcases substitute_cases s with ⟨-, hne, -⟩ | ⟨-, heq⟩
    · rw [hs] at hne
      cases hne
    · exact heq
  | select i =>
    rcases select_cases s i with ⟨c, hc, -⟩ | ⟨-, -, heq⟩
    · rw [legalMoves_of_isSolved h] at hc
      exact absurd hc List.not_mem_nil
    · exact heq
  | solve =>
    show play s.ready.tokens.length s.ready = s
    rw [ready, if_pos hs]
    exact play_of_isSolved h _

section
variable {f : Formula} {a : Assignment} {s : Session}

/-- A session is solved when it has taken a move for each operator. -/
theorem Reduces.isSolved_iff (h : Reduces f a s) :
    s.isSolved = true ↔ s.substituted = true ∧ s.moves = f.connectives := by
  rw [isSolved_eq_true_iff]
  refine and_congr_right fun hs => ?_
  obtain ⟨g, hg, htokens, -, -, hcount⟩ := h.exists_ground hs
  rw [htokens]
  constructor
  · rintro ⟨b, hb⟩
    obtain ⟨rfl, -⟩ := hg.of_tokens_eq_cons hb
    rw [← hcount]
    exact (Nat.zero_add _).symm
  · intro hmoves
    obtain ⟨b, rfl⟩ := hg.eq_bit (by omega)
    exact ⟨b, by rw [Formula.tokens, ofText_bit]⟩

/-- A solved session shows the value of its formula. -/
theorem Reduces.tokens_eq (h : Reduces f a s) (hs : s.isSolved = true) :
    s.tokens = [.bit (f.value a.value)] := by
  obtain ⟨hsub, b, hb⟩ := isSolved_eq_true_iff.1 hs
  obtain ⟨g, hg, htokens, hvalue, -⟩ := h.exists_ground hsub
  obtain ⟨rfl, -⟩ := hg.of_tokens_eq_cons (htokens.symm.trans hb)
  rw [hb, ← hvalue, value_bit]

theorem Reduces.result_eq (h : Reduces f a s) (hs : s.isSolved = true) :
    s.result = some (f.value a.value) := by
  rw [result, hs, h.tokens_eq hs]

/-- As long as an operator is left there is a legal move. -/
theorem Reduces.legalMoves_ne_nil (h : Reduces f a s) (hs : s.substituted = true)
    (hmoves : s.moves < f.connectives) : s.legalMoves ≠ [] := by
  obtain ⟨g, hg, htokens, -, -, hcount⟩ := h.exists_ground hs
  obtain ⟨i, op, next, hfires⟩ := exists_fires hg (by omega)
  rw [← htokens] at hfires
  rw [legalMoves_of_substituted hs]
  exact legalMoves_ne_nil_of_fires hfires

/-- Without a legal move there is no operator left. -/
theorem Reduces.isSolved_of_legalMoves (h : Reduces f a s) (hs : s.substituted = true)
    (hnil : s.legalMoves = []) : s.isSolved = true := by
  have hcount := h.count
  refine h.isSolved_iff.2 ⟨hs, ?_⟩
  by_cases hmoves : s.moves < f.connectives
  · exact absurd hnil (h.legalMoves_ne_nil hs hmoves)
  · omega

/-- Only a solved session cannot go on. -/
theorem Reduces.isSolved_of_isFinal (h : Reduces f a s) (hfinal : s.IsFinal) :
    s.isSolved = true := by
  have hs : s.substituted = true := by
    have hready : s.ready = s := by
      unfold Session.ready
      split
      · rfl
      · exact hfinal .substitute
    rw [← hready]
    exact substituted_ready h.opening
  refine h.isSolved_of_legalMoves hs (List.eq_nil_iff_forall_not_mem.2 fun c hc => ?_)
  have hmore := moves_select_of_mem hc
  have hsame : (s.select c.index).2 = s := hfinal (.select c.index)
  rw [hsame] at hmore
  omega

/-- Solving does not stop before the end. -/
theorem Reduces.isSolved_solve (ha : a.IsNormal) (h : Reduces f a s) :
    s.solve.2.isSolved = true := by
  have hs := substituted_solve (substituted_ready h.opening)
  rcases solve_stops s with hsolved | hnil
  · exact hsolved
  · exact (h.solve ha).isSolved_of_legalMoves hs hnil

/-- Every state shows a formula that is read back and has the right value. -/
theorem Reduces.exists_content (h : Reduces f a s) {maxDepth : Int}
    (hdepth : (f.depth : Int) ≤ maxDepth) {step : Step} (hstep : step ∈ s.history) :
    ∃ g, step.content = g.render ∧ Formula.ofText maxDepth step.content = .ok g ∧
      (step.kind = .formula → g = f) ∧
      (step.kind ≠ .formula → ∀ values, g.value values = f.value a.value) := by
  obtain ⟨g, hg⟩ := h.shows step hstep
  have hcontent : step.content = g.render := by
    rw [Step.content, hg.tokens, line_tokens hg.proper]
  have hroom := Int.ofNat_le.2 hg.depth
  refine ⟨g, hcontent, ?_, hg.opening, fun hkind values => ?_⟩
  · rw [hcontent]
    exact ofText_render hg.proper (Int.le_trans hroom hdepth)
  · rw [(hg.ground hkind).value_eq values a.value, hg.value]

end

/-- Whatever has been called, each state is the strict form of a formula with the value of the first
one. Once substituted, every accepted move has taken one operator away, and the run is solved, with
the value, exactly where none is left. Solving gets there from every state. -/
theorem every_run_reduces {f : Formula} {formula : Text} {maxDepth : Int} (loose : Entries Json)
    (hf : Formula.ofText maxDepth formula = .ok f) (actions : List Action) :
    let s := (start formula loose maxDepth).run actions
    let v := Formula.evaluateText maxDepth formula loose
    (∀ step ∈ s.history, ∃ g, step.content = g.render ∧
      Formula.ofText maxDepth step.content = .ok g ∧
      if step.kind = .formula then
        Formula.evaluateText maxDepth step.content s.assignment.loosen = v
      else ∀ other, Formula.evaluateText maxDepth step.content other = v) ∧
    (∀ i, ((s.select i).1.accepted = true ↔ ∃ c ∈ s.legalMoves, (c.index : Int) = i) ∧
      (s.select i).2.moves = s.moves + if (s.select i).1.accepted then 1 else 0) ∧
    (s.substituted = true → Token.connectives s.tokens + s.moves = f.connectives ∧
      (s.moves < f.connectives → s.legalMoves ≠ [])) ∧
    (s.IsFinal ↔ s.isSolved = true) ∧
    (s.isSolved = true ↔ s.substituted = true ∧ s.moves = f.connectives) ∧
    (s.isSolved = true → s.result = some v) ∧
    s.solve.2.isSolved = true ∧ s.solve.1 = some v := by
  intro s v
  have ha := Assignment.isNormal_normalize loose
  have h : Reduces f (Assignment.normalize loose) s := (reduces_start loose hf).run ha actions
  have hv : v = f.value (Assignment.normalize loose).value := evaluateText_of_ofText hf loose
  refine ⟨fun step hstep => ?_, fun i => ⟨accepted_select_iff s i, moves_select s i⟩,
    fun hs => ⟨h.count, h.legalMoves_ne_nil hs⟩, ⟨h.isSolved_of_isFinal, isFinal_of_isSolved⟩,
    h.isSolved_iff, ?_, h.isSolved_solve ha, ?_⟩
  · obtain ⟨g, hcontent, hread, hopening, hlater⟩ :=
      h.exists_content (isProper_of_ofText hf).2 hstep
    refine ⟨g, hcontent, hread, ?_⟩
    split
    · next hkind =>
      rw [evaluateText_of_ofText hread, h.assignment, ha.normalize_loosen, hopening hkind, hv]
    · next hkind =>
      intro other
      rw [evaluateText_of_ofText hread, hlater hkind, hv]
  · intro hs
    rw [hv, h.result_eq hs]
  · show s.solve.2.result = some v
    rw [hv, (h.solve ha).result_eq (h.isSolved_solve ha)]

/-- A move before substitution and one out of order are turned down; the other three reduce
three operators. -/
theorem every_run_reduces_past_refusals :
    let s := (start "~p | q & T".toList [(['p'], .bool true), (['Q'], .bool false)] 2).run
      [.select 2, .substitute, .select 8, .select 2, .select 5, .select 2]
    s.IsFinal ∧ s.moves = 3 ∧ s.result = some false := by
  intro s
  have hf : Formula.ofText 2 "~p | q & T".toList =
      .ok (binary .or (neg (atom ['p'])) (binary .and (atom ['q']) (atom ['T']))) := by cbv
  have hsolved : s.isSolved = true := by
    show ((start _ _ _).run _).isSolved = true
    rw [start_eq _ hf]
    decide
  obtain ⟨-, -, -, hfinal, hmoves, hresult, -⟩ := every_run_reduces
    [(['p'], .bool true), (['Q'], .bool false)] hf
    [.select 2, .substitute, .select 8, .select 2, .select 5, .select 2]
  refine ⟨hfinal.2 hsolved, (hmoves.1 hsolved).2, ?_⟩
  rw [hresult hsolved]
  cbv

end LogicTrainer.Reduction.Session
