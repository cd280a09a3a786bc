import LogicTrainer.Proofs.Reduction.History
import LogicTrainer.Proofs.Reduction.Session

/-! What a session depends on.

An assignment is read in one place only, when words are replaced by bits. So a session to which
another assignment is given does all it did before (`select_reassign`, `play_reassign`), as long
as the replacing gives the same list; and after that the assignment is not looked at again
(`Indifferent`). One call then answers the same and leads to the same states
(`Indifferent.answer`, `Indifferent.perform`), and so does every list of calls. For a formula the
list is the same if its variables have the same values, and these are the names to which a value
can be given at all: a literal is none of them, in either case.

The main statement is `only_variables_matter`. -/
namespace LogicTrainer.Reduction.Session
open Formula

/-! ### Answers -/

/-- What a call answers. -/
inductive Answer where
  | substituted (step : Option Step)
  | selected (result : MoveResult)
  | solved (value : Option Bool)
  deriving DecidableEq, Repr

/-- What a session answers to a call. -/
def answer (s : Session) : Action → Answer
  | .substitute => .substituted s.substitute.1
  | .select index => .selected (s.select index).1
  | .solve => .solved s.solve.1

/-- What a session answers to a list of calls, one after the other. -/
def answers (s : Session) : List Action → List Answer
  | [] => []
  | action :: rest => s.answer action :: (s.perform action).answers rest

/-! ### Another assignment -/

/-- The session with another assignment. -/
def reassign (s : Session) (a : Assignment) : Session := {s with assignment := a}

section
variable (s : Session) (a : Assignment)

@[simp] theorem past_reassign : (s.reassign a).past = s.past := rfl

@[simp] theorem history_reassign : (s.reassign a).history = s.history := rfl

@[simp] theorem substituted_reassign : (s.reassign a).substituted = s.substituted := rfl

@[simp] theorem isSolved_reassign : (s.reassign a).isSolved = s.isSolved := rfl

@[simp] theorem legalMoves_reassign : (s.reassign a).legalMoves = s.legalMoves := rfl

@[simp] theorem result_reassign : (s.reassign a).result = s.result := rfl

/-- A selection does not read the assignment. -/
theorem select_reassign (i : Int) :
    (s.reassign a).select i = ((s.select i).1, (s.select i).2.reassign a) := by
  obtain ⟨status, h⟩ := exists_answers s i
  by_cases hstatus : status = .applied
  · subst hstatus
    obtain ⟨c, hc, rfl⟩ := h
    obtain ⟨fired, hfires, heq⟩ := select_of_mem hc
    obtain ⟨fired', hfires', heq'⟩ := select_of_mem (s := s.reassign a) hc
    obtain rfl : fired = fired' := Option.some.inj
      ((fireAt?_of_fires hfires).symm.trans (fireAt?_of_fires hfires'))
    rw [heq, heq']
    rfl
  · have h' : Answers (s.reassign a) i status := by cases status <;> exact h
    rw [select_of_answers h hstatus, select_of_answers h' hstatus]

/-- Nor does playing. -/
theorem play_reassign (fuel : Nat) : play fuel (s.reassign a) = (play fuel s).reassign a := by
  induction fuel generalizing s with
  | zero => rfl
  | succ fuel ih =>
    rw [play, play, isSolved_reassign, legalMoves_reassign]
    split
    · rfl
    · split
      · rfl
      · rw [select_reassign]
        exact ih _

end

/-- Substituting gives the same list under another assignment, or has been done. -/
def Indifferent (s : Session) (a : Assignment) : Prop :=
  s.substituted = false →
    substituteLoose a.loosen s.tokens = substituteLoose s.assignment.loosen s.tokens

namespace Indifferent
variable {s : Session} {a : Assignment}

theorem substitute (h : Indifferent s a) :
    (s.reassign a).substitute = (s.substitute.1, s.substitute.2.reassign a) := by
  rw [Session.substitute, Session.substitute, past_reassign, substituted_reassign]
  split
  · next hstart =>
    rw [Bool.and_eq_true, Bool.not_eq_true'] at hstart
    show (some ((s.append .substituted (collapse (substituteLoose a.loosen s.tokens))).current),
      (s.append .substituted (collapse (substituteLoose a.loosen s.tokens))).reassign a) = _
    rw [h hstart.2]
  · rfl

theorem ready (h : Indifferent s a) : (s.reassign a).ready = s.ready.reassign a := by
  rw [Session.ready, Session.ready, substituted_reassign, h.substitute]
  split <;> rfl

theorem solve (h : Indifferent s a) :
    (s.reassign a).solve = (s.solve.1, s.solve.2.reassign a) := by
  have hplay : (s.reassign a).solve.2 = s.solve.2.reassign a := by
    show play (s.reassign a).ready.tokens.length (s.reassign a).ready = _
    rw [h.ready]
    exact play_reassign s.ready a _
  refine Prod.ext ?_ hplay
  show (s.reassign a).solve.2.result = s.solve.2.result
  rw [hplay, result_reassign]

theorem answer (h : Indifferent s a) (action : Action) :
    (s.reassign a).answer action = s.answer action := by
  cases action with
  | substitute => exact congrArg (fun r => Answer.substituted r.1) h.substitute
  | select i => exact congrArg (fun r => Answer.selected r.1) (select_reassign s a i)
  | solve => exact congrArg (fun r => Answer.solved r.1) h.solve

theorem perform (h : Indifferent s a) (action : Action) :
    (s.reassign a).perform action = (s.perform action).reassign a := by
  cases action with
  | substitute => exact congrArg Prod.snd h.substitute
  | select i => exact congrArg Prod.snd (select_reassign s a i)
  | solve => exact congrArg Prod.snd h.solve

end Indifferent

/-- What a session becomes is substituted, or the session itself. -/
theorem Reaches.eq_or_substituted {s s' : Session} (h : Reaches s s') :
    s' = s ∨ s'.substituted = true := by
  cases h with
  | refl => exact .inl rfl
  | tail _ hstep => cases hstep <;> exact .inr rfl

/-- After a call another assignment makes no difference either. -/
theorem Indifferent.step {s : Session} {a : Assignment} (h : Indifferent s a) (action : Action) :
    Indifferent (s.perform action) a := by
  rcases (reaches_perform s action).eq_or_substituted with hsame | hs
  · rwa [hsame]
  · exact fun hne => absurd (hs.symm.trans hne) (by decide)

/-- Another assignment makes no difference in any run. -/
theorem Indifferent.run {s : Session} {a : Assignment} (h : Indifferent s a)
    (actions : List Action) : (s.reassign a).answers actions = s.answers actions ∧
      (s.reassign a).run actions = (s.run actions).reassign a := by
  induction actions generalizing s with
  | nil => exact ⟨rfl, rfl⟩
  | cons action actions ih =>
    obtain ⟨hanswers, hrun⟩ := ih (h.step action)
    rw [answers, answers, h.answer, h.perform, hanswers]
    refine ⟨rfl, ?_⟩
    show ((s.reassign a).perform action).run actions = _
    rw [h.perform, hrun]
    rfl

/-! ### The variables of a formula -/

/-- The ground formula depends on the variables alone. -/
theorem ground_congr {f : Formula} (h : f.IsProper) {values values' : Text → Bool}
    (hv : ∀ v ∈ f.atoms, values v = values' v) : f.ground values = f.ground values' := by
  have hleaf : ∀ name ∈ f.leaves, atomValue values name = atomValue values' name :=
    atomValue_congr_of_mem h hv
  clear h hv
  induction f with
  | atom name => rw [ground, ground, hleaf name (List.mem_singleton.2 rfl)]
  | neg f ih => rw [ground, ground, ih hleaf]
  | binary op f g ihf ihg =>
    rw [ground, ground, ihf fun name hn => hleaf name (List.mem_append_left _ hn),
      ihg fun name hn => hleaf name (List.mem_append_right _ hn)]

/-- Two assignments make no difference to a formula, read and evaluated or reduced in a session:
it has the same value, and every list of calls has the same answers and the same history. -/
structure SameRuns (maxDepth : Int) (formula : Text) (loose other : Entries Json) : Prop where
  value : evaluateText maxDepth formula loose = evaluateText maxDepth formula other
  answers : ∀ actions, (start formula loose maxDepth).answers actions =
    (start formula other maxDepth).answers actions
  history : ∀ actions, ((start formula loose maxDepth).run actions).history =
    ((start formula other maxDepth).run actions).history

/-- Assignments that agree on the variables make no difference. -/
theorem sameRuns_of_agree {f : Formula} {formula : Text} {maxDepth : Int}
    (hf : Formula.ofText maxDepth formula = .ok f) {loose other : Entries Json}
    (h : ∀ v ∈ Token.variables (Token.ofFormula formula),
      (Assignment.normalize loose).value v = (Assignment.normalize other).value v) :
    SameRuns maxDepth formula loose other := by
  have hs := (parse_eq_ok_iff.1 hf).1
  have hground : f.ground (Assignment.normalize loose).value =
      f.ground (Assignment.normalize other).value :=
    ground_congr hs.isProper fun v hv => h v (hs.mem_variables_iff.2 hv)
  have hsame : Indifferent (start formula other maxDepth) (Assignment.normalize loose) := by
    intro _
    rw [start_eq other hf]
    show substituteLoose _ f.tokens = substituteLoose (Assignment.normalize other).loosen f.tokens
    rw [substituteLoose, substituteLoose, Assignment.normalize_loosen_normalize,
      Assignment.normalize_loosen_normalize, substitute_tokens _ hs.isProper,
      substitute_tokens _ hs.isProper, hground]
  have hstart : start formula loose maxDepth =
      (start formula other maxDepth).reassign (Assignment.normalize loose) := rfl
  refine ⟨?_, fun actions => ?_, fun actions => ?_⟩
  · rw [evaluateText_of_ofText hf, evaluateText_of_ofText hf]
    exact value_eq_of_ofText hf h
  · rw [hstart, (hsame.run actions).1]
  · rw [hstart, (hsame.run actions).2, history_reassign]

/-- A literal is no variable. -/
theorem not_mem_variables_of_literal {ts : List Token} {name : Text}
    (h : Atom.isLiteralName name.upper = true) : name.upper ∉ Token.variables ts := by
  intro hmem
  have hvar := (Token.mem_variables_iff.1 hmem).1
  rw [Atom.variables, List.mem_filter, h] at hvar
  exact absurd hvar.2 (by decide)

/-- Assignments that give the same values to the variables of a formula make no difference to it. So
assigning to another name changes nothing, and a literal always is another name. -/
theorem only_variables_matter {f : Formula} {formula : Text} {maxDepth : Int}
    (hf : Formula.ofText maxDepth formula = .ok f) :
    let names := Token.variables (Token.ofFormula formula)
    (∀ loose other : Entries Json, (∀ v ∈ names,
        (Assignment.normalize loose).value v = (Assignment.normalize other).value v) →
      SameRuns maxDepth formula loose other) ∧
    (∀ (loose : Entries Json) (name : Text) (x : Json), name.upper ∉ names →
      SameRuns maxDepth formula (Entries.insert name x loose) loose) ∧
    (∀ name : Text, Atom.isLiteralName name.upper = true → name.upper ∉ names) := by
  intro names
  refine ⟨fun loose other => sameRuns_of_agree hf, fun loose name x hname => ?_,
    fun name => not_mem_variables_of_literal⟩
  refine sameRuns_of_agree hf fun v hv => Assignment.value_normalize_insert ?_ x loose
  rintro rfl
  exact hname hv

/-- The literal is not assigned to, in either case, nor is a letter that does not occur; a word
and a truth value for the one variable come to the same. -/
theorem only_variables_matter_literals :
    let loose : Entries Json := [(['p'], .str ['t', 'r', 'u', 'e']), (['T'], .bool false),
      (['q'], .int 1)]
    let other : Entries Json := [(['P'], .bool true)]
    SameRuns 2 "p & ~T".toList loose other ∧
      SameRuns 2 "p & ~T".toList (Entries.insert ['t'] (.bool false) other) other := by
  intro loose other
  have hf : Formula.ofText 2 "p & ~T".toList =
      .ok (binary .and (atom ['p']) (neg (atom ['T']))) := by cbv
  have hnames : Token.variables (Token.ofFormula "p & ~T".toList) = [['P']] := by cbv
  obtain ⟨hagree, hinsert, hliteral⟩ := only_variables_matter hf
  refine ⟨hagree loose other fun v hv => ?_,
    hinsert other ['t'] (.bool false) (hliteral _ (by decide))⟩
  rw [hnames, List.mem_singleton] at hv
  subst hv
  decide

end LogicTrainer.Reduction.Session
