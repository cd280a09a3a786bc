import Mathlib.Data.List.Chain
import LogicTrainer.Proofs.Reduction.Collapsing

/-! Sweeping until nothing changes.

Another way to collapse a list is to sweep over it from left to right, again and again. One sweep
takes the parentheses of several bits away, but not those of a bit that a parenthesis behind it has
freed only in the same sweep: `( ( 1 ) )` takes two. A sweep that changes something is made of
single removals and makes the list shorter by two at least; one that changes nothing has found
nothing to take away. So sweeping comes to an end, and where every order of single removals does
(`sweepAll_eq_collapse`).

The main statement is `sweeping_finds_the_normal_form`. -/
namespace LogicTrainer.Reduction

/-! ### One sweep -/

/-- One sweep from left to right: the parentheses around a bit go away, and the sweep goes on behind
them. Told with the list is whether any went away. -/
def sweep : List Token → List Token × Bool
  | .lparen :: .bit b :: .rparen :: rest => (.bit b :: (sweep rest).1, true)
  | t :: rest => (t :: (sweep rest).1, (sweep rest).2)
  | [] => ([], false)

/-- A sweep takes away the parentheses of one bit after another. -/
theorem reaches_sweep (ts : List Token) : Relation.ReflTransGen Collapses ts (sweep ts).1 := by
  fun_induction sweep ts with
  | case1 b rest ih =>
    refine .head (.here [] rest b) ?_
    exact ih.lift (.bit b :: ·) fun _ _ h => h.cons (.bit b)
  | case2 t rest _ ih => exact ih.lift (t :: ·) fun _ _ h => h.cons t
  | case3 => exact .refl

theorem length_sweep_le (ts : List Token) : (sweep ts).1.length ≤ ts.length := by
  fun_induction sweep ts with
  | case1 b rest ih =>
    simp only [List.length_cons]
    omega
  | case2 t rest _ ih =>
    simp only [List.length_cons]
    omega
  | case3 => exact Nat.le_refl 0

/-- A sweep that changes something takes two parentheses away at least. -/
theorem length_sweep_of_changed {ts : List Token} (h : (sweep ts).2 = true) :
    (sweep ts).1.length + 2 ≤ ts.length := by
  fun_induction sweep ts with
  | case1 b rest ih =>
    have := length_sweep_le rest
    simp only [List.length_cons]
    omega
  | case2 t rest _ ih =>
    have := ih h
    simp only [List.length_cons]
    omega
  | case3 => cases h

/-- A sweep that changes nothing leaves a list in which nothing is to be collapsed. -/
theorem sweep_of_unchanged {ts : List Token} (h : (sweep ts).2 = false) :
    (sweep ts).1 = ts ∧ isCollapsed ts = true := by
  fun_induction sweep ts with
  | case1 => cases h
  | case2 t rest hno ih =>
    obtain ⟨hsame, hcollapsed⟩ := ih h
    refine ⟨congrArg (t :: ·) hsame, ?_⟩
    rw [isCollapsed.eq_def]
    split
    · rfl
    · next b after heq =>
      cases heq
      exact absurd rfl (hno b after rfl)
    · next heq =>
      cases heq
      exact hcollapsed
  | case3 => exact ⟨rfl, rfl⟩

/-! ### Sweeps until nothing changes -/

/-- Sweeps over a list until a sweep changes nothing. -/
def sweepAll (ts : List Token) : List Token :=
  if (sweep ts).2 = true then sweepAll (sweep ts).1 else (sweep ts).1
termination_by ts.length
decreasing_by
  have := length_sweep_of_changed ‹_›
  omega

/-- The list after a number of sweeps. -/
def sweeps : Nat → List Token → List Token
  | 0, ts => ts
  | n + 1, ts => sweeps n (sweep ts).1

/-- Every sweep but the last changes something, and the last leaves the list as it is. -/
theorem exists_last_sweep (ts : List Token) : ∃ n, 2 * n ≤ ts.length ∧
    (∀ k < n, (sweep (sweeps k ts)).2 = true) ∧ (sweep (sweeps n ts)).2 = false ∧
      sweepAll ts = sweeps n ts := by
  fun_induction sweepAll ts with
  | case1 ts hchanged ih =>
    obtain ⟨n, hn, hbefore, hlast, hall⟩ := ih
    have := length_sweep_of_changed hchanged
    refine ⟨n + 1, by omega, fun k hk => ?_, hlast, hall⟩
    cases k with
    | zero => exact hchanged
    | succ k => exact hbefore k (Nat.lt_of_succ_lt_succ hk)
  | case2 ts hsame =>
    have hsame : (sweep ts).2 = false := Bool.eq_false_iff.2 hsame
    exact ⟨0, Nat.zero_le _, fun k hk => absurd hk (Nat.not_lt_zero k), hsame,
      (sweep_of_unchanged hsame).1⟩

theorem reaches_sweepAll (ts : List Token) : Relation.ReflTransGen Collapses ts (sweepAll ts) := by
  fun_induction sweepAll ts with
  | case1 ts _ ih => exact (reaches_sweep ts).trans ih
  | case2 ts _ => exact reaches_sweep ts

/-- Sweeping comes to what one pass from the right comes to. -/
theorem sweepAll_eq_collapse (ts : List Token) : sweepAll ts = collapse ts := by
  obtain ⟨n, -, -, hlast, hall⟩ := exists_last_sweep ts
  have hcollapsed : isCollapsed (sweepAll ts) = true := hall ▸ (sweep_of_unchanged hlast).2
  exact eq_collapse_iff.2 ⟨reaches_sweepAll ts, isCollapsed_iff.1 hcollapsed⟩

/-! ### Any order -/

/-- A list in which no bit stands alone between parentheses. -/
theorem isCollapsed_iff_not_isInfix {ts : List Token} :
    isCollapsed ts = true ↔ ∀ b, ¬ [.lparen, .bit b, .rparen] <:+: ts := by
  rw [isCollapsed_iff]
  constructor
  · rintro h b ⟨before, after, rfl⟩
    refine h (before ++ .bit b :: after) ?_
    rw [List.append_assoc]
    exact .here before after b
  · rintro h next ⟨before, after, b⟩
    exact h b ⟨before, after, by simp⟩

/-- Removals come to an end in any order. -/
theorem length_le_of_isChain {ts : List Token} {run : List (List Token)}
    (h : (ts :: run).IsChain Collapses) : 2 * run.length ≤ ts.length := by
  induction run generalizing ts with
  | nil => exact Nat.zero_le _
  | cons next run ih =>
    obtain ⟨hstep, hrest⟩ := List.isChain_cons_cons.1 h
    have hlen := hstep.length_eq
    have := ih hrest
    rw [List.length_cons]
    omega

/-- Whatever was taken away first, the pass from the right is still reached. -/
theorem reaches_collapse_of_reaches {ts next : List Token}
    (h : Relation.ReflTransGen Collapses ts next) :
    Relation.ReflTransGen Collapses next (collapse ts) := by
  rw [collapse_eq_of_reaches h]
  exact reaches_collapse next

/-- Sweeps over any list come to an end, and no more of them change something than half the length
of the list. In what is left no bit stands alone between parentheses, and taking such parentheses
away one pair at a time ends with the same list, in any order. -/
theorem sweeping_finds_the_normal_form (ts : List Token) :
    (∃ n, 2 * n ≤ ts.length ∧ (∀ k < n, (sweep (sweeps k ts)).2 = true) ∧
      (sweep (sweeps n ts)).2 = false ∧ sweepAll ts = sweeps n ts) ∧
    sweepAll ts = collapse ts ∧
    (∀ b, ¬ [.lparen, .bit b, .rparen] <:+: sweepAll ts) ∧
    Relation.ReflTransGen Collapses ts (sweepAll ts) ∧
    (∀ run, (ts :: run).IsChain Collapses → 2 * run.length ≤ ts.length) ∧
    (∀ next, Relation.ReflTransGen Collapses ts next →
      Relation.ReflTransGen Collapses next (sweepAll ts) ∧
      ((∀ after, ¬ Collapses next after) → next = sweepAll ts)) ∧
    sweepAll (sweepAll ts) = sweepAll ts := by
  have hcollapsed := isCollapsed_collapse ts
  have hall := sweepAll_eq_collapse ts
  refine ⟨exists_last_sweep ts, hall, ?_, reaches_sweepAll ts, fun run => length_le_of_isChain,
    fun next hreach => ⟨?_, fun hend => ?_⟩, ?_⟩
  · rw [hall]
    exact isCollapsed_iff_not_isInfix.1 hcollapsed
  · rw [hall]
    exact reaches_collapse_of_reaches hreach
  · rw [hall]
    exact eq_collapse_iff.2 ⟨hreach, hend⟩
  · rw [hall, sweepAll_eq_collapse, collapse_eq_self hcollapsed]

/-- Two pairs around one bit, one around another, and a parenthesis too many: where the pair at the
end is taken away first, the list of the sweeps is reached after three removals. -/
theorem sweeping_finds_the_normal_form_unbalanced :
    let ts : List Token := [.lparen, .lparen, .bit true, .rparen, .rparen, .rparen, .lparen,
      .bit false, .rparen]
    let first := [.lparen, .lparen, .bit true, .rparen, .rparen, .rparen, .bit false]
    let second := [.lparen, .bit true, .rparen, .rparen, .bit false]
    let third := [.bit true, .rparen, .bit false]
    (ts :: [first, second, third]).IsChain Collapses ∧ 2 * 3 ≤ ts.length ∧
      (∀ after, ¬ Collapses third after) ∧ third = sweepAll ts ∧
      ¬ [.lparen, .bit true, .rparen] <:+: sweepAll ts := by
  intro ts first second third
  have h₁ : Collapses ts first :=
    .here [.lparen, .lparen, .bit true, .rparen, .rparen, .rparen] [] false
  have h₂ : Collapses first second := .here [.lparen] [.rparen, .rparen, .bit false] true
  have h₃ : Collapses second third := .here [] [.rparen, .bit false] true
  have hchain : (ts :: [first, second, third]).IsChain Collapses :=
    .cons_cons h₁ (.cons_cons h₂ (.cons_cons h₃ (.singleton third)))
  have hend : ∀ after, ¬ Collapses third after := isCollapsed_iff.1 rfl
  obtain ⟨-, -, hnone, -, hshort, horder, -⟩ := sweeping_finds_the_normal_form ts
  have hreach : Relation.ReflTransGen Collapses ts third := .tail (.tail (.single h₁) h₂) h₃
  exact ⟨hchain, hshort _ hchain, hend, (horder third hreach).2 hend, hnone true⟩

end LogicTrainer.Reduction
