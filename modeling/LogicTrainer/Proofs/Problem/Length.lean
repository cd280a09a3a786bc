import LogicTrainer.Proofs.Problem.Depth
import LogicTrainer.Problem.Exercise

/-! The least length of a problem.

The last formula is drawn without early leaves, and is not measured. Without early leaves each level
adds four characters at least, those of a negation, so what comes in the end is long enough or has
four characters for each level and a name (`always_longEnough`). No more can be said: a source that
negates all the time draws nothing else, however often it is asked (`longEnough_negating`).

The main statement is `least_lengths_are_kept_iff`. -/
namespace LogicTrainer.Problem
open Draw

/-! ### What is always long enough -/

section
variable {σ : Type} (src : Source σ) {names : List Text} (hne : names ≠ [])
  (hnames : ∀ name ∈ names, name ≠ [])
include hne hnames

/-- Without early leaves there are four characters for each level, and a name. -/
theorem always_length_of_structuredWithin {leaf : Chance} (hleaf : leaf.num ≤ 0) (room : Nat)
    (depth : Int) :
    Always (structuredWithin src names leaf room depth) fun text => 4 * room + 1 ≤ text.length := by
  refine always_structuredWithin src hne (P := fun room text => 4 * room + 1 ≤ text.length)
    ?_ ?_ ?_ room depth
  · intro room hroom name hn
    obtain rfl := hroom hleaf
    exact List.length_pos_iff.2 (hnames name hn)
  · intro room inner h
    simp only [List.length_cons, List.length_append, List.length_nil]
    omega
  · intro room op left right hl hr
    simp only [List.length_cons, List.length_append, List.length_nil]
    omega

/-- What is drawn in the end has the least length, or that of a formula without early leaves. -/
theorem always_longEnough (maxDepth minLength : Int) (attempts : Nat) :
    Always (longEnough src maxDepth minLength names attempts) fun text =>
      min minLength (4 * max 0 maxDepth + 1) ≤ text.length := by
  induction attempts with
  | zero =>
    have hlast := always_length_of_structuredWithin src hne hnames
      (show noChance.num ≤ 0 by decide) (maxDepth - 0).toNat 0
    exact hlast.mono fun text h => by omega
  | succ attempts ih =>
    have hdrawn : Always (structured src maxDepth names 0 leafChance) fun _ => True :=
      (always_structuredWithin src hne (P := fun _ _ => True) (fun _ _ _ _ => trivial)
        (fun _ _ _ => trivial) (fun _ _ _ _ _ _ => trivial) _ 0)
    refine hdrawn.bind fun text _ => ?_
    split
    · next hlong => exact Always.pure (by omega)
    · exact ih

end

/-- Values are always drawn. -/
theorem always_valuesFor {σ : Type} (src : Source σ) (names : List Text) :
    Always (valuesFor src names) fun _ => True := by
  induction names with
  | nil => exact Always.pure trivial
  | cons name rest ih =>
    exact (always_happens src _).bind fun _ _ => ih.bind fun _ _ => Always.pure trivial

/-! ### A source that negates all the time -/

/-- A name under a number of negations. -/
def negated (name : Text) : Nat → Text
  | 0 => name
  | room + 1 => negationGlyph :: ' ' :: '(' :: negated name room ++ [')']

theorem length_negated (name : Text) (room : Nat) :
    (negated name room).length = 4 * room + name.length := by
  induction room with
  | zero => simp [negated]
  | succ room ih =>
    simp only [negated, List.length_cons, List.length_append, List.length_nil, ih]
    omega

/-- Rolls that are too high for an early leaf and low enough for a negation, and always the first
place. -/
def negating : Source Unit :=
  ⟨fun s => (⟨1, 4, by decide⟩, s), fun bound s => (⟨0, Nat.succ_pos bound⟩, s)⟩

section
variable {name : Text} {rest : List Text}

theorem structuredWithin_negating {leaf : Chance} (hleaf : negating.happens leaf () = .ok (false, ()))
    (room : Nat) (depth : Int) :
    structuredWithin negating (name :: rest) leaf room depth () = .ok (negated name room, ()) := by
  induction room generalizing depth with
  | zero => rfl
  | succ room ih =>
    have hearly : (if depth > 0 then negating.happens leaf else pure false) () = .ok (false, ()) := by
      split
      · exact hleaf
      · rfl
    have hnegation : negating.happens negationChance () = .ok (true, ()) := rfl
    rw [structuredWithin, bind_eq_of_eq_ok hearly, if_neg (by decide), bind_eq_of_eq_ok hnegation,
      if_pos rfl, bind_eq_of_eq_ok (ih _)]
    rfl

/-- Where negations alone are too short, every attempt is, and so is the last formula. -/
theorem longEnough_negating {maxDepth minLength : Int}
    (h : 4 * max 0 maxDepth + name.length < minLength) (attempts : Nat) :
    longEnough negating maxDepth minLength (name :: rest) attempts () =
      .ok (negated name maxDepth.toNat, ()) := by
  have hroom : (maxDepth - 0).toNat = maxDepth.toNat := by rw [Int.sub_zero]
  induction attempts with
  | zero => exact hroom ▸ structuredWithin_negating rfl _ _
  | succ attempts ih =>
    have hdrawn : structured negating maxDepth (name :: rest) 0 leafChance () =
        .ok (negated name maxDepth.toNat, ()) := hroom ▸ structuredWithin_negating rfl _ _
    have hlength := length_negated name maxDepth.toNat
    rw [longEnough, bind_eq_of_eq_ok hdrawn, if_neg (by omega), ih]

end

/-! ### Problems -/

section
variable {σ : Type} (src : Source σ) (bounds : Bounds)

theorem always_evaluation : Always (evaluation src bounds) fun p =>
    min bounds.evaluationMinLength (4 * max 0 bounds.evaluationMaxDepth + 1) ≤ p.formula.length := by
  have hformula := always_longEnough src (show Atom.variables ≠ [] by decide) (by decide)
    bounds.evaluationMaxDepth bounds.evaluationMinLength bounds.maxAttempts.toNat
  exact hformula.bind fun formula h => (always_valuesFor src _).bind fun _ _ => Always.pure h

end

/-- The source that negates all the time draws a formula to be reduced of negations alone, where
these are too short. -/
theorem exists_evaluation_negating {bounds : Bounds}
    (h : 4 * max 0 bounds.evaluationMaxDepth + 1 < bounds.evaluationMinLength) :
    ∃ p, evaluation negating bounds () = .ok (p, ()) ∧
      (p.formula.length : Int) = 4 * max 0 bounds.evaluationMaxDepth + 1 := by
  have hformula : longEnough negating bounds.evaluationMaxDepth bounds.evaluationMinLength
      Atom.variables bounds.maxAttempts.toNat () =
        .ok (negated ['P'] bounds.evaluationMaxDepth.toNat, ()) := by
    rw [Atom.variables_eq]
    exact longEnough_negating h _
  obtain ⟨values, u, hvalues, -⟩ := always_valuesFor negating (Token.variables
    (Token.ofFormula (negated ['P'] bounds.evaluationMaxDepth.toNat))) ()
  refine ⟨⟨negated ['P'] bounds.evaluationMaxDepth.toNat, values⟩, ?_, ?_⟩
  · rw [evaluation, bind_eq_of_eq_ok hformula, bind_eq_of_eq_ok hvalues]
    rfl
  · show ((negated ['P'] bounds.evaluationMaxDepth.toNat).length : Int) = _
    rw [length_negated, List.length_singleton]
    omega

/-- A problem has the least length, or four characters for each level and one more. Every source
keeps the least length exactly where that is enough, for a formula to be reduced and for one of a
truth table. -/
theorem least_lengths_are_kept_iff (bounds : Bounds) (hne : bounds.tableVariables ≠ [])
    (hletters : ∀ name ∈ bounds.tableVariables, name.length = 1) :
    (∀ {σ : Type} (src : Source σ),
      Always (evaluation src bounds) (fun p =>
        min bounds.evaluationMinLength (4 * max 0 bounds.evaluationMaxDepth + 1) ≤
          p.formula.length) ∧
      Always (table src bounds) fun text =>
        min bounds.tableMinLength (4 * max 0 bounds.tableMaxDepth + 1) ≤ text.length) ∧
    ((∀ {σ : Type} (src : Source σ),
        Always (evaluation src bounds) fun p => bounds.evaluationMinLength ≤ p.formula.length) ↔
      bounds.evaluationMinLength ≤ 4 * max 0 bounds.evaluationMaxDepth + 1) ∧
    ((∀ {σ : Type} (src : Source σ),
        Always (table src bounds) fun text => bounds.tableMinLength ≤ text.length) ↔
      bounds.tableMinLength ≤ 4 * max 0 bounds.tableMaxDepth + 1) := by
  have hnames : ∀ name ∈ bounds.tableVariables, name ≠ [] := fun name hn =>
    List.ne_nil_of_length_pos (by rw [hletters name hn]; exact Nat.one_pos)
  have htable : ∀ {σ : Type} (src : Source σ), Always (table src bounds) fun text =>
      min bounds.tableMinLength (4 * max 0 bounds.tableMaxDepth + 1) ≤ text.length :=
    fun src => always_longEnough src hne hnames _ _ _
  refine ⟨fun src => ⟨always_evaluation src bounds, htable src⟩, ⟨fun h => ?_, fun h σ src => ?_⟩,
    ⟨fun h => ?_, fun h σ src => ?_⟩⟩
  · by_contra hshort
    obtain ⟨p, hp, hlength⟩ := exists_evaluation_negating (Int.not_le.1 hshort)
    obtain ⟨q, u, hq, hmin⟩ := h negating ()
    obtain ⟨rfl, -⟩ := Prod.mk.inj (Except.ok.inj (hp.symm.trans hq))
    omega
  · exact (always_evaluation src bounds).mono fun p hp => by omega
  · by_contra hshort
    obtain ⟨name, rest, hnil⟩ := List.exists_cons_of_ne_nil hne
    have hname : name.length = 1 := hletters name (hnil ▸ List.mem_cons_self)
    have hp : table negating bounds () = .ok (negated name bounds.tableMaxDepth.toNat, ()) := by
      rw [table, hnil]
      exact longEnough_negating (by omega) _
    obtain ⟨text, u, htext, hmin⟩ := h negating ()
    obtain ⟨rfl, -⟩ := Prod.mk.inj (Except.ok.inj (hp.symm.trans htext))
    have hlength := length_negated name bounds.tableMaxDepth.toNat
    omega
  · exact (htable src).mono fun text ht => by omega

/-- The standard bounds keep both lengths. With twenty characters for a formula to be reduced, one
of 17 comes from a source that negates all the time. -/
theorem least_lengths_are_kept_iff_standard :
    let longer : Bounds := {Bounds.standard with evaluationMinLength := 20}
    (∀ {σ : Type} (src : Source σ),
      Always (evaluation src .standard) (fun p => 15 ≤ (p.formula.length : Int)) ∧
      Always (table src .standard) fun text => 5 ≤ (text.length : Int)) ∧
    (∀ {σ : Type} (src : Source σ),
      Always (evaluation src longer) fun p => 17 ≤ (p.formula.length : Int)) ∧
    ¬ ∀ {σ : Type} (src : Source σ),
      Always (evaluation src longer) fun p => 20 ≤ (p.formula.length : Int) := by
  intro longer
  obtain ⟨-, hevaluation, htable⟩ :=
    least_lengths_are_kept_iff .standard (by decide) (by decide)
  obtain ⟨hleast, hlonger, -⟩ := least_lengths_are_kept_iff longer (by decide) (by decide)
  refine ⟨fun src => ⟨hevaluation.2 (by decide) src, htable.2 (by decide) src⟩,
    fun src => (hleast src).1, fun h => ?_⟩
  exact absurd (hlonger.1 h) (by decide)

/-- Fifty attempts and a last formula of depth 4, none of them with twenty characters. -/
theorem attempts_may_all_be_short :
    let bounds : Bounds := {Bounds.standard with evaluationMinLength := 20}
    ∃ p s, evaluation Script.source bounds (Script.ofList [25]) = .ok (p, s) ∧
      p.formula = "¬ (¬ (¬ (¬ (P))))".toList ∧ (p.formula.length : Int) < bounds.evaluationMinLength :=
  ⟨⟨"¬ (¬ (¬ (¬ (P))))".toList, [(['P'], true)]⟩, ⟨#[25], 409⟩, by decide +kernel, rfl, by decide⟩

end LogicTrainer.Problem
