import LogicTrainer.Random.Script
import LogicTrainer.Proofs.Problem.Structured
import LogicTrainer.Proofs.Reduction.Session

/-! Runs from bracketed lists.

A session that starts from a list takes it as it is: it is not brought into strict form. Where
the list is bracketed this is not needed, since every legal move contracts the tree that the
list spells. A run keeps (`Keeps`) that its tokens are collapsed and bracketed, and spell a tree
of the value of the first one with an operator less for each move. So the order in which
operators bind is enough, whichever of the legal moves are chosen, and whatever is tried besides.

The main statement is `binding_order_suffices`. -/
namespace LogicTrainer.Reduction.Session
open Token Formula

/-- The session shows a bracketed list on the way from `f` to its value. -/
structure Keeps (f : Formula) (s : Session) : Prop where
  substituted : s.substituted = true
  collapsed : isCollapsed s.tokens = true
  shows : ∃ g, Bracketed s.tokens g ∧ (∀ values, g.value values = f.value values) ∧
    g.connectives + s.moves = f.connectives

/-! ### What every call keeps -/

theorem keeps_ofTokens {ts : List Token} {f : Formula} (h : Bracketed ts f) :
    Keeps f (ofTokens ts) where
  substituted := rfl
  collapsed := isCollapsed_collapse ts
  shows := ⟨f, h.collapse, fun _ => rfl, rfl⟩

namespace Keeps
variable {f : Formula} {s : Session}

theorem select (h : Keeps f s) (i : Int) : Keeps f (s.select i).2 := by
  rcases select_cases s i with ⟨c, hc, -, -, next, hfires, heq⟩ | ⟨-, -, heq⟩
  · obtain ⟨g, hg, hvalue, hcount⟩ := h.shows
    rw [legalMoves_of_substituted h.substituted] at hc
    obtain ⟨k, hk, hnext⟩ := hg.exists_contracts hc hfires
    have hmoves := moves_append s .reduction (Reduction.collapse next)
    have hless := hk.connectives_eq
    rw [if_pos rfl] at hmoves
    refine ⟨substituted_select i h.substituted, ?_, k, ?_, fun values => ?_, ?_⟩
    · rw [heq]
      exact isCollapsed_collapse next
    · rw [heq]
      exact hnext.collapse
    · rw [hk.value_eq, hvalue]
    · rw [heq]
      omega
  · rwa [heq]

/-- There is nothing to substitute. -/
theorem substitute_eq (h : Keeps f s) : s.substitute.2 = s := by
  rcases substitute_cases s with ⟨-, hne, -⟩ | ⟨-, heq⟩
  · rw [h.substituted] at hne
    cases hne
  · exact heq

theorem solve (h : Keeps f s) : Keeps f s.solve.2 := by
  have hready : s.ready = s := if_pos h.substituted
  show Keeps f (play s.ready.tokens.length s.ready)
  rw [hready]
  exact play_induction (fun _ i hs => hs.select i) _ h

theorem perform (h : Keeps f s) (action : Action) : Keeps f (s.perform action) := by
  cases action with
  | substitute =>
    show Keeps f s.substitute.2
    rwa [h.substitute_eq]
  | select i => exact h.select i
  | solve => exact h.solve

theorem run (h : Keeps f s) (actions : List Action) : Keeps f (s.run actions) := by
  induction actions generalizing s with
  | nil => exact h
  | cons action actions ih => exact ih (h.perform action)

/-! ### Where a run ends -/

/-- As long as an operator is left there is a legal move. -/
theorem legalMoves_ne_nil (h : Keeps f s) (hmoves : s.moves < f.connectives) :
    s.legalMoves ≠ [] := by
  obtain ⟨g, hg, -, hcount⟩ := h.shows
  obtain ⟨i, op, next, hfires⟩ := hg.exists_fires h.collapsed (by omega)
  rw [legalMoves_of_substituted h.substituted]
  exact legalMoves_ne_nil_of_fires hfires

/-- The session is solved when it has taken a move for each operator. -/
theorem isSolved_iff (h : Keeps f s) : s.isSolved = true ↔ s.moves = f.connectives := by
  obtain ⟨g, hg, -, hcount⟩ := h.shows
  rw [isSolved_eq_true_iff, and_iff_right h.substituted]
  constructor
  · rintro ⟨b, hb⟩
    obtain ⟨rfl, -⟩ := hg.of_eq_cons hb
    rw [← hcount]
    exact (Nat.zero_add _).symm
  · intro hmoves
    obtain ⟨b, hb, -⟩ := hg.eq_bit h.collapsed (by omega)
    exact ⟨b, hb⟩

/-- A solved session shows the value of its formula. -/
theorem result_eq (h : Keeps f s) (hs : s.isSolved = true) (values : Text → Bool) :
    s.result = some (f.value values) := by
  obtain ⟨g, hg, hvalue, -⟩ := h.shows
  obtain ⟨-, b, hb⟩ := isSolved_eq_true_iff.1 hs
  obtain ⟨rfl, -⟩ := hg.of_eq_cons hb
  rw [result, hs, hb, ← hvalue, value_bit]

/-- Without a legal move there is no operator left. -/
theorem isSolved_of_legalMoves (h : Keeps f s) (hnil : s.legalMoves = []) : s.isSolved = true := by
  obtain ⟨g, -, -, hcount⟩ := h.shows
  by_cases hmoves : s.moves < f.connectives
  · exact absurd hnil (h.legalMoves_ne_nil hmoves)
  · exact h.isSolved_iff.2 (by omega)

/-- The number of operators that are left. -/
theorem connectives_add_moves (h : Keeps f s) :
    Token.connectives s.tokens + s.moves = f.connectives := by
  obtain ⟨g, hg, -, hcount⟩ := h.shows
  rw [hg.connectives_eq, hcount]

end Keeps

/-- A structured formula is a bracketed list, and from a bracketed list a session gets to its value
by legal moves: whatever has been called, a selection is accepted exactly where one stands, and
takes one operator away until none is left. -/
theorem binding_order_suffices :
    (∀ {σ : Type} (src : Source σ) (names : List Text), (∀ name ∈ names, Problem.IsName name) →
      ∀ (maxDepth depth : Int) (leaf : Chance) (text : Text),
        (Problem.structured src maxDepth names depth leaf).Yields text →
          ∀ loose, ∃ f, Bracketed (substituteLoose loose (Token.ofFormula text)) f) ∧
    ∀ (ts : List Token) (f : Formula), Bracketed ts f →
      ∀ maxDepth : Int, (f.depth : Int) ≤ maxDepth → Formula.parse maxDepth ts = .ok f ∧
        ∀ actions : List Action,
          let s := (ofTokens ts).run actions
          (∀ i, ((s.select i).1.accepted = true ↔ ∃ c ∈ s.legalMoves, (c.index : Int) = i) ∧
            (s.select i).2.moves = s.moves + if (s.select i).1.accepted then 1 else 0) ∧
          Token.connectives s.tokens + s.moves = Token.connectives ts ∧
          (s.isSolved = true ↔ s.moves = Token.connectives ts) ∧
          (s.isSolved = true ↔ s.legalMoves = []) ∧
          (∀ loose, s.isSolved = true → s.result = some (f.evaluate loose)) ∧
          s.solve.2.isSolved = true ∧ ∀ loose, s.solve.1 = some (f.evaluate loose) := by
  refine ⟨fun src names hnames maxDepth depth leaf text htext loose =>
    Problem.exists_bracketed_of_structured hnames htext loose,
    fun ts f hf maxDepth hdepth => ⟨hf.parse_eq hdepth, fun actions => ?_⟩⟩
  intro s
  have h : Keeps f s := (keeps_ofTokens hf).run actions
  have hsolve : s.solve.2.isSolved = true := by
    rcases solve_stops s with hsolved | hnil
    · exact hsolved
    · exact h.solve.isSolved_of_legalMoves hnil
  rw [hf.connectives_eq]
  exact ⟨fun i => ⟨accepted_select_iff s i, moves_select s i⟩, h.connectives_add_moves,
    h.isSolved_iff, ⟨legalMoves_of_isSolved, h.isSolved_of_legalMoves⟩,
    fun loose hs => h.result_eq hs _, hsolve, fun loose => h.solve.result_eq hsolve _⟩

/-- In `( ¬ 1 ∧ 0 )` the conjunction looks ready, but is refused before the negation has fired.
And a structured formula is drawn, a negation in a conjunction. -/
theorem binding_order_suffices_next_to_negation :
    (let s := (ofTokens [.lparen, .neg, .bit true, .conn .and, .bit false, .rparen]).run
        [.select 3, .select 1, .select 2];
      s.moves = 2 ∧ s.legalMoves = [] ∧ s.result = some false) ∧
    ∃ f, Bracketed (substituteLoose [(['P'], .bool true)]
      (Token.ofFormula "(¬ (P) ∧ Q)".toList)) f := by
  obtain ⟨hdrawn, hrun⟩ := binding_order_suffices
  constructor
  · have hf : Bracketed [.lparen, .neg, .bit true, .conn .and, .bit false, .rparen] _ :=
      .binary .and (.neg (.bit true)) (.bit false)
    obtain ⟨-, h⟩ := hrun _ _ hf 2 (by decide)
    obtain ⟨-, -, hmoves, hstuck, hresult, -⟩ := h [.select 3, .select 1, .select 2]
    have hsolved : ((ofTokens [.lparen, .neg, .bit true, .conn .and, .bit false, .rparen]).run
        [.select 3, .select 1, .select 2]).isSolved = true := by decide
    exact ⟨hmoves.1 hsolved, hstuck.1 hsolved, hresult [] hsolved⟩
  · have hatoms : ∀ name ∈ [['P'], ['Q']], Atom.isAtom name = true := by decide
    have hnames : ∀ name ∈ [['P'], ['Q']], Problem.IsName name := fun name hname =>
      Problem.isName_of_isAtom (hatoms name hname)
    have hyields : (Problem.structured Script.source 2 [['P'], ['Q']] 0 Problem.leafChance).Yields
        "(¬ (P) ∧ Q)".toList := ⟨Script.ofList [99, 99, 0, 0, 0, 1, 0], _, by cbv⟩
    exact hdrawn Script.source _ hnames 2 0 Problem.leafChance _ hyields [(['P'], .bool true)]

end LogicTrainer.Reduction.Session
