import LogicTrainer.Token.Basic

/-! Collapsing parentheses around a bit.

After a move a bit may stand alone between parentheses, and these go away. A bit that loses
its parentheses may stand between two others, so the list is worked from the right: what
follows is collapsed before a parenthesis is looked at. Nothing is left to collapse then
(`isCollapsed_collapse`). -/
namespace LogicTrainer.Reduction

/-- Puts a token in front of a collapsed list, and collapses where it opens a pair around a
bit. -/
def putBefore : Token → List Token → List Token
  | .lparen, .bit b :: .rparen :: rest => .bit b :: rest
  | t, rest => t :: rest

/-- A list in which no bit stands alone between parentheses. -/
def collapse : List Token → List Token
  | [] => []
  | t :: rest => putBefore t (collapse rest)

/-- Whether no bit stands alone between parentheses. -/
def isCollapsed : List Token → Bool
  | [] => true
  | .lparen :: .bit _ :: .rparen :: _ => false
  | _ :: rest => isCollapsed rest

/-- One bit loses the parentheses around it. -/
inductive Collapses : List Token → List Token → Prop where
  | here (before after : List Token) (b : Bool) :
    Collapses (before ++ .lparen :: .bit b :: .rparen :: after) (before ++ .bit b :: after)

theorem isCollapsed_putBefore (t : Token) {rest : List Token} (h : isCollapsed rest = true) :
    isCollapsed (putBefore t rest) = true := by
  unfold putBefore
  split
  · simpa [isCollapsed] using h
  · next hne =>
    rw [isCollapsed.eq_def]
    split
    · rfl
    · next heq => cases heq; exact absurd rfl (fun e => hne _ _ e rfl)
    · next heq => cases heq; exact h

/-- Nothing is left to collapse. -/
theorem isCollapsed_collapse (ts : List Token) : isCollapsed (collapse ts) = true := by
  induction ts with
  | nil => rfl
  | cons t rest ih => exact isCollapsed_putBefore t ih

theorem length_putBefore_le (t : Token) (rest : List Token) :
    (putBefore t rest).length ≤ rest.length + 1 := by
  unfold putBefore
  split
  · simp only [List.length_cons]
    omega
  · simp only [List.length_cons, Nat.le_refl]

theorem length_collapse_le (ts : List Token) : (collapse ts).length ≤ ts.length := by
  induction ts with
  | nil => simp [collapse]
  | cons t rest ih =>
    have := length_putBefore_le t (collapse rest)
    simp only [collapse, List.length_cons]
    omega

end LogicTrainer.Reduction
