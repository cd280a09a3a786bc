import LogicTrainer.Proofs.Reduction.Bracketed

/-! Going on at the right edge.

When a connective and an operand are added at the end of a text, the formula changes at its right
edge only: somewhere on the way down to the last leaf, the formula that stands there becomes the
left operand of the connective (`Continues`). The grammar says where: below the connectives that
bind looser, and above those that bind tighter or as tight (`Derives.exists_continues`). Wherever it
is, the operators are those of the two parts and the connective, and the strict form gets longer by
the operand, the connective and its parentheses. -/
namespace LogicTrainer.Formula
open Token

/-- The number of binary connectives. -/
def binaries : Formula → Nat
  | .atom _ => 0
  | .neg operand => operand.binaries
  | .binary _ left right => left.binaries + right.binaries + 1

/-- The number of negations. -/
def negations : Formula → Nat
  | .atom _ => 0
  | .neg operand => operand.negations + 1
  | .binary _ left right => left.negations + right.negations

/-- Nothing but leaves is negated. -/
def NegatesLeaves : Formula → Prop
  | .atom _ => True
  | .neg operand => ∃ name, operand = .atom name
  | .binary _ left right => left.NegatesLeaves ∧ right.NegatesLeaves

/-- Where only leaves are negated, a chain of connectives is the deepest formula. -/
theorem NegatesLeaves.depth_le {f : Formula} (h : f.NegatesLeaves) : f.depth ≤ f.binaries + 1 := by
  induction f with
  | atom name => exact Nat.zero_le _
  | neg f ih =>
    obtain ⟨name, rfl⟩ := h
    exact Nat.le_refl _
  | binary op f g ihf ihg =>
    have hleft := ihf h.1
    have hright := ihg h.2
    simp only [depth, binaries]
    omega

/-- A formula goes on at its right edge, with a connective and an operand. -/
inductive Continues (op : Connective) (g : Formula) : Formula → Formula → Prop where
  | root (f : Formula) : Continues op g f (.binary op f g)
  | right (op' : Connective) (left : Formula) {f f' : Formula} (h : Continues op g f f') :
    Continues op g (.binary op' left f) (.binary op' left f')

namespace Continues
variable {op : Connective} {f f' g : Formula} (h : Continues op g f f')
include h

theorem binaries_eq : f'.binaries = f.binaries + g.binaries + 1 := by
  induction h with
  | root f => rfl
  | right op' left _ ih =>
    simp only [binaries, ih]
    omega

theorem negations_eq : f'.negations = f.negations + g.negations := by
  induction h with
  | root f => rfl
  | right op' left _ ih => rw [negations, negations, ih, Nat.add_assoc]

theorem negatesLeaves (hf : f.NegatesLeaves) (hg : g.NegatesLeaves) : f'.NegatesLeaves := by
  induction h with
  | root f => exact ⟨hf, hg⟩
  | right op' left _ ih => exact ⟨hf.1, ih hf.2⟩

/-- The connective comes with two blanks and a pair of parentheses. -/
theorem length_render : f'.render.length = f.render.length + g.render.length + 5 := by
  have hbinary (op : Connective) (f g : Formula) :
      (binary op f g).render.length = f.render.length + g.render.length + 5 := by
    simp [render]
    omega
  induction h with
  | root f => exact hbinary op f g
  | right op' left _ ih =>
    rw [hbinary, hbinary, ih]
    omega

end Continues

/-- What is derived at a level goes on with any connective that the level leaves room for. -/
theorem Derives.exists_continues {level : Level} {ts us : List Token} {f g : Formula}
    {op : Connective} (h : Derives level ts f) (hg : Derives .negation us g)
    (hrank : level.rank ≤ op.rank) :
    ∃ f', Continues op g f f' ∧ Derives level (ts ++ .conn op :: us) f' := by
  have hlt (op' : Connective) (hle : op'.rank ≤ op.rank) (hne : op' ≠ op) :
      op'.tighter.rank ≤ op.rank := by
    rw [Connective.rank_tighter]
    exact Nat.lt_of_le_of_ne hle fun heq => hne (Connective.rank_injective heq)
  have htight : ¬5 ≤ op.rank := by cases op <;> decide
  induction h with
  | @join op' left right f k hl hr _ ih =>
    by_cases hop : op' = op
    · subst hop
      exact ⟨_, .root _, (Derives.join hl hr).join_negation hg⟩
    · obtain ⟨k', hk, hd⟩ := ih (hlt op' hrank hop)
      refine ⟨_, .right op' f hk, ?_⟩
      rw [List.append_assoc, List.cons_append]
      exact .join hl hd
  | @tighter op' ts f h ih =>
    by_cases hop : op' = op
    · subst hop
      exact ⟨_, .root _, (Derives.tighter h).join_negation hg⟩
    · obtain ⟨f', hf, hd⟩ := ih (hlt op' hrank hop)
      exact ⟨f', hf, .tighter hd⟩
  | negate | basic | leaf | group => exact absurd hrank htight

end LogicTrainer.Formula
