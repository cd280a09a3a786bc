import LogicTrainer.Proofs.Reduction.Grounding

/-! Substituting in any list that spells a formula.

A formula need not be in its strict form for substitution to be right. The tokens at the leaves
become bits and all others stay, so whatever was spelled at a level of the grammar is spelled
there still, with the leaves of the tree replaced (`Derives.substitute`). The token at a leaf is
looked at by itself, and so is the leaf; that both come to the same bit is
`substituteToken_of_isAtom`.

The main statement is `substitution_grounds`. -/
namespace LogicTrainer.Formula
open Token Reduction

section
variable (values : Text → Bool)

/-- Nothing but operators, parentheses and bits is left. -/
theorem substituteToken_cases (t : Token) :
    (substituteToken values t).isConnective = true ∨ (substituteToken values t).isParen = true ∨
      ∃ b, substituteToken values t = .bit b := by
  cases t with
  | neg | conn => exact .inl rfl
  | lparen | rparen => exact .inr (.inl rfl)
  | bit | word => exact .inr (.inr ⟨_, rfl⟩)

/-- Operators and parentheses stay what they are. -/
theorem isConnective_substituteToken (t : Token) :
    (substituteToken values t).isConnective = t.isConnective := by
  cases t <;> rfl

theorem isParen_substituteToken (t : Token) : (substituteToken values t).isParen = t.isParen := by
  cases t <;> rfl

theorem connectives_substitute (ts : List Token) :
    Token.connectives (substitute values ts) = Token.connectives ts := by
  rw [Token.connectives, substitute, List.countP_map]
  exact List.countP_congr fun t _ => by
    rw [Function.comp_apply, isConnective_substituteToken]

/-- The leaves are replaced by the bits of their values. -/
theorem leaves_ground (f : Formula) :
    (f.ground values).leaves = f.leaves.map fun name => Atom.bit (atomValue values name) := by
  induction f with
  | atom => rfl
  | neg f ih => exact ih
  | binary op f g ihf ihg => rw [ground, leaves, leaves, List.map_append, ihf, ihg]

/-- What spells a formula spells the ground formula when bits stand for its words. -/
theorem Derives.substitute {level : Level} {ts : List Token} {f : Formula}
    (h : Derives level ts f) : Derives level (substitute values ts) (f.ground values) := by
  induction h with
  | join _ _ ihl ihr =>
    rw [Reduction.substitute, List.map_append]
    exact .join ihl ihr
  | tighter _ ih => exact .tighter ih
  | negate _ ih => exact .negate ih
  | basic _ ih => exact .basic ih
  | @leaf t ht =>
    rw [Reduction.substitute, List.map_singleton, substituteToken_of_isAtom values ht]
    exact .leaf rfl
  | group _ ih =>
    rw [Reduction.substitute, List.map_append]
    exact .group ih

end

/-- With bits for its words, a list that is read as a formula is read, at the same depth, as the
formula with each leaf replaced by the bit of its value. So it has that value whatever is assigned
afterwards. -/
theorem substitution_grounds {maxDepth : Int} {ts : List Token} {f : Formula}
    (h : parse maxDepth ts = .ok f) (loose : Entries Json) :
    let next := substituteLoose loose ts
    let g := f.ground (Assignment.normalize loose).value
    (∀ t ∈ next, t.isConnective = true ∨ t.isParen = true ∨ ∃ b, t = .bit b) ∧
    parse maxDepth next = .ok g ∧
    g.leaves = f.leaves.map (fun name => Atom.bit ((atom name).evaluate loose)) ∧
    ∀ other, g.evaluate other = f.evaluate loose := by
  intro next g
  obtain ⟨hs, hd⟩ := parse_eq_ok_iff.1 h
  refine ⟨fun t ht => ?_, ?_, leaves_ground _ f, fun other => value_ground _ f _⟩
  · obtain ⟨u, -, rfl⟩ := List.mem_map.1 ht
    exact substituteToken_cases _ u
  · refine parse_eq_ok_iff.2 ⟨hs.substitute _, ?_⟩
    rwa [depth_ground]

/-- A literal in lower case keeps its value although another is assigned to its name, and a
variable without a value is false. The list has parentheses where the strict form has none. -/
theorem substitution_grounds_literal :
    let ts : List Token := [.neg, .word ['p'], .conn .implies, .lparen, .word ['t'], .rparen,
      .conn .and, .word ['Q']]
    let f := binary .implies (neg (atom ['p'])) (binary .and (atom ['t']) (atom ['Q']))
    let loose : Entries Json := [(['P'], .str "no".toList), (['t'], .bool false)]
    parse 2 ts = .ok f ∧
      parse 2 (substituteLoose loose ts) = .ok
        (binary .implies (neg (atom ['0'])) (binary .and (atom ['1']) (atom ['0']))) ∧
      f.evaluate loose = false := by
  intro ts f loose
  have h : parse 2 ts = .ok f := by cbv
  have hground : f.ground (Assignment.normalize loose).value =
      binary .implies (neg (atom ['0'])) (binary .and (atom ['1']) (atom ['0'])) := by cbv
  obtain ⟨-, hread, -, hvalue⟩ := substitution_grounds h loose
  rw [hground] at hread hvalue
  exact ⟨h, hread, (hvalue []).symm⟩

end LogicTrainer.Formula
