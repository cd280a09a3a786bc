import LogicTrainer.Formula.Parser

/-! The grammar of formulas.

What a token list may spell, said without reading it: a chain of equal connectives groups to
the left, a looser connective has tighter ones as its operands, negation comes before a
negation or an atom, and any formula may stand in parentheses, which leave no trace in the
tree. -/
namespace LogicTrainer

/-- A level of the grammar: what may stand at the root outside all parentheses. -/
inductive Level where
  /-- The connective, or anything tighter. -/
  | chain (op : Connective)
  /-- A negation, or an atom. -/
  | negation
  /-- A leaf, or a formula in parentheses. -/
  | atom
  deriving DecidableEq, Repr

/-- The level whose formulas are the right operands of a connective. -/
def Connective.tighter : Connective → Level
  | .iff => .chain .implies
  | .implies => .chain .or
  | .or => .chain .and
  | .and => .negation

namespace Formula

/-- A token list spells a tree at a level. -/
inductive Derives : Level → List Token → Formula → Prop where
  | join {op : Connective} {left right : List Token} {f g : Formula}
    (hl : Derives (.chain op) left f) (hr : Derives op.tighter right g) :
    Derives (.chain op) (left ++ .conn op :: right) (.binary op f g)
  | tighter {op : Connective} {ts : List Token} {f : Formula} (h : Derives op.tighter ts f) :
    Derives (.chain op) ts f
  | negate {ts : List Token} {f : Formula} (h : Derives .negation ts f) :
    Derives .negation (.neg :: ts) (.neg f)
  | basic {ts : List Token} {f : Formula} (h : Derives .atom ts f) : Derives .negation ts f
  | leaf {t : Token} (h : t.isAtom = true) : Derives .atom [t] (.atom t.text)
  | group {ts : List Token} {f : Formula} (h : Derives (.chain .iff) ts f) :
    Derives .atom (.lparen :: ts ++ [.rparen]) f

/-- A token list spells a formula. -/
def Spells (ts : List Token) (f : Formula) : Prop := Derives (.chain .iff) ts f

/-- Nothing is spelled by an empty list. -/
theorem Derives.ne_nil {level : Level} {ts : List Token} {f : Formula}
    (h : Derives level ts f) : ts ≠ [] := by
  induction h with
  | join | negate | leaf | group => simp
  | tighter _ ih | basic _ ih => exact ih

/-- What spells a formula may stand anywhere without changing how many parentheses are open. -/
theorem Derives.balancedFrom_append {level : Level} {ts : List Token} {f : Formula}
    (h : Derives level ts f) (depth : Nat) (rest : List Token) :
    Token.balancedFrom depth (ts ++ rest) = Token.balancedFrom depth rest := by
  induction h generalizing depth rest with
  | join _ _ ihl ihr =>
    rw [List.append_assoc, ihl, List.cons_append]
    cases depth <;> simpa only [Token.balancedFrom] using ihr _ rest
  | tighter _ ih | basic _ ih => exact ih depth rest
  | negate _ ih =>
    rw [List.cons_append]
    cases depth <;> simpa only [Token.balancedFrom] using ih _ rest
  | @leaf t h =>
    cases t <;> simp [Token.isAtom] at h <;> cases depth <;> rfl
  | group _ ih =>
    simp only [List.cons_append, List.append_assoc, List.nil_append, Token.balancedFrom]
    rw [ih]
    rfl

/-- What spells a formula has all its parentheses in pairs. -/
theorem Derives.isBalanced {level : Level} {ts : List Token} {f : Formula}
    (h : Derives level ts f) : Token.isBalanced ts = true := by
  have := h.balancedFrom_append 0 []
  rwa [List.append_nil] at this

end Formula
end LogicTrainer
