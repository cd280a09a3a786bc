import LogicTrainer.Formula.Basic
import LogicTrainer.Entries

/-! Compound parts.

The parts of a formula that have an operator, the whole among them, named by their strict
forms. Equal parts count once. -/
namespace LogicTrainer
namespace Formula

/-- The compound parts from the root down, the left before the right. -/
def compounds : Formula → List Formula
  | .atom _ => []
  | .neg operand => .neg operand :: operand.compounds
  | .binary op left right => .binary op left right :: (left.compounds ++ right.compounds)

/-- The compound parts by their strict forms; of equal forms the first part stays. -/
def compoundsByForm (f : Formula) : Entries Formula :=
  f.compounds.foldl
    (fun found part =>
      if (Entries.get? part.render found).isSome then found else found ++ [(part.render, part)]) []

/-- The strict forms of the compound parts, in order. -/
def compoundForms (f : Formula) : List Text :=
  f.compoundsByForm.keys.mergeSort Text.noLater

end Formula
end LogicTrainer
