import LogicTrainer.Random.Source
import LogicTrainer.Atom
import LogicTrainer.Connective

/-! Random formulas.

Flat formulas have connectives between terms and no parentheses. Structured ones have
parentheses around every connective and under every negation, and a depth that is not
exceeded. Formulas of a least length are structured ones, drawn until one is long enough;
when that does not happen, the last is drawn with no leaf above the full depth. -/
namespace LogicTrainer.Problem
variable {σ : Type} (src : Source σ)

def negationChance : Chance := ⟨3, 10⟩

def leafChance : Chance := ⟨1, 5⟩

/-- Something that never happens. -/
def noChance : Chance := ⟨0, 1⟩

/-- A variable. -/
def variableName (names : List Text) : Draw σ Text := src.choose names

/-- A variable, at times negated. -/
def term (names : List Text) : Draw σ Text := do
  if ← src.happens negationChance then
    return negationGlyph :: ' ' :: (← variableName src names)
  else variableName src names

/-- The connective of a roll: one for each quarter. -/
def connectiveOfRoll (r : Roll) : Connective :=
  if r.below ⟨1, 4⟩ then .or
  else if r.below ⟨1, 2⟩ then .implies
  else if r.below ⟨3, 4⟩ then .iff
  else .and

/-- A connective. -/
def connective : Draw σ Connective := fun s =>
  let (r, s) := src.roll s
  .ok (connectiveOfRoll r, s)

/-- A number of connectives, each with a term after it. -/
def tail (names : List Text) : Nat → Draw σ Text
  | 0 => return []
  | length + 1 => do
    let op ← connective src
    let t ← term src names
    let rest ← tail names length
    return ' ' :: op.glyph :: ' ' :: t ++ rest

/-- A flat formula with a number of connectives. -/
def flat (length : Int) (names : List Text) : Draw σ Text := do
  let first ← term src names
  let rest ← tail src names length.toNat
  return first ++ rest

/-- A structured formula with at most `room` levels below it. Under the root, where `depth`
is positive, a leaf may come before the room is used up. -/
def structuredWithin (names : List Text) (leaf : Chance) : Nat → Int → Draw σ Text
  | 0, _ => variableName src names
  | room + 1, depth => do
    if ← (if depth > 0 then src.happens leaf else pure false) then variableName src names
    else if ← src.happens negationChance then
      let inner ← structuredWithin names leaf room (depth + 1)
      return negationGlyph :: ' ' :: '(' :: inner ++ [')']
    else
      let left ← structuredWithin names leaf room (depth + 1)
      let right ← structuredWithin names leaf room (depth + 1)
      let op ← src.choose Connective.all
      return '(' :: left ++ ' ' :: op.glyph :: ' ' :: right ++ [')']

/-- A structured formula down to a depth, standing at a depth itself. -/
def structured (maxDepth : Int) (names : List Text) (depth : Int) (leaf : Chance) :
    Draw σ Text :=
  structuredWithin src names leaf (maxDepth - depth).toNat depth

/-- A structured formula of a least length, or one of full depth after a number of attempts. -/
def longEnough (maxDepth minLength : Int) (names : List Text) : Nat → Draw σ Text
  | 0 => structured src maxDepth names 0 noChance
  | attempts + 1 => do
    let formula ← structured src maxDepth names 0 leafChance
    if (formula.length : Int) ≥ minLength then return formula
    else longEnough maxDepth minLength names attempts

end LogicTrainer.Problem
