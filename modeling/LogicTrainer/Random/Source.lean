import LogicTrainer.Text.Basic

/-! Sources of random draws.

Problems are drawn from a source, which answers two questions: a fraction of one, and a
place in a range. What a source answers is up to it, and everything that holds of problems
holds for every source. A `Draw` is a computation that asks, and fails where there is
nothing to choose from. -/
namespace LogicTrainer

/-- A fraction from zero up to, and without, one. -/
structure Roll where
  num : Nat
  den : Nat
  num_lt_den : num < den
  deriving DecidableEq, Repr

/-- A probability as a fraction; below zero and above one it means never and always. -/
structure Chance where
  num : Int
  den : Nat
  deriving DecidableEq, Repr

/-- Whether a roll falls below a chance. -/
def Roll.below (r : Roll) (c : Chance) : Bool := (r.num : Int) * c.den < c.num * r.den

/-- A source with states of type `σ`. -/
structure Source (σ : Type) where
  /-- A fraction of one. -/
  roll : σ → Roll × σ
  /-- A place from 0 up to a bound, the bound included. -/
  place : (bound : Nat) → σ → Fin (bound + 1) × σ

/-- Why there is nothing to draw. -/
inductive DrawError where
  | nothingToChoose
  | emptyRange (low high : Int)
  deriving DecidableEq, Repr

def DrawError.message : DrawError → Text
  | .nothingToChoose => "Cannot choose from an empty sequence".toList
  | .emptyRange low high =>
    "empty range for randrange() (".toList ++ Text.ofInt low ++ ", ".toList ++
      Text.ofInt (high + 1) ++ ", ".toList ++ Text.ofInt (high + 1 - low) ++ ")".toList

/-- A computation that draws from a source with states of type `σ`. -/
abbrev Draw (σ : Type) := StateT σ (Except DrawError)

namespace Source
variable {σ : Type} (src : Source σ)

/-- Whether a roll falls below a chance. -/
def happens (c : Chance) : Draw σ Bool := fun s =>
  let (r, s) := src.roll s
  .ok (r.below c, s)

/-- One of the items of a list. -/
def choose {α : Type} : List α → Draw σ α
  | [] => throw .nothingToChoose
  | item :: rest => fun s =>
    let (i, s) := src.place rest.length s
    .ok ((item :: rest).get i, s)

/-- A number between two bounds, which are included. -/
def between (low high : Int) : Draw σ Int :=
  if high < low then throw (.emptyRange low high)
  else fun s =>
    let (i, s) := src.place (high - low).toNat s
    .ok (low + i.val, s)

end Source
end LogicTrainer
