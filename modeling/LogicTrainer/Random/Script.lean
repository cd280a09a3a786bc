import LogicTrainer.Random.Source

/-! Scripted draws.

A source that reads its answers from a list of numbers, over and over, and counts how many
it gave. A number is taken in hundredths for a roll, and modulo the size of the range for a
place. -/
namespace LogicTrainer

structure Script where
  values : Array Int
  used : Nat
  deriving DecidableEq, Repr

namespace Script

def ofList (values : List Int) : Script := ⟨values.toArray, 0⟩

/-- The next number, and the script after it. -/
def next (s : Script) : Int × Script :=
  (s.values.getD (s.used % s.values.size) 0, {s with used := s.used + 1})

/-- A number modulo a positive size. -/
def wrapped (v : Int) (bound : Nat) : Fin (bound + 1) :=
  Fin.ofNat (bound + 1) (v % ((bound : Int) + 1)).toNat

def source : Source Script where
  roll s :=
    let (v, s) := s.next
    (⟨(wrapped v 99).val, 100, (wrapped v 99).isLt⟩, s)
  place bound s :=
    let (v, s) := s.next
    (wrapped v bound, s)

end Script
end LogicTrainer
