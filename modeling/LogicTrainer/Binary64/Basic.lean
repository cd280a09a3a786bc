import LogicTrainer.Text.Basic

/-! Binary floating point numbers of 64 bits.

A finite number is a significand below `2 ^ 53` times a power of two, the smallest of which is
`2 ^ -1074`. `round` takes a positive fraction to the nearest of them, a fraction half-way to
the even significand, and one that is too large to infinity. -/
namespace LogicTrainer

inductive Binary64 where
  | nan
  | infinite (negative : Bool)
  | finite (negative : Bool) (significand : Nat) (exponent : Int)
  deriving DecidableEq, Repr

namespace Binary64

/-- The exponent of the smallest numbers. -/
def minExponent : Int := -1074

/-- The exponent of the largest numbers. -/
def maxExponent : Int := 971

/-- Zero with a sign. -/
def zero (negative : Bool) : Binary64 := .finite negative 0 minExponent

/-- The fraction `num / den` divided by a power of two, as a fraction again. -/
def scaleDown (num den : Nat) (exponent : Int) : Nat × Nat :=
  if exponent < 0 then (num * Nat.pow 2 (-exponent).toNat, den)
  else (num, den * Nat.pow 2 exponent.toNat)

/-- The nearest whole number to a fraction, the even one if there are two. -/
def roundHalfEven (num den : Nat) : Nat :=
  let q := num / den
  let twice := 2 * (num % den)
  if twice > den || (twice == den && q % 2 == 1) then q + 1 else q

/-- The exponent that gives the fraction a significand of 53 bits, or the smallest. -/
def exponentFor (num den : Nat) : Int :=
  let k : Int := (Nat.log2 num : Int) - (Nat.log2 den : Int)
  let (n, d) := scaleDown num den k
  max minExponent (if n < d then k - 53 else k - 52)

/-- The number nearest to the fraction `num / den`. -/
def round (negative : Bool) (num den : Nat) : Binary64 :=
  if num = 0 then zero negative
  else
    let exponent := exponentFor num den
    let (n, d) := scaleDown num den exponent
    let significand := roundHalfEven n d
    let (significand, exponent) :=
      if significand = Nat.pow 2 53 then (Nat.pow 2 52, exponent + 1) else (significand, exponent)
    if exponent > maxExponent then .infinite negative else .finite negative significand exponent

/-- The number nearest to `digits` times a power of ten, where `digits` is written with
`count` digits. Powers far outside the range are not worked out. -/
def ofDecimal (negative : Bool) (digits count : Nat) (power : Int) : Binary64 :=
  if digits = 0 || power + count < -400 then zero negative
  else if power > 400 then .infinite negative
  else if power < 0 then round negative digits (Nat.pow 10 (-power).toNat)
  else round negative (digits * Nat.pow 10 power.toNat) 1

/-- Whether a number is zero, of either sign. -/
def isZero : Binary64 → Bool
  | .finite _ significand _ => significand == 0
  | _ => false

/-- The whole part of a finite number. -/
def truncate? : Binary64 → Option Int
  | .finite negative significand exponent =>
    let (n, d) := scaleDown significand 1 (-exponent)
    some (if negative then -((n / d : Nat) : Int) else ((n / d : Nat) : Int))
  | _ => none

end Binary64
end LogicTrainer
