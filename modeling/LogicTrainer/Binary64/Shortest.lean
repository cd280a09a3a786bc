import LogicTrainer.Binary64.Basic

/-! The shortest decimal.

A floating point number is written with the fewest digits that still read back as the same
number, and with the nearest such digits. Between 1e-4 and 1e16 the point stands in its
place; outside, a power of ten follows. -/
namespace LogicTrainer.Binary64

/-- The fractions that are read as one number: from `low` to `high` over `den`, the ends
included if `closed`. The number itself is `value` over `den`. -/
structure Interval where
  low : Nat
  value : Nat
  high : Nat
  den : Nat
  closed : Bool
  deriving DecidableEq, Repr

/-- The fractions that are read as a positive number. -/
def intervalOf (significand : Nat) (exponent : Int) : Interval :=
  let below := if significand = Nat.pow 2 52 ∧ exponent > minExponent then 1 else 2
  let scaled := fun quarters => (scaleDown quarters 1 (2 - exponent)).1
  ⟨scaled (4 * significand - below), scaled (4 * significand), scaled (4 * significand + 2),
    (scaleDown 1 1 (2 - exponent)).2, significand % 2 == 0⟩

/-- Whether the fraction `num / den` lies in an interval. -/
def Interval.holds (i : Interval) (num den : Nat) : Bool :=
  let x := num * i.den
  if i.closed then i.low * den ≤ x && x ≤ i.high * den else i.low * den < x && x < i.high * den

/-- `digits` times a power of ten as a fraction. -/
def decimalFraction (digits : Nat) (power : Int) : Nat × Nat :=
  if power < 0 then (digits, Nat.pow 10 (-power).toNat)
  else (digits * Nat.pow 10 power.toNat, 1)

/-- The decimal exponent of an interval's value: the value is below ten to this power, and
no less than a tenth of it. -/
def magnitude (i : Interval) : Int :=
  let digits (n : Nat) : Int := (Nat.toDigits 10 n).length
  let guess := digits i.value - digits i.den
  let (n, d) := decimalFraction 1 guess
  if i.value * d < n * i.den then guess else guess + 1

/-- The multiple of a power of ten that lies in the interval, the nearer of two. -/
def onGrid (i : Interval) (power : Int) : Option Nat :=
  let (unitNum, unitDen) := decimalFraction 1 power
  let num := i.value * unitDen
  let den := i.den * unitNum
  let q := num / den
  let fits (digits : Nat) : Bool :=
    let (n, d) := decimalFraction digits power
    i.holds n d
  match fits q, fits (q + 1) with
  | false, false => none
  | true, false => some q
  | false, true => some (q + 1)
  | true, true => some (roundHalfEven num den)

/-- The first grid that has a hit, trying `count` more digits with ever finer grids. -/
def firstHit (i : Interval) (top : Int) : Nat → Nat → Nat × Int
  | 0, digits => ((onGrid i (top - digits)).getD 0, top - digits)
  | count + 1, digits =>
    match onGrid i (top - digits) with
    | some hit => (hit, top - digits)
    | none => firstHit i top count (digits + 1)

/-- The fewest digits that read back, and the power of ten that they are multiplied by. -/
def shortest (significand : Nat) (exponent : Int) : Nat × Int :=
  let i := intervalOf significand exponent
  firstHit i (magnitude i) 16 1

/-- Removes zeros from the end of a positive number's digits, at most `fuel` of them. -/
def dropZeros : Nat → Nat → Int → Nat × Int
  | 0, digits, power => (digits, power)
  | fuel + 1, digits, power =>
    if digits % 10 = 0 then dropZeros fuel (digits / 10) (power + 1) else (digits, power)

/-- Digits times a power of ten, written out. -/
def layOut (digits : Nat) (power : Int) : Text :=
  let ds := Text.ofNat digits
  let point : Int := ds.length + power
  if -4 < point ∧ point ≤ 16 then
    if point ≤ 0 then '0' :: '.' :: List.replicate (-point).toNat '0' ++ ds
    else if power ≥ 0 then ds ++ List.replicate power.toNat '0' ++ ['.', '0']
    else ds.take point.toNat ++ '.' :: ds.drop point.toNat
  else
    let exponent := point - 1
    let size := Text.ofNat exponent.natAbs
    ds.take 1 ++ (if ds.length > 1 then '.' :: ds.drop 1 else []) ++
      'e' :: (if exponent < 0 then '-' else '+') :: (if size.length < 2 then '0' :: size else size)

/-- A number in the shortest decimal. -/
def text : Binary64 → Text
  | .nan => "nan".toList
  | .infinite negative => if negative then "-inf".toList else "inf".toList
  | .finite negative significand exponent =>
    let body :=
      if significand = 0 then "0.0".toList
      else
        let (digits, power) := shortest significand exponent
        let (digits, power) := dropZeros 20 digits power
        layOut digits power
    if negative then '-' :: body else body

end LogicTrainer.Binary64
