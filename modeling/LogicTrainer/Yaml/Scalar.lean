import LogicTrainer.Json.Reader

/-! Plain scalars.

What a scalar without quotation marks stands for: nothing, a truth value, a whole or
floating point number, or the text itself. Whole numbers may have a sign, underscores,
another base, or places of sixty between colons. -/
namespace LogicTrainer.Yaml

def nullWords : List Text := [[], ['~'], "null".toList, "Null".toList, "NULL".toList]

def trueWords : List Text :=
  ["yes", "Yes", "YES", "true", "True", "TRUE", "on", "On", "ON"].map String.toList

def falseWords : List Text :=
  ["no", "No", "NO", "false", "False", "FALSE", "off", "Off", "OFF"].map String.toList

/-- The sign of a number, and what follows it. -/
def signed : Text → Bool × Text
  | '-' :: rest => (true, rest)
  | '+' :: rest => (false, rest)
  | t => (false, t)

def withSign (negative : Bool) (n : Nat) : Int := if negative then -n else n

/-- The value of digits of a base, underscores left out. -/
def digitsIn (base : Nat) (t : Text) : Option Nat :=
  if t.any (· != '_') then
    (t.filter (· != '_')).foldl
      (fun n c => do
        let n ← n
        let d ← Json.hexValue? c
        if d < base then some (base * n + d) else none) (some 0)
  else none

/-- The pieces between colons. -/
def places (t : Text) : List Text :=
  t.foldr (fun c pieces =>
    if c == ':' then [] :: pieces
    else
      match pieces with
      | piece :: rest => (c :: piece) :: rest
      | [] => [[c]]) [[]]

/-- A place of sixty: one digit, or two below sixty. -/
def sixtieth? (t : Text) : Option Nat := do
  let n ← digitsIn 10 t
  if t.all Json.isDigit && t.length ≤ 2 && n < 60 then some n else none

/-- A whole number without its sign. -/
def whole? (t : Text) : Option Nat :=
  match t with
  | ['0'] => some 0
  | '0' :: 'b' :: digits => digitsIn 2 digits
  | '0' :: 'x' :: digits => digitsIn 16 digits
  | '0' :: digits => if digits.all (· == '_') then some 0 else digitsIn 8 digits
  | c :: _ =>
    if !Json.isDigit c then none
    else
      match places t with
      | [digits] => digitsIn 10 digits
      | digits :: more => do
        let first ← digitsIn 10 digits
        more.foldlM (fun n piece => (sixtieth? piece).map (60 * n + ·)) first
      | [] => none
  | [] => none

/-- The power of ten at the end of a floating point number, which needs a sign. -/
def power? : Text → Option Int
  | [] => some 0
  | e :: sign :: digits =>
    if (e == 'e' || e == 'E') && (sign == '+' || sign == '-') && !digits.isEmpty &&
        digits.all Json.isDigit then
      some (withSign (sign == '-') (Json.digitsValue digits))
    else none
  | _ => none

/-- A floating point number without its sign: there has to be a point, and after a sign a
digit before it. -/
def fraction? (hasSign negative : Bool) (t : Text) : Option Binary64 :=
  let isPlace := fun c => Json.isDigit c || c == '_'
  let before := t.takeWhile isPlace
  match t.dropWhile isPlace with
  | '.' :: rest =>
    let after := rest.takeWhile isPlace
    let startsWell := fun (digits : Text) => (digits.head?.map Json.isDigit).getD false
    if startsWell before || (!hasSign && before.isEmpty && startsWell after) then do
      let power ← power? (rest.dropWhile isPlace)
      let digits := (before ++ after).filter (· != '_')
      let places := (after.filter (· != '_')).length
      some (.ofDecimal negative (Json.digitsValue digits) digits.length (power - places))
    else none
  | _ => none

/-- The words for what is no finite number, after a sign. -/
def specialReal? (hasSign negative : Bool) (t : Text) : Option Binary64 :=
  if [".inf", ".Inf", ".INF"].map String.toList |>.contains t then some (.infinite negative)
  else if !hasSign && ([".nan", ".NaN", ".NAN"].map String.toList |>.contains t) then some .nan
  else none

/-- What a plain scalar stands for. -/
def scalar (t : Text) : Json :=
  if nullWords.contains t then .null
  else if trueWords.contains t then .bool true
  else if falseWords.contains t then .bool false
  else
    let (negative, rest) := signed t
    let hasSign := rest.length != t.length
    match whole? rest with
    | some n => .int (withSign negative n)
    | none =>
      match fraction? hasSign negative rest, specialReal? hasSign negative rest with
      | some x, _ => .real x
      | none, some x => .real x
      | none, none => .str t

end LogicTrainer.Yaml
