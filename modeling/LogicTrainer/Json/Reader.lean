import LogicTrainer.Json.Basic

/-! Reading structured values.

The grammar is that of the interchange format, with the three words for floating point
values that are no numbers. A number without point and power is whole. A repeated member
keeps its place and takes its last value. Every function takes a text and gives back what it
did not use; `readWith` has fuel, one unit for each step down or along, and `read?` gives it
enough. -/
namespace LogicTrainer.Json

/-- White space between the parts of a value. -/
def isSpace (c : Char) : Bool := c == ' ' || c == '\t' || c == '\n' || c == '\r'

def skipSpace (t : Text) : Text := t.dropWhile isSpace

def isDigit (c : Char) : Bool := 48 ≤ c.toNat && c.toNat ≤ 57

/-- The number that a run of digits spells. -/
def digitsValue (t : Text) : Nat := t.foldl (fun n c => 10 * n + (c.toNat - 48)) 0

/-- The value of a hexadecimal digit. -/
def hexValue? (c : Char) : Option Nat :=
  let n := c.toNat
  if 48 ≤ n && n ≤ 57 then some (n - 48)
  else if 97 ≤ n && n ≤ 102 then some (n - 87)
  else if 65 ≤ n && n ≤ 70 then some (n - 55)
  else none

/-- Four hexadecimal digits. -/
def readUnit? : Text → Option (Nat × Text)
  | a :: b :: c :: d :: rest => do
    return (4096 * (← hexValue? a) + 256 * (← hexValue? b) + 16 * (← hexValue? c) + (← hexValue? d),
      rest)
  | _ => none

/-- The character of one or two units: a pair of surrogates is one character, and a
surrogate without its partner is shown as the replacement character. -/
def readEscapedUnits? (t : Text) : Option (Char × Text) := do
  let (unit, rest) ← readUnit? t
  if 0xd800 ≤ unit && unit ≤ 0xdbff then
    match rest with
    | '\\' :: 'u' :: more =>
      match readUnit? more with
      | some (low, rest') =>
        if 0xdc00 ≤ low && low ≤ 0xdfff then
          some (Char.ofNat (0x10000 + (unit - 0xd800) * 0x400 + (low - 0xdc00)), rest')
        else some ('\ufffd', rest)
      | none => some ('\ufffd', rest)
    | _ => some ('\ufffd', rest)
  else if 0xdc00 ≤ unit && unit ≤ 0xdfff then some ('\ufffd', rest)
  else some (Char.ofNat unit, rest)

/-- The character that a letter stands for after a backslash. -/
def escapeLetter? : Char → Option Char
  | '"' => some '"'
  | '\\' => some '\\'
  | '/' => some '/'
  | 'b' => some (Char.ofNat 8)
  | 'f' => some (Char.ofNat 12)
  | 'n' => some '\n'
  | 'r' => some '\r'
  | 't' => some '\t'
  | _ => none

/-- The rest of a string after its opening mark. -/
def readString? : Nat → Text → Option (Text × Text)
  | 0, _ => none
  | _, [] => none
  | fuel + 1, c :: rest =>
    if c == '"' then some ([], rest)
    else if c == '\\' then
      match rest with
      | [] => none
      | 'u' :: more => do
        let (decoded, rest) ← readEscapedUnits? more
        let (tail, rest) ← readString? fuel rest
        return (decoded :: tail, rest)
      | e :: more => do
        let decoded ← escapeLetter? e
        let (tail, rest) ← readString? fuel more
        return (decoded :: tail, rest)
    else if c.toNat < 0x20 then none
    else do
      let (tail, rest) ← readString? fuel rest
      return (c :: tail, rest)

/-- The whole part of a number: a zero alone, or digits that start with another. -/
def readWhole? : Text → Option (Text × Text)
  | '0' :: rest => some (['0'], rest)
  | t =>
    match t.takeWhile isDigit with
    | [] => none
    | digits => some (digits, t.dropWhile isDigit)

/-- The digits after a point, if a point with digits follows. -/
def readFraction (t : Text) : Option Text × Text :=
  match t with
  | '.' :: rest =>
    match rest.takeWhile isDigit with
    | [] => (none, t)
    | digits => (some digits, rest.dropWhile isDigit)
  | _ => (none, t)

/-- The power of ten, if one follows. -/
def readPower (t : Text) : Option Int × Text :=
  match t with
  | c :: rest =>
    if c == 'e' || c == 'E' then
      let (negative, digitsOn) :=
        match rest with
        | '-' :: more => (true, more)
        | '+' :: more => (false, more)
        | more => (false, more)
      match digitsOn.takeWhile isDigit with
      | [] => (none, t)
      | digits =>
        let n : Int := digitsValue digits
        (some (if negative then -n else n), digitsOn.dropWhile isDigit)
    else (none, t)
  | [] => (none, t)

/-- A number after its sign. -/
def readNumber? (negative : Bool) (t : Text) : Option (Json × Text) := do
  let (whole, rest) ← readWhole? t
  let (fraction, rest) := readFraction rest
  let (power, rest) := readPower rest
  match fraction, power with
  | none, none =>
    let n : Int := digitsValue whole
    return (.int (if negative then -n else n), rest)
  | _, _ =>
    let digits := whole ++ fraction.getD []
    let shift : Int := (power.getD 0) - ((fraction.getD []).length : Int)
    return (.real (.ofDecimal negative (digitsValue digits) digits.length shift), rest)

/-- What is left after a fixed word. -/
def readWord? (word t : Text) : Option Text :=
  if word.isPrefixOf t then some (t.drop word.length) else none

mutual

/-- A value at the start of a text. -/
def readWith : Nat → Text → Option (Json × Text)
  | 0, _ => none
  | _, [] => none
  | fuel + 1, c :: rest =>
    match c with
    | '"' => (readString? (rest.length + 1) rest).map fun (t, rest) => (.str t, rest)
    | '[' =>
      match skipSpace rest with
      | ']' :: rest => some (.arr [], rest)
      | more => (readItems fuel more).map fun (items, rest) => (.arr items, rest)
    | '\x7b' =>
      match skipSpace rest with
      | '\x7d' :: rest => some (.obj [], rest)
      | more =>
        (readMembers fuel more).map fun (members, rest) => (.obj (Entries.ofPairs members), rest)
    | 'n' => (readWord? "ull".toList rest).map fun rest => (.null, rest)
    | 't' => (readWord? "rue".toList rest).map fun rest => (.bool true, rest)
    | 'f' => (readWord? "alse".toList rest).map fun rest => (.bool false, rest)
    | 'N' => (readWord? "aN".toList rest).map fun rest => (.real .nan, rest)
    | 'I' => (readWord? "nfinity".toList rest).map fun rest => (.real (.infinite false), rest)
    | '-' =>
      match rest with
      | 'I' :: more =>
        (readWord? "nfinity".toList more).map fun rest => (.real (.infinite true), rest)
      | _ => readNumber? true rest
    | _ => readNumber? false (c :: rest)

/-- The items of a list up to its closing bracket. -/
def readItems : Nat → Text → Option (List Json × Text)
  | 0, _ => none
  | fuel + 1, t =>
    match readWith fuel t with
    | none => none
    | some (item, rest) =>
      match skipSpace rest with
      | ',' :: rest =>
        (readItems fuel (skipSpace rest)).map fun (items, rest) => (item :: items, rest)
      | ']' :: rest => some ([item], rest)
      | _ => none

/-- The members of an object up to its closing brace. -/
def readMembers : Nat → Text → Option (List (Text × Json) × Text)
  | 0, _ => none
  | fuel + 1, t =>
    match t with
    | '"' :: rest =>
      match readString? (rest.length + 1) rest with
      | none => none
      | some (key, rest) =>
        match skipSpace rest with
        | ':' :: rest =>
          match readWith fuel (skipSpace rest) with
          | none => none
          | some (value, rest) =>
            match skipSpace rest with
            | ',' :: rest =>
              (readMembers fuel (skipSpace rest)).map fun (members, rest) =>
                ((key, value) :: members, rest)
            | '\x7d' :: rest => some ([(key, value)], rest)
            | _ => none
        | _ => none
    | _ => none

end

/-- Reads a text that holds one value and nothing else but white space. -/
def read? (t : Text) : Option Json :=
  match readWith (2 * t.length + 2) (skipSpace t) with
  | some (value, rest) => if (skipSpace rest).isEmpty then some value else none
  | none => none

end LogicTrainer.Json
