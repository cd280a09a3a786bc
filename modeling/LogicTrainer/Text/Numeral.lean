import LogicTrainer.Text.Quoted
import LogicTrainer.Text.Blank

/-! Numerals.

Reading an integer the way a person may type it: blanks around it, a sign, single
underscores between digits, and the decimal digits of any script. -/
namespace LogicTrainer

/-- The zeros of the decimal digit rows outside ASCII; the nine other digits follow each. -/
def decimalZeros : List Nat :=
  [
   0x660, 0x6f0, 0x7c0, 0x966, 0x9e6, 0xa66, 0xae6, 0xb66, 0xbe6, 0xc66, 0xce6, 0xd66, 0xde6, 0xe50,
   0xed0, 0xf20, 0x1040, 0x1090, 0x17e0, 0x1810, 0x1946, 0x19d0, 0x1a80, 0x1a90, 0x1b50, 0x1bb0,
   0x1c40, 0x1c50, 0xa620, 0xa8d0, 0xa900, 0xa9d0, 0xa9f0, 0xaa50, 0xabf0, 0xff10, 0x104a0, 0x10d30,
   0x11066, 0x110f0, 0x11136, 0x111d0, 0x112f0, 0x11450, 0x114d0, 0x11650, 0x116c0, 0x11730,
   0x118e0, 0x11950, 0x11c50, 0x11d50, 0x11da0, 0x16a60, 0x16ac0, 0x16b50, 0x1d7ce, 0x1d7d8,
   0x1d7e2, 0x1d7ec, 0x1d7f6, 0x1e140, 0x1e2f0, 0x1e950, 0x1fbf0]

/-- The value of a decimal digit of any script. -/
def digitValue? (c : Char) : Option Nat :=
  let n := c.toNat
  if n < 128 then if 48 ≤ n && n ≤ 57 then some (n - 48) else none
  else (decimalZeros.find? fun first => first ≤ n && n ≤ first + 9).map (n - ·)

/-- The blanks that a numeral may stand among: all of them but the four separator controls. -/
def isNumeralBlank (c : Char) : Bool := isBlank c && !(0x1c ≤ c.toNat && c.toNat ≤ 0x1f)

/-- Reads digits with single underscores between them, onto the value of those before.
`fresh` says that a digit has to come next. -/
def readDigits (fresh : Bool) (value : Nat) : Text → Option Nat
  | [] => if fresh then none else some value
  | c :: rest =>
    match digitValue? c with
    | some d => readDigits false (10 * value + d) rest
    | none => if c == '_' && !fresh then readDigits true value rest else none

namespace Text

/-- Reads a trimmed numeral with its sign. -/
def signedDigits? : Text → Option Int
  | '-' :: rest => (readDigits true 0 rest).map fun n => -(n : Int)
  | '+' :: rest => (readDigits true 0 rest).map Int.ofNat
  | digits => (readDigits true 0 digits).map Int.ofNat

/-- Reads an integer. -/
def integer? (t : Text) : Option Int :=
  signedDigits? (t.trim isNumeralBlank)

/-- What is said of a text that is no integer: the text is quoted, and cut short after 200
characters. -/
def notInteger (t : Text) : Text :=
  "invalid literal for int() with base 10: ".toList ++ t.quoted.take 200

end Text
end LogicTrainer
