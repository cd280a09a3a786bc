/-! Texts.

A text is the list of its characters, so lengths count code points, order is by code point,
and everything said about lists can be said about texts. The operations here are those of
laying text out: joining, trimming, padding, and the decimal digits of a number. -/
namespace LogicTrainer

/-- A piece of text, character by character. -/
abbrev Text := List Char

namespace Text

/-- Removes the characters of a class from both ends. -/
def trim (drop : Char → Bool) (t : Text) : Text :=
  ((t.dropWhile drop).reverse.dropWhile drop).reverse

/-- The pieces with a separator between neighbours. -/
def join (separator : Text) (pieces : List Text) : Text :=
  separator.intercalate pieces

/-- Cuts at the first occurrence of a character, which is in neither half. -/
def cut (mark : Char) (t : Text) : Option (Text × Text) :=
  match t.dropWhile (· != mark) with
  | [] => none
  | _ :: rest => some (t.takeWhile (· != mark), rest)

/-- Blanks on both sides up to a width. When the padding is odd, the spare blank goes left
in an odd width and right in an even one. -/
def centre (width : Nat) (t : Text) : Text :=
  let pad := width - t.length
  let left := pad / 2 + pad % 2 * (width % 2)
  List.replicate left ' ' ++ t ++ List.replicate (pad - left) ' '

/-- A text is centred in the width, or keeps its length if it is longer. -/
theorem length_centre (width : Nat) (t : Text) : (t.centre width).length = max width t.length := by
  have : width % 2 < 2 := Nat.mod_lt _ (by decide)
  have : (width - t.length) % 2 * (width % 2) ≤ (width - t.length) % 2 := by
    have := Nat.mul_le_mul_left ((width - t.length) % 2) (show width % 2 ≤ 1 by omega)
    omega
  simp only [centre, List.length_append, List.length_replicate]
  omega

/-- Blanks on the left up to a width. -/
def alignRight (width : Nat) (t : Text) : Text :=
  List.replicate (width - t.length) ' ' ++ t

/-- Whether one text comes no later than another in code point order. -/
def noLater : Text → Text → Bool
  | [], _ => true
  | _ :: _, [] => false
  | a :: as, b :: bs => a.toNat < b.toNat || (a == b && noLater as bs)

/-- A number in decimal. -/
def ofNat (n : Nat) : Text := Nat.toDigits 10 n

/-- An integer in decimal, with a minus sign where it is negative. -/
def ofInt : Int → Text
  | .ofNat n => ofNat n
  | .negSucc n => '-' :: ofNat (n + 1)

/-- The lower-case hexadecimal digits of a number, at least `width` of them. -/
def hex (width n : Nat) : Text :=
  let digits := Nat.toDigits 16 n
  List.replicate (width - digits.length) '0' ++ digits

end Text
end LogicTrainer
