import LogicTrainer.Connective
import LogicTrainer.Atom

/-! Tokens.

A formula is written with negation, the binary connectives, two parentheses, the bits 0 and
1, and words. A word is any other text; whether it is an atom is not a token's concern. -/
namespace LogicTrainer

inductive Token where
  | neg
  | conn (op : Connective)
  | lparen
  | rparen
  | bit (value : Bool)
  | word (text : Text)
  deriving DecidableEq, Repr

namespace Token

/-- The token of a glyph: an operator or a parenthesis. -/
def ofGlyph? (c : Char) : Option Token :=
  if c == negationGlyph then some .neg
  else if c == '(' then some .lparen
  else if c == ')' then some .rparen
  else (Connective.all.find? (·.glyph == c)).map .conn

/-- Whether a character is a token of its own wherever it stands. -/
def isGlyph (c : Char) : Bool := (ofGlyph? c).isSome

/-- The token that a text is. -/
def ofText (t : Text) : Token :=
  match t with
  | ['0'] => .bit false
  | ['1'] => .bit true
  | [c] => (ofGlyph? c).getD (.word t)
  | _ => .word t

/-- How a token is written. -/
def text : Token → Text
  | .neg => [negationGlyph]
  | .conn op => [op.glyph]
  | .lparen => ['(']
  | .rparen => [')']
  | .bit value => Atom.bit value
  | .word t => t

/-- The token of an operator. -/
def ofOperator : Operator → Token
  | .not => .neg
  | .binary op => .conn op

/-- Whether a token may stand at a leaf of a formula. -/
def isAtom : Token → Bool
  | .bit _ => true
  | .word t => Atom.isAtom t
  | _ => false

/-- Whether a token is an operator. -/
def isConnective : Token → Bool
  | .neg => true
  | .conn _ => true
  | _ => false

/-- The number of operators in a token list. -/
def connectives (ts : List Token) : Nat := ts.countP isConnective

theorem connectives_append (a b : List Token) :
    connectives (a ++ b) = connectives a + connectives b := List.countP_append

/-- The variables that a token list names, in order. -/
def «variables» (ts : List Token) : List Text :=
  Atom.variables.filter fun v => ts.any fun t => Atom.asVariable? t.text == some v

/-- Whether the parentheses close in order, with `depth` of them open before. -/
def balancedFrom : Nat → List Token → Bool
  | depth, [] => depth == 0
  | depth, .lparen :: rest => balancedFrom (depth + 1) rest
  | 0, .rparen :: _ => false
  | depth + 1, .rparen :: rest => balancedFrom depth rest
  | depth, _ :: rest => balancedFrom depth rest

/-- Whether every parenthesis has its partner. -/
def isBalanced (ts : List Token) : Bool := balancedFrom 0 ts

/-- A token list on one line: single blanks between tokens, none inside a parenthesis. -/
def line : List Token → Text
  | [] => []
  | [t] => t.text
  | a :: b :: rest =>
    a.text ++ (if a = .lparen ∨ b = .rparen then [] else [' ']) ++ line (b :: rest)

theorem ofText_text_of_operator (op : Operator) : ofText (ofOperator op).text = ofOperator op := by
  rcases op with _ | op
  · decide
  · cases op <;> decide

/-- What is written as a glyph is read back as the same token. -/
theorem ofText_text {t : Token} (h : ∀ w, t ≠ .word w) : ofText t.text = t := by
  match t with
  | .neg | .lparen | .rparen => decide
  | .conn op => exact ofText_text_of_operator (.binary op)
  | .bit true | .bit false => rfl
  | .word w => exact absurd rfl (h w)

end Token
end LogicTrainer
