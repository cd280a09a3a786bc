import LogicTrainer.Formula.Basic
import LogicTrainer.Token.Lexer

/-! Reading formulas.

A token list is cut at its loosest binary connective outside all parentheses, the rightmost
of them where there are several, so equal connectives group to the left. Only a list with no
such connective may start with a negation, so negation binds tightest. Parentheses around a
whole list are dropped first.

Reading always gives an answer: a formula, or the reason why there is none. `parse` takes
the depth that a formula may have. Every level of a formula is read by a call inside the call
for the level above, and `parseOn` also takes the number of calls that the stack has room for:
a formula that is nested deeper is too deep, however much is allowed. -/
namespace LogicTrainer

/-- Why a token list is no formula. -/
inductive ParseFailure where
  | emptyOperand
  | unbalancedParentheses
  | unrecognizedToken
  | malformed
  | tooDeep
  deriving DecidableEq, Repr

/-- The short name of a failure. -/
def ParseFailure.code : ParseFailure → Text
  | .emptyOperand => "empty_operand".toList
  | .unbalancedParentheses => "unbalanced_parentheses".toList
  | .unrecognizedToken => "unrecognized_token".toList
  | .malformed => "malformed".toList
  | .tooDeep => "too_deep".toList

/-- The depth that formulas may have unless something else is asked for. -/
def defaultMaxDepth : Int := 200

/-- The calls inside one another that the stack has room for unless it is set up otherwise. Those
that are under way when reading starts are among them. -/
def standardStack : Nat := 1000

/-- The depth that formulas may have where one is asked for on a stack: the first call reads a
formula of depth zero. -/
def allowedDepth (stack : Nat := standardStack) (requested : Int) : Int :=
  min requested (stack - 1)

/-- Why reading stops: the tokens spell no formula, or no call is left on the stack. -/
inductive Stop where
  | failure (cause : ParseFailure)
  | stackFull
  deriving DecidableEq, Repr

/-- The failure that is reported. What the stack has no room for is too deep. -/
def Stop.cause : Stop → ParseFailure
  | .failure cause => cause
  | .stackFull => .tooDeep

namespace Token

/-- A list without the parentheses around the whole of it. -/
def stripOuter : List Token → List Token
  | .lparen :: rest =>
    if rest.getLast? = some .rparen ∧ isBalanced rest.dropLast then stripOuter rest.dropLast
    else .lparen :: rest
  | ts => ts
termination_by ts => ts.length
decreasing_by simp only [List.length_cons, List.length_dropLast]; omega

/-- A token list cut in two at a binary connective. -/
structure Split where
  left : List Token
  op : Connective
  right : List Token
  deriving DecidableEq, Repr

/-- A split of a list with one more token in front. -/
def Split.after (t : Token) (s : Split) : Split := ⟨t :: s.left, s.op, s.right⟩

/-- Whether a connective binds looser than that of the split to its right. -/
def looser (op : Connective) : Option Split → Bool
  | none => true
  | some s => op.rank < s.op.rank

/-- From right to left: how many more parentheses close than open, and the loosest
connective met where none was open. -/
def scan : List Token → Int × Option Split
  | [] => (0, none)
  | t :: rest =>
    let (excess, best) := scan rest
    match t with
    | .rparen => (excess + 1, best.map (·.after t))
    | .lparen => (excess - 1, best.map (·.after t))
    | .conn op =>
      if excess = 0 ∧ looser op best then (excess, some ⟨[], op, rest⟩)
      else (excess, best.map (·.after t))
    | _ => (excess, best.map (·.after t))

/-- The split at the loosest connective outside all parentheses, the rightmost of several. -/
def findSplit (ts : List Token) : Option Split := (scan ts).2

end Token

namespace Formula
open Token

/-- Reads one level of a balanced list. `operand` reads the level below, and `fail` reports why
there is no formula. -/
def parseLevel {ε : Type} (fail : ParseFailure → ε) (operand : List Token → Except ε Formula)
    (ts : List Token) : Except ε Formula :=
  match stripOuter ts with
  | [] => .error (fail .emptyOperand)
  | [t] => if t.isAtom then .ok (.atom t.text) else .error (fail .unrecognizedToken)
  | t :: rest =>
    match findSplit (t :: rest) with
    | some s => do
      let left ← operand s.left
      let right ← operand s.right
      return .binary s.op left right
    | none =>
      if t = .neg then return .neg (← operand rest)
      else .error (fail .malformed)

/-- Reads a balanced list as a formula with fewer than `room` operators above one another. -/
def parseBalanced : Nat → List Token → Except ParseFailure Formula
  | 0, _ => .error .tooDeep
  | room + 1, ts => parseLevel (fun cause => cause) (parseBalanced room) ts

/-- Reads a balanced list on a stack with room for `stack` calls. Every call takes its place on
the stack before it looks at the depth. -/
def parseBalancedOn : Nat → Nat → List Token → Except Stop Formula
  | 0, _, _ => .error .stackFull
  | _ + 1, 0, _ => .error (.failure .tooDeep)
  | stack + 1, room + 1, ts => parseLevel .failure (parseBalancedOn stack room) ts

/-- Reads a token list as a formula of at most the given depth. -/
def parse (maxDepth : Int) (ts : List Token) : Except ParseFailure Formula :=
  if isBalanced ts then parseBalanced (maxDepth + 1).toNat ts
  else .error .unbalancedParentheses

/-- Reads a token list on a stack, up to where reading stops. -/
def readOn (stack : Nat) (maxDepth : Int) (ts : List Token) : Except Stop Formula :=
  if isBalanced ts then parseBalancedOn stack (maxDepth + 1).toNat ts
  else .error (.failure .unbalancedParentheses)

/-- Reads a token list on a stack as a formula of at most the given depth. -/
def parseOn (stack : Nat) (maxDepth : Int) (ts : List Token) : Except ParseFailure Formula :=
  (readOn stack maxDepth ts).mapError Stop.cause

/-- Reads a text as a formula of at most the given depth. -/
def ofText (maxDepth : Int) (t : Text) : Except ParseFailure Formula :=
  parse maxDepth (Token.ofFormula t)

/-- The formula that was read, or the mark of an error. -/
def orErrorMark : Except ParseFailure Formula → Formula
  | .ok f => f
  | .error _ => errorMark

/-- Why nothing was read. -/
def failure? : Except ParseFailure Formula → Option ParseFailure
  | .ok _ => none
  | .error e => some e

/-- The strict form of the formula that a text spells. -/
def canonical? (maxDepth : Int) (t : Text) : Option Text :=
  (ofText maxDepth t).toOption.map render

end Formula
end LogicTrainer
