import LogicTrainer.CommandLine.Request
import LogicTrainer.Grouping
import LogicTrainer.TruthTable.Printed
import LogicTrainer.Reduction.Session
import LogicTrainer.Problem.Exercise
import LogicTrainer.Random.Twister

/-! Commands.

What each command prints, line by line, and the status that it leaves: zero, or one where
the formula cannot be read. -/
namespace LogicTrainer.CommandLine

/-- The printed lines and the status of a command. -/
structure Report where
  lines : List Text
  status : Nat
  deriving DecidableEq, Repr

/-- The printed text: every line with its end. -/
def Report.text (r : Report) : Text := r.lines.flatMap fun line => line ++ ['\n']

/-- The assignment that pairs make: of several pairs with one spelling the last decides, and
spellings are told apart until all pairs are taken. -/
def assignmentOf (pairs : List Pair) : Assignment :=
  Assignment.normalize ((Entries.ofPairs pairs).map fun entry => (entry.1, .str entry.2))

/-- The strict form of a formula, and how the formula is grouped. -/
def canon (maxDepth : Int) (formula : Text) : Report :=
  let verdict := Grouping.classify maxDepth formula
  let message := verdict.status.message
  match verdict.canonical, verdict.failure with
  | some form, _ =>
    let remark := if message.isEmpty then [] else ':' :: ' ' :: message
    ⟨[form, verdict.status.code.upper ++ remark], 0⟩
  | none, failure =>
    let cause := (failure.map ParseFailure.code).getD []
    ⟨["INVALID: ".toList ++ message ++ " (".toList ++ cause ++ [')']], 1⟩

/-- The value of a formula. -/
def eval (maxDepth : Int) (formula : Text) (pairs : List Pair) : Report :=
  match Formula.ofText maxDepth formula with
  | .error failure => ⟨["INVALID: ".toList ++ failure.code], 1⟩
  | .ok f => ⟨[Atom.bit (f.evaluate (assignmentOf pairs).loosen)], 0⟩

/-- What is printed of a formula that cannot be read. -/
def notParsed : Report := ⟨["INVALID: formula does not parse".toList], 1⟩

/-- The truth table of a formula. -/
def table (maxDepth : Int) (formula : Text) : Report :=
  let t := TruthTable.build maxDepth formula
  if t.applicable then ⟨t.lines, 0⟩
  else
    match Formula.ofText maxDepth formula with
    | .error _ => notParsed
    | .ok _ => ⟨["Truth table not applicable: formula has no variables".toList], 0⟩

/-- The line of a state. -/
def stepLine (s : Reduction.Step) : Text :=
  Text.alignRight 3 (Text.ofNat s.index) ++ " [".toList ++ s.kind.code ++ "] ".toList ++ s.content

/-- The session that is played for a formula, if it can be read. -/
def reduction? (maxDepth : Int) (formula : Text) (pairs : List Pair) : Option Reduction.Session :=
  match Formula.ofText maxDepth formula with
  | .error _ => none
  | .ok _ => some (Reduction.Session.start formula (assignmentOf pairs).loosen maxDepth).solve.2

/-- The states of a session. -/
def reduce (maxDepth : Int) (formula : Text) (pairs : List Pair) : Report :=
  match reduction? maxDepth formula pairs with
  | none => notParsed
  | some session => ⟨session.history.map stepLine, 0⟩

/-- The line of a problem. -/
def problemLine {σ : Type} (src : Source σ) (bounds : Problem.Bounds) : ProblemKind → Draw σ Text
  | .grouping => do
    let p ← Problem.grouping src bounds
    return p.raw ++ '\t' :: p.expected
  | .evaluation => do
    let p ← Problem.evaluation src bounds
    return p.formula ++ '\t' ::
      Text.join [' '] (p.assignment.map fun entry => entry.1 ++ '=' :: Atom.bit entry.2)
  | .table => Problem.table src bounds

/-- The lines of a number of problems. -/
def problemLines {σ : Type} (src : Source σ) (bounds : Problem.Bounds) (kind : ProblemKind) :
    Nat → Draw σ (List Text)
  | 0 => return []
  | count + 1 => do
    let line ← problemLine src bounds kind
    return line :: (← problemLines src bounds kind count)

/-- A number of problems, drawn from a seed. -/
def generate (bounds : Problem.Bounds) (kind : ProblemKind) (count seed : Int) :
    Except DrawError Report :=
  match (problemLines Twister.source bounds kind count.toNat).run (.ofSeed seed) with
  | .ok (lines, _) => .ok ⟨lines, 0⟩
  | .error e => .error e

end LogicTrainer.CommandLine
