import LogicTrainer.Formula.Parser
import LogicTrainer.Reduction.Solve

/-! Reduction sessions.

A session takes one formula from its strict form over the substituted list to a single bit,
one move of the learner at a time. Its history only grows: the formula, the substituted
list, and a state for each accepted move. A formula that cannot be read starts as it was
typed. A move is turned down before substitution, after the end, where nothing can fire, and
where something else binds tighter; then nothing changes. -/
namespace LogicTrainer.Reduction

inductive StepKind where
  | formula
  | substituted
  | reduction
  deriving DecidableEq, Repr

/-- The short name of a kind. -/
def StepKind.code : StepKind → Text
  | .formula => "formula".toList
  | .substituted => "substituted".toList
  | .reduction => "reduction".toList

/-- A state of a session. -/
structure Step where
  index : Nat
  kind : StepKind
  tokens : List Token
  deriving DecidableEq, Repr

/-- A state on one line. -/
def Step.content (s : Step) : Text := Token.line s.tokens

/-- A state as it is kept in a history file. -/
def Step.record (s : Step) : Entries Json :=
  [("step".toList, .int s.index), ("kind".toList, .str s.kind.code),
    ("content".toList, .str s.content)]

inductive MoveStatus where
  | applied
  | orderViolation
  | notReducible
  | notReady
  | solved
  deriving DecidableEq, Repr

namespace MoveStatus

/-- The short name of a status. -/
def code : MoveStatus → Text
  | .applied => "applied".toList
  | .orderViolation => "order_violation".toList
  | .notReducible => "not_reducible".toList
  | .notReady => "not_ready".toList
  | .solved => "solved".toList

/-- What the learner is told. -/
def message : MoveStatus → Text
  | .applied => []
  | .orderViolation => "Wrong order! Reduce the higher-precedence operators first.".toList
  | .notReducible => "That token cannot be reduced yet.".toList
  | .notReady => "Substitute the variable values first.".toList
  | .solved => "The expression is already fully reduced.".toList

end MoveStatus

/-- A session: the states before the current one, the oldest first, and the current one. -/
structure Session where
  formula : Text
  assignment : Assignment
  past : List Step
  current : Step
  deriving DecidableEq, Repr

namespace Session

/-- The tokens that a formula starts from: those of its strict form, if it can be read. -/
def openingTokens (maxDepth : Int) (formula : Text) : List Token :=
  match Formula.ofText maxDepth formula with
  | .ok f => Token.ofFormula f.render
  | .error _ => Token.ofFormula formula

/-- A session of a formula under an assignment. -/
def start (formula : Text) (loose : Entries Json) (maxDepth : Int) : Session :=
  ⟨formula, Assignment.normalize loose, [], ⟨0, .formula, openingTokens maxDepth formula⟩⟩

/-- A session that starts from a list with bits already in it. -/
def ofTokens (ts : List Token) : Session :=
  ⟨Token.line ts, [], [], ⟨0, .substituted, collapse ts⟩⟩

/-- All states, the oldest first. -/
def history (s : Session) : List Step := s.past ++ [s.current]

def tokens (s : Session) : List Token := s.current.tokens

def substituted (s : Session) : Bool := s.current.kind != .formula

def isSolved (s : Session) : Bool := s.substituted && isTerminal s.tokens

/-- The value that the formula was reduced to. -/
def result (s : Session) : Option Bool :=
  match s.isSolved, s.tokens with
  | true, [.bit b] => some b
  | _, _ => none

/-- The session with one more state. -/
def append (s : Session) (kind : StepKind) (ts : List Token) : Session :=
  {s with past := s.history, current := ⟨s.history.length, kind, ts⟩}

/-- Substitutes the assigned values, if that has not been done. -/
def substitute (s : Session) : Option Step × Session :=
  if s.past.isEmpty && !s.substituted then
    let next :=
      s.append .substituted (collapse (substituteLoose s.assignment.loosen s.tokens))
    (some next.current, next)
  else (none, s)

/-- The operators that can fire now. -/
def reducible (s : Session) : List Candidate :=
  if s.substituted then Reduction.reducible s.tokens else []

/-- The moves that are allowed now. -/
def legalMoves (s : Session) : List Candidate :=
  if s.substituted then Reduction.legalMoves s.tokens else []

/-- What became of a move, and the state that it led to. -/
structure MoveResult where
  status : MoveStatus
  step : Option Step
  deriving DecidableEq, Repr

def MoveResult.accepted (r : MoveResult) : Bool := r.status == .applied

/-- Tries to fire the operator at an index. -/
def select (s : Session) (index : Int) : MoveResult × Session :=
  if !s.substituted then (⟨.notReady, none⟩, s)
  else if s.isSolved then (⟨.solved, none⟩, s)
  else
    match s.reducible.find? fun c => (c.index : Int) == index with
    | none => (⟨.notReducible, none⟩, s)
    | some chosen =>
      if chosen.rank < topRank s.reducible then (⟨.orderViolation, none⟩, s)
      else
        match fireAt? s.tokens chosen.index with
        | none => (⟨.notReducible, none⟩, s)
        | some fired =>
          let next := s.append .reduction (collapse fired)
          (⟨.applied, some next.current⟩, next)

/-- Selects the leftmost legal move until the session is solved or stuck, at most `fuel`
times. -/
def play : Nat → Session → Session
  | 0, s => s
  | fuel + 1, s =>
    if s.isSolved then s
    else
      match s.legalMoves with
      | [] => s
      | c :: _ => play fuel (s.select c.index).2

/-- Substitutes if that has not been done, and plays to the end: every move makes the list
shorter. -/
def solve (s : Session) : Option Bool × Session :=
  let ready := if s.substituted then s else s.substitute.2
  let done := play ready.tokens.length ready
  (done.result, done)

/-- The states as they are kept in a history file. -/
def records (s : Session) : List (Entries Json) := s.history.map Step.record

/-- What a learner may do in a session. -/
inductive Action where
  | substitute
  | select (index : Int)
  | solve
  deriving DecidableEq, Repr

/-- The session after an action. -/
def perform (s : Session) : Action → Session
  | .substitute => s.substitute.2
  | .select index => (s.select index).2
  | .solve => s.solve.2

/-- The session after a list of actions. -/
def run (s : Session) (actions : List Action) : Session := actions.foldl perform s

end Session
end LogicTrainer.Reduction
