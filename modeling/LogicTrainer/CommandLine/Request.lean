import LogicTrainer.CommandLine.Arguments
import LogicTrainer.Text.Blank
import LogicTrainer.Text.Capital

/-! Requests.

What may be asked for on the command line, and how it is read from the arguments. -/
namespace LogicTrainer.CommandLine

/-- A name and the truth value that is set for it, as they are typed. -/
abbrev Pair := Text × Text

/-- The kinds of practice problems. -/
inductive ProblemKind where
  | grouping
  | evaluation
  | table
  deriving DecidableEq, Repr

namespace ProblemKind

def all : List ProblemKind := [.grouping, .evaluation, .table]

/-- How a kind is asked for. -/
def name : ProblemKind → Text
  | .grouping => "syntax".toList
  | .evaluation => "evaluation".toList
  | .table => "table".toList

end ProblemKind

inductive Request where
  | canon (formula : Text)
  | eval (formula : Text) (pairs : List Pair)
  | table (formula : Text)
  | reduce (formula : Text) (pairs : List Pair) (historyLog : Option Text)
  | generate (kind : ProblemKind) (count : Int) (seed : Option Int)
  deriving DecidableEq, Repr

/-- A request with the log level that it is made at. -/
structure Invocation where
  logLevel : Option Text
  request : Request
  deriving DecidableEq, Repr

/-- Why no request was read. -/
inductive Refusal where
  | usage (program : Text) (error : UsageError)
  | help (program : Text)
  deriving DecidableEq, Repr

/-- The values that a pair may set. -/
def pairValues : List Text :=
  [['0'], ['1'], ['T'], ['F'], ['T', 'R', 'U', 'E'], ['F', 'A', 'L', 'S', 'E']]

/-- What is said of a text that sets nothing. -/
def notPair (t : Text) : Text := "expected NAME=0|1, got ".toList ++ t.quoted

/-- The name and the value that a text sets. -/
def pair? (t : Text) : Option Pair :=
  match t.cut '=' with
  | none => none
  | some (name, value) =>
    if name.stripped.isEmpty || !pairValues.contains value.stripped.upper then none
    else some (name.stripped, value.stripped)

/-- The option for help. -/
def helpOption : OptionSpec := ⟨[['-', 'h'], "--help".toList], .none⟩

def logLevelOption : OptionSpec := ⟨["--log-level".toList], .one⟩

def setOption : OptionSpec := ⟨["--set".toList], .many⟩

def historyLogOption : OptionSpec := ⟨["--history-log".toList], .one⟩

def countOption : OptionSpec := ⟨["--count".toList], .one⟩

def seedOption : OptionSpec := ⟨["--seed".toList], .one⟩

/-- The name of the program. -/
def programName : Text := "logictl".toList

/-- The arguments before a command. -/
def mainInterface : Interface :=
  ⟨programName, [helpOption, logLevelOption], "command".toList, true⟩

inductive Command where
  | canon
  | eval
  | table
  | reduce
  | generate
  deriving DecidableEq, Repr

namespace Command

def all : List Command := [.canon, .eval, .table, .reduce, .generate]

def name : Command → Text
  | .canon => "canon".toList
  | .eval => "eval".toList
  | .table => "table".toList
  | .reduce => "reduce".toList
  | .generate => "generate".toList

/-- The options of a command besides the one for help. -/
def options : Command → List OptionSpec
  | .canon => []
  | .eval => [setOption]
  | .table => []
  | .reduce => [setOption, historyLogOption]
  | .generate => [countOption, seedOption]

/-- The name of a command's positional argument. -/
def argument : Command → Text
  | .generate => "kind".toList
  | _ => "formula".toList

/-- The arguments after a command. -/
def interface (c : Command) : Interface :=
  ⟨programName ++ ' ' :: c.name, helpOption :: c.options, c.argument, false⟩

end Command

/-- What the arguments of a command have given so far. -/
structure Given where
  argument : Option Text
  pairs : List Pair
  historyLog : Option Text
  count : Int
  seed : Option Int
  deriving DecidableEq, Repr

/-- What a command takes where nothing is given. -/
def Given.nothing : Given := ⟨none, [], none, 1, none⟩

/-- A whole number as the value of an option. -/
def integerOf (option : OptionSpec) (value : Text) : Except UsageError Int :=
  match value.integer? with
  | some n => .ok n
  | none => .error (.badInteger option.title value)

/-- The pairs that texts set; the first that sets nothing is reported. -/
def pairsOf : List Text → Except UsageError (List Pair)
  | [] => .ok []
  | t :: rest =>
    match pair? t with
    | none => .error (.badValue setOption.title (notPair t))
    | some pair => (pairsOf rest).map (pair :: ·)

/-- Takes the value of an option. -/
def Given.takeValue (g : Given) (option : OptionSpec) (value : Text) : Except UsageError Given :=
  if option = historyLogOption then .ok {g with historyLog := some value}
  else if option = countOption then (integerOf option value).map fun n => {g with count := n}
  else (integerOf option value).map fun n => {g with seed := some n}

/-- Takes what an event gives to a command. -/
def Command.take (c : Command) (g : Given) : Event → Except Refusal Given
  | .help => .error (.help c.interface.program)
  | .positional arguments =>
    let value := arguments.headD []
    if c = .generate ∧ !(ProblemKind.all.map ProblemKind.name).contains value then
      .error (.usage c.interface.program
        (.badChoice c.argument value (ProblemKind.all.map ProblemKind.name)))
    else .ok {g with argument := some value}
  | .option option arguments =>
    if option.arity = .many then
      match pairsOf arguments with
      | .ok pairs => .ok {g with pairs := pairs}
      | .error e => .error (.usage c.interface.program e)
    else (g.takeValue option (arguments.headD [])).mapError (.usage c.interface.program)

/-- The request that a command makes of what is given. -/
def Command.request? (c : Command) (g : Given) : Option Request := do
  let argument ← g.argument
  match c with
  | .canon => return .canon argument
  | .eval => return .eval argument g.pairs
  | .table => return .table argument
  | .reduce => return .reduce argument g.pairs g.historyLog
  | .generate =>
    let kind ← ProblemKind.all.find? fun kind => kind.name == argument
    return .generate kind g.count g.seed

/-- Reads the arguments after a command: the request, and the arguments that nothing took. -/
def Command.read (c : Command) (arguments : List Text) : Except Refusal (Request × List Text) := do
  let scan := c.interface.scan arguments
  let given ← scan.events.foldlM c.take Given.nothing
  match scan.error with
  | some e => throw (.usage c.interface.program e)
  | none =>
    match c.request? given with
    | some request => return (request, scan.extras)
    | none => throw (.usage c.interface.program (.missing c.argument))

/-- What the arguments before and after the command have given so far. -/
structure MainGiven where
  logLevel : Option Text
  request : Option Request
  extras : List Text

/-- Takes what an event gives. -/
def MainGiven.take (g : MainGiven) : Event → Except Refusal MainGiven
  | .help => .error (.help programName)
  | .positional arguments =>
    let name := arguments.headD []
    match Command.all.find? fun c => c.name == name with
    | none =>
      .error (.usage programName
        (.badChoice mainInterface.positional name (Command.all.map Command.name)))
    | some c =>
      (c.read arguments.tail).map fun (request, extras) =>
        {g with request := some request, extras := extras}
  | .option _ arguments => .ok {g with logLevel := some (arguments.headD [])}

/-- Reads the arguments of the program. -/
def Invocation.read (arguments : List Text) : Except Refusal Invocation := do
  let scan := mainInterface.scan arguments
  let given ← scan.events.foldlM MainGiven.take ⟨none, none, []⟩
  match scan.error with
  | some e => throw (.usage programName e)
  | none =>
    match given.request with
    | none => throw (.usage programName (.missing mainInterface.positional))
    | some request =>
      match scan.extras ++ given.extras with
      | [] => return ⟨given.logLevel, request⟩
      | extras => throw (.usage programName (.unrecognized extras))

end LogicTrainer.CommandLine
