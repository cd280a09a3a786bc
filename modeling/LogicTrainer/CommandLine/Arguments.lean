import LogicTrainer.Text.Numeral
import LogicTrainer.Text.Quoted

/-! Command line arguments.

An interface has options, each with no value, one, or all the words that follow, and one
positional argument, which may be followed by arguments of its own. `scan` reads the
arguments from left to right into a list of events: what is given, in the order in which it
is taken. Two strokes end the options. A long option may be cut short where that is not
ambiguous. An argument that starts with a stroke is no option if it is a negative number or
has a blank in it. -/
namespace LogicTrainer.CommandLine

/-- How many values an option takes. -/
inductive Arity where
  | none
  | one
  | many
  deriving DecidableEq, Repr

structure OptionSpec where
  /-- The ways to write the option. -/
  names : List Text
  arity : Arity
  deriving DecidableEq, Repr

/-- How messages name an option. -/
def OptionSpec.title (o : OptionSpec) : Text := Text.join ['/'] o.names

structure Interface where
  /-- The command up to here. -/
  program : Text
  options : List OptionSpec
  /-- How messages name the positional argument. -/
  positional : Text
  /-- Whether all that follows the positional argument belongs to it. -/
  greedy : Bool
  deriving DecidableEq, Repr

/-- One line that tells how the arguments are given. -/
def Interface.usage (i : Interface) : Text :=
  let optionUsage := fun (o : OptionSpec) =>
    let value := match o.arity with
      | .none => []
      | .one => " VALUE".toList
      | .many => " [VALUE ...]".toList
    " [".toList ++ o.names.headD [] ++ value ++ [']']
  "usage: ".toList ++ i.program ++ i.options.flatMap optionUsage ++ ' ' :: i.positional ++
    (if i.greedy then " ...".toList else [])

/-- Why the arguments are turned down. -/
inductive UsageError where
  | ambiguous (argument : Text) (matching : List Text)
  | needsOneArgument (option : Text)
  | ignoredArgument (option value : Text)
  | badValue (option message : Text)
  | badInteger (option value : Text)
  | badChoice (argument value : Text) (choices : List Text)
  | missing (argument : Text)
  | unrecognized (arguments : List Text)
  deriving DecidableEq, Repr

namespace UsageError

/-- A message about one argument. -/
def about (argument message : Text) : Text :=
  "argument ".toList ++ argument ++ ": ".toList ++ message

def message : UsageError → Text
  | .ambiguous argument matching =>
    "ambiguous option: ".toList ++ argument ++ " could match ".toList ++
      Text.join [',', ' '] matching
  | .needsOneArgument option => about option "expected one argument".toList
  | .ignoredArgument option value =>
    about option ("ignored explicit argument ".toList ++ value.quoted)
  | .badValue option message => about option message
  | .badInteger option value => about option ("invalid int value: ".toList ++ value.quoted)
  | .badChoice argument value choices =>
    about argument ("invalid choice: ".toList ++ value.quoted ++ " (choose from ".toList ++
      Text.join [',', ' '] (choices.map Text.quoted) ++ [')'])
  | .missing argument => "the following arguments are required: ".toList ++ argument
  | .unrecognized arguments => "unrecognized arguments: ".toList ++ Text.join [' '] arguments

end UsageError

/-- What follows the name of an option in the same argument. -/
inductive Attached where
  | nothing
  /-- A value after an equals sign. -/
  | value (t : Text)
  /-- What follows a single letter without a sign. -/
  | letters (t : Text)
  deriving DecidableEq, Repr

/-- What an argument is taken for. -/
inductive Word where
  | separator
  | plain
  | option (spec : OptionSpec) (name : Text) (attached : Attached)
  | unknownOption
  deriving DecidableEq, Repr

def twoStrokes : Text := ['-', '-']

/-- Whether nothing is left of an argument but a line end. -/
def isLineEnd (t : Text) : Bool := t == [] || t == ['\n']

/-- Whether a text is a negative number, with or without a fraction. A line end may follow. -/
def isNegativeNumber (t : Text) : Bool :=
  let isDigit := fun c => (digitValue? c).isSome
  match t with
  | '-' :: rest =>
    match rest.dropWhile isDigit with
    | '.' :: fraction =>
      (fraction.head?.map isDigit).getD false && isLineEnd (fraction.dropWhile isDigit)
    | left => (rest.head?.map isDigit).getD false && isLineEnd left
  | _ => false

/-- The part before the first equals sign, and the part after it if there is one. -/
def cutValue (t : Text) : Text × Attached :=
  match t.cut '=' with
  | some (name, value) => (name, .value value)
  | none => (t, .nothing)

/-- The options that an interface has, by the ways to write them. -/
def Interface.spellings (i : Interface) : List (Text × OptionSpec) :=
  i.options.flatMap fun o => o.names.map fun name => (name, o)

/-- The options that an argument may be short for. -/
def Interface.matching (i : Interface) (argument : Text) : List (Text × OptionSpec × Attached) :=
  if twoStrokes.isPrefixOf argument then
    let (start, value) := cutValue argument
    (i.spellings.filter fun (name, _) => start.isPrefixOf name).map fun (name, o) =>
      (name, o, value)
  else
    i.spellings.filterMap fun (name, o) =>
      if name = argument.take 2 then some (name, o, .letters (argument.drop 2))
      else if argument.isPrefixOf name then some (name, o, .nothing)
      else none

/-- What an argument is taken for while options may come. -/
def Interface.classify (i : Interface) (argument : Text) : Except UsageError Word :=
  if argument.head? ≠ some '-' then .ok .plain
  else
    match i.spellings.find? fun (name, _) => name == argument with
    | some (name, o) => .ok (.option o name .nothing)
    | none =>
      if argument.length = 1 then .ok .plain
      else
        let (start, value) := cutValue argument
        match value, i.spellings.find? fun (name, _) => name == start with
        | .value t, some (name, o) => .ok (.option o name (.value t))
        | _, _ =>
          match i.matching argument with
          | [(name, o, attached)] => .ok (.option o name attached)
          | [] =>
            if isNegativeNumber argument || argument.contains ' ' then .ok .plain
            else .ok .unknownOption
          | several => .error (.ambiguous argument (several.map (·.1)))

/-- What each argument is taken for. -/
def Interface.classifyAll (i : Interface) : List Text → Except UsageError (List (Text × Word))
  | [] => .ok []
  | argument :: rest => do
    if argument = twoStrokes then
      return (argument, .separator) :: rest.map fun t => (t, .plain)
    else
      let word ← i.classify argument
      return (argument, word) :: (← i.classifyAll rest)

/-- Something that is given on the command line. -/
inductive Event where
  | positional (arguments : List Text)
  | option (spec : OptionSpec) (arguments : List Text)
  | help
  deriving DecidableEq, Repr

/-- What was read: the events, the arguments that nothing took, and an error where reading
stopped. -/
structure Scan where
  events : List Event
  extras : List Text
  error : Option UsageError
  deriving DecidableEq, Repr

namespace Scan

def after (e : Event) (s : Scan) : Scan := {s with events := e :: s.events}

def afterExtra (argument : Text) (s : Scan) : Scan := {s with extras := argument :: s.extras}

def stopped (e : UsageError) : Scan := ⟨[], [], some e⟩

end Scan

def isPlain (item : Text × Word) : Bool := item.2 == .plain

/-- Takes the positional argument, with the separators around it and all that belongs to it. -/
def Interface.takePositional (i : Interface) (items : List (Text × Word)) :
    Option (List Text × List (Text × Word)) :=
  let isSeparator := fun (item : Text × Word) => item.2 == .separator
  let before := items.takeWhile isSeparator
  match items.dropWhile isSeparator with
  | [] => none
  | item :: rest =>
    if !isPlain item then none
    else if i.greedy then some (items.map (·.1), [])
    else
      some ((before ++ item :: rest.takeWhile isSeparator).map (·.1), rest.dropWhile isSeparator)

/-- The arguments without the first separator among them. -/
def withoutSeparator (arguments : List Text) : List Text := arguments.erase twoStrokes

/-- An option without a value that is a single letter, with more after it. The same letter
may come again; any other is never looked at, since help is given first. -/
def lettersEvent (spec : OptionSpec) (name : Text) : Text → Except UsageError Event
  | [] => .ok .help
  | '-' :: rest => .error (.ignoredArgument spec.title ('-' :: rest))
  | c :: rest =>
    if name = ['-', c] then
      match rest with
      | '=' :: value => .error (.ignoredArgument spec.title value)
      | letters => lettersEvent spec name letters
    else .ok .help

/-- An option with something attached in the same argument. -/
def attachedEvent (spec : OptionSpec) (name : Text) : Attached → Except UsageError Event
  | .nothing => .ok .help
  | .value t =>
    if spec.arity = .none then .error (.ignoredArgument spec.title t) else .ok (.option spec [t])
  | .letters t => if spec.arity = .none then lettersEvent spec name t else .ok (.option spec [t])

/-- Reads classified arguments; `done` says that the positional argument was taken. -/
def Interface.scanItems (i : Interface) : Nat → Bool → List (Text × Word) → Scan
  | 0, _, _ => ⟨[], [], none⟩
  | _, _, [] => ⟨[], [], none⟩
  | fuel + 1, done, (argument, word) :: rest =>
    match word with
    | .unknownOption => (i.scanItems fuel done rest).afterExtra argument
    | .option spec _ .nothing =>
      match spec.arity with
      | .none => (i.scanItems fuel done rest).after .help
      | .one =>
        match rest with
        | (value, .plain) :: rest => (i.scanItems fuel done rest).after (.option spec [value])
        | _ => .stopped (.needsOneArgument spec.title)
      | .many =>
        (i.scanItems fuel done (rest.dropWhile isPlain)).after
          (.option spec ((rest.takeWhile isPlain).map (·.1)))
    | .option spec name attached =>
      match attachedEvent spec name attached with
      | .ok event => (i.scanItems fuel done rest).after event
      | .error e => .stopped e
    | _ =>
      match if done then none else i.takePositional ((argument, word) :: rest) with
      | some (taken, rest) =>
        (i.scanItems fuel true rest).after
          (.positional (if i.greedy then taken else withoutSeparator taken))
      | none => (i.scanItems fuel done rest).afterExtra argument

/-- Reads arguments. -/
def Interface.scan (i : Interface) (arguments : List Text) : Scan :=
  match i.classifyAll arguments with
  | .ok items => i.scanItems (items.length + 1) false items
  | .error e => .stopped e

end LogicTrainer.CommandLine
