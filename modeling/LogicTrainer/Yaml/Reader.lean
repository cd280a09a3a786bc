import LogicTrainer.Json.Kind
import LogicTrainer.Yaml.Scalar
import LogicTrainer.Text.Lines

/-! Reading settings documents.

The part of YAML that settings are written in: block mappings and lists by indentation, flow
mappings and lists in brackets, plain and quoted scalars, comments, and the marks around a
document. A document is read from its first character to its last with a cursor that knows
its column. Tabs are no indentation. Anything else is unreadable, and so is a second
document.

The readers have fuel, one unit for each step down or along; `document?` gives them enough. -/
namespace LogicTrainer.Yaml

/-- What is left of a document, and the column that it starts in. -/
structure Cursor where
  column : Nat
  rest : Text
  /-- Whether a line was begun since the last token. -/
  fresh : Bool
  deriving DecidableEq, Repr

namespace Cursor

/-- Passes over blanks, line ends and comments. -/
def skipFrom (column : Nat) (fresh comment : Bool) : Text → Cursor
  | [] => ⟨column, [], fresh⟩
  | c :: rest =>
    if c == '\n' then skipFrom 0 true false rest
    else if comment then skipFrom column fresh true rest
    else if c == ' ' then skipFrom (column + 1) fresh false rest
    else if c == '#' then skipFrom column fresh true rest
    else ⟨column, c :: rest, fresh⟩

/-- The next token. -/
def skip (c : Cursor) : Cursor := skipFrom c.column false false c.rest

/-- Passes over characters of the same line. -/
def past (c : Cursor) (count : Nat) : Cursor := ⟨c.column + count, c.rest.drop count, false⟩

/-- Whether what follows a mark is not part of the same word. -/
def endsWord : Text → Bool
  | [] => true
  | c :: _ => c == ' ' || c == '\n' || c == '\t'

/-- Whether three given characters stand alone at the start of the line. -/
def atMark (mark : Char) (c : Cursor) : Bool :=
  match c.rest with
  | x :: y :: z :: rest =>
    c.column == 0 && x == mark && y == mark && z == mark && endsWord rest
  | _ => false

/-- Whether the document ends here. -/
def atEnd (c : Cursor) : Bool := c.rest.isEmpty || c.atMark '-' || c.atMark '.'

/-- Whether a list item starts here. -/
def atItem (c : Cursor) : Bool :=
  match c.rest with
  | '-' :: rest => endsWord rest && !c.atMark '-'
  | _ => false

/-- Whether a colon that ends a key stands here. -/
def atColon (c : Cursor) : Bool :=
  match c.rest with
  | ':' :: rest => endsWord rest
  | _ => false

/-- Whether what starts here may be a key that ends at a colon: both are on one line, and not
too far apart. -/
def mayKey (c colon : Cursor) : Bool :=
  let length := c.rest.length - colon.rest.length
  length ≤ 1024 && !(c.rest.take length).contains '\n'

end Cursor

/-- Whether a plain scalar may start with a character before others. -/
def startsPlain (flow : Bool) (c : Char) (rest : Text) : Bool :=
  !(" \t\n-?:,[]\x7b\x7d#&*!|>\x27\"%@\x60".toList.contains c) ||
    (!Cursor.endsWord rest && (c == '-' || (!flow && (c == '?' || c == ':'))))

/-- Whether a character is a bracket or a comma. -/
def isFlowMark (c : Char) : Bool := ",[]\x7b\x7d".toList.contains c

/-- The part of a plain scalar on one line, and what is left. -/
def plainRun (flow afterBlank : Bool) : Text → Text × Text
  | [] => ([], [])
  | c :: rest =>
    if c == '\n' || c == '\t' || (c == '#' && afterBlank) ||
        (c == ':' && (Cursor.endsWord rest || (flow && (rest.head?.map isFlowMark).getD false))) ||
        (flow && (c == '?' || isFlowMark c)) then ([], c :: rest)
    else
      let (run, left) := plainRun flow (c == ' ') rest
      (c :: run, left)

/-- What a number of line ends inside a scalar is read as: one is a blank, and of several
the first does not count. -/
def foldedBreaks (count : Nat) : Text :=
  if count ≤ 1 then [' '] else List.replicate (count - 1) '\n'

/-- How many line ends there are before the next character, what is left there, and its
column. -/
def breaksAhead (count column : Nat) : Text → Nat × Cursor
  | [] => (count, ⟨column, [], true⟩)
  | c :: rest =>
    if c == '\n' then breaksAhead (count + 1) 0 rest
    else if c == ' ' then breaksAhead count (column + 1) rest
    else (count, ⟨column, c :: rest, true⟩)

/-- A plain scalar's text, and the cursor after it. Further lines belong to it while they are
indented by at least `least`. -/
def plainText (flow : Bool) (least : Nat) : Nat → Cursor → Text × Cursor
  | 0, c => ([], c)
  | fuel + 1, c =>
    let (run, left) := plainRun flow false c.rest
    let text := (run.reverse.dropWhile (· == ' ')).reverse
    let here : Cursor := ⟨c.column + run.length, left, false⟩
    match left with
    | '\n' :: _ =>
      let (count, next) := breaksAhead 0 0 left
      if next.atEnd || next.rest.head? == some '#' || (!flow && next.column < least) ||
          (plainRun flow true next.rest).1.isEmpty then (text, here)
      else
        let (more, after) := plainText flow least fuel next
        (text ++ foldedBreaks count ++ more, after)
    | _ => (text, here)

/-- The character that a letter stands for after a backslash in double quotation marks. -/
def escape? : Char → Option Char
  | '0' => some (Char.ofNat 0)
  | 'a' => some (Char.ofNat 7)
  | 'b' => some (Char.ofNat 8)
  | 't' => some '\t'
  | '\t' => some '\t'
  | 'n' => some '\n'
  | 'v' => some (Char.ofNat 11)
  | 'f' => some (Char.ofNat 12)
  | 'r' => some '\r'
  | 'e' => some (Char.ofNat 27)
  | ' ' => some ' '
  | '"' => some '"'
  | '\\' => some '\\'
  | '/' => some '/'
  | 'N' => some (Char.ofNat 0x85)
  | '_' => some (Char.ofNat 0xa0)
  | 'L' => some (Char.ofNat 0x2028)
  | 'P' => some (Char.ofNat 0x2029)
  | _ => none

/-- How many hexadecimal digits follow a letter after a backslash. -/
def escapeWidth? : Char → Option Nat
  | 'x' => some 2
  | 'u' => some 4
  | 'U' => some 8
  | _ => none

/-- A quoted scalar after its opening mark: its text, and the cursor after it. -/
def quotedText? (mark : Char) : Nat → Cursor → Option (Text × Cursor)
  | 0, _ => none
  | fuel + 1, c =>
    match c.rest with
    | [] => none
    | x :: rest =>
      let next : Cursor := c.past 1
      if x == mark then
        if mark == '\x27' && rest.head? == some mark then do
          let (text, after) ← quotedText? mark fuel (c.past 2)
          some (mark :: text, after)
        else some ([], next)
      else if x == '\\' && mark == '"' then
        match rest with
        | [] => none
        | '\n' :: _ => do
          let (count, ahead) := breaksAhead 0 0 rest
          let (text, after) ← quotedText? mark fuel ahead
          some (List.replicate (count - 1) '\n' ++ text, after)
        | e :: more =>
          match escapeWidth? e with
          | some width => do
            let digits := more.take width
            if digits.length < width then none
            else do
              let code ← digits.foldlM (fun n d => (Json.hexValue? d).map (16 * n + ·)) 0
              let (text, after) ← quotedText? mark fuel (c.past (2 + width))
              some (Char.ofNat code :: text, after)
          | none => do
            let decoded ← escape? e
            let (text, after) ← quotedText? mark fuel (c.past 2)
            some (decoded :: text, after)
      else if x == ' ' || x == '\t' || x == '\n' then
        let isGap := fun y => y == ' ' || y == '\t'
        let gap := c.rest.takeWhile isGap
        match c.rest.dropWhile isGap with
        | '\n' :: left => do
          let (count, ahead) := breaksAhead 1 0 left
          if ahead.atEnd then none
          else do
            let (text, after) ← quotedText? mark fuel ahead
            some (foldedBreaks count ++ text, after)
        | _ => do
          let (text, after) ← quotedText? mark fuel (c.past (max gap.length 1))
          some (gap ++ text, after)
      else do
        let (text, after) ← quotedText? mark fuel next
        some (x :: text, after)

/-- A scalar: its value, and the cursor after it. -/
def scalarAt? (flow : Bool) (least fuel : Nat) (c : Cursor) : Option (Json × Cursor) :=
  match c.rest with
  | [] => none
  | x :: rest =>
    if x == '"' || x == '\x27' then
      (quotedText? x fuel (c.past 1)).map fun (text, after) => (.str text, after)
    else if startsPlain flow x rest then
      let (text, after) := plainText flow least fuel c
      some (scalar text, after)
    else none

mutual

/-- A value inside brackets. -/
def flowValue? : Nat → Cursor → Option (Json × Cursor)
  | 0, _ => none
  | fuel + 1, c =>
    match c.rest with
    | '[' :: _ => (flowItems? fuel (c.past 1).skip).map fun (items, after) => (.arr items, after)
    | '\x7b' :: _ =>
      (flowMembers? fuel (c.past 1).skip).map fun (members, after) =>
        (.obj (Entries.ofPairs members), after)
    | _ => scalarAt? true 0 fuel c

/-- The items of a list in brackets, up to the closing one. A pair with a colon is an item
by itself. -/
def flowItems? : Nat → Cursor → Option (List Json × Cursor)
  | 0, _ => none
  | fuel + 1, c =>
    match c.rest with
    | ']' :: _ => some ([], c.past 1)
    | _ => do
      let (first, after) ← flowValue? fuel c
      let (item, after) ←
        if after.skip.rest.head? == some ':' && c.mayKey after.skip then do
          let (value, after) ← flowPair? fuel (after.skip.past 1).skip
          pure (.obj [(first.words, value)], after)
        else pure (first, after)
      match after.skip.rest with
      | ',' :: _ => do
        let (items, after) ← flowItems? fuel (after.skip.past 1).skip
        some (item :: items, after)
      | ']' :: _ => some ([item], after.skip.past 1)
      | _ => none

/-- The value after a colon in brackets, which may be missing. -/
def flowPair? : Nat → Cursor → Option (Json × Cursor)
  | 0, _ => none
  | fuel + 1, c =>
    match c.rest with
    | ',' :: _ | ']' :: _ | '\x7d' :: _ => some (.null, c)
    | _ => flowValue? fuel c

/-- The members of a mapping in braces, up to the closing one. -/
def flowMembers? : Nat → Cursor → Option (List (Text × Json) × Cursor)
  | 0, _ => none
  | fuel + 1, c =>
    match c.rest with
    | '\x7d' :: _ => some ([], c.past 1)
    | _ => do
      let (key, after) ← scalarAt? true 0 fuel c
      let (value, after) ←
        if after.skip.rest.head? == some ':' && c.mayKey after.skip then
          flowPair? fuel (after.skip.past 1).skip
        else pure (.null, after)
      match after.skip.rest with
      | ',' :: _ => do
        let (members, after) ← flowMembers? fuel (after.skip.past 1).skip
        some ((key.words, value) :: members, after)
      | '\x7d' :: _ => some ([(key.words, value)], after.skip.past 1)
      | _ => none

end

mutual

/-- A block at a token: a list, a mapping, or a single value. Further lines of a scalar are
indented by at least `least`. Where no keys are allowed, a value is not followed by a colon. -/
def block? (keys : Bool) (least : Nat) : Nat → Cursor → Option (Json × Cursor)
  | 0, _ => none
  | fuel + 1, c =>
    if c.atItem then
      if keys then (blockItems? c.column fuel c).map fun (items, after) => (.arr items, after)
      else none
    else if c.rest.head? == some '[' || c.rest.head? == some '\x7b' then do
      let (value, after) ← flowValue? fuel c
      if after.skip.rest.head? == some ':' && !after.skip.fresh then none else some (value, after)
    else do
      let (value, after) ← scalarAt? false least fuel c
      if after.skip.atColon && !after.skip.fresh then
        if keys && c.mayKey after.skip then do
          let (members, after) ← blockMembers? c.column fuel c
          some (.obj (Entries.ofPairs members), after)
        else none
      else some (value, after)

/-- The items of a list at a column. -/
def blockItems? (column : Nat) : Nat → Cursor → Option (List Json × Cursor)
  | 0, _ => none
  | fuel + 1, c =>
    if c.column == column && c.atItem && !c.atEnd then do
      let next := (c.past 1).skip
      let (item, after) ←
        if next.atEnd || (next.fresh && next.column ≤ column) then pure (Json.null, next)
        else block? true (column + 1) fuel next
      let (items, after) ← blockItems? column fuel after.skip
      some (item :: items, after)
    else some ([], c)

/-- The members of a mapping at a column. -/
def blockMembers? (column : Nat) : Nat → Cursor → Option (List (Text × Json) × Cursor)
  | 0, _ => none
  | fuel + 1, c =>
    if c.atEnd || c.column < column then some ([], c)
    else if c.column > column then none
    else do
      let (key, after) ← scalarAt? false (column + 1) fuel c
      if !(after.skip.atColon && c.mayKey after.skip) then none
      else do
        let next := (after.skip.past 1).skip
        let (value, after) ←
          if next.atEnd then pure (Json.null, next)
          else if !next.fresh then block? false (column + 1) fuel next
          else if next.column == column && next.atItem then
            (blockItems? column fuel next).map fun (items, after) => (Json.arr items, after)
          else if next.column ≤ column then pure (Json.null, next)
          else block? true (column + 1) fuel next
        let (members, after) ← blockMembers? column fuel after.skip
        some ((key.words, value) :: members, after)

end

/-- Whether nothing but comments and closing marks is left. -/
def isOver : Nat → Cursor → Bool
  | 0, _ => false
  | fuel + 1, c =>
    if c.rest.isEmpty then true
    else if c.atMark '.' then isOver fuel (c.past 3).skip
    else false

/-- Whether a document may hold a character: controls other than line ends and tabs are out. -/
def isReadable (c : Char) : Bool :=
  let n := c.toNat
  n == 9 || n == 10 || n == 13 || (0x20 ≤ n && n ≤ 0x7e) || n == 0x85 ||
    (0xa0 ≤ n && n ≠ 0xfffe && n ≠ 0xffff)

/-- The value of a document; nothing for an empty one. -/
def document? (source : Text) : Option Json := do
  if !source.all isReadable then none
  let text := source.unifyNewlines
  let fuel := 8 * text.length + 16
  let start := (Cursor.mk 0 text true).skip
  let marked := start.atMark '-'
  let body := if marked then (start.past 3).skip else start
  if body.atEnd then
    if (marked || body.rest.isEmpty) && isOver fuel body then some .null else none
  else do
    let (value, after) ← block? (body.fresh || !marked) 0 fuel body
    if isOver fuel after.skip then some value else none

end LogicTrainer.Yaml
