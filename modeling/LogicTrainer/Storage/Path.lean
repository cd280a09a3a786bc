import LogicTrainer.Text.Basic

/-! File paths.

A path is a root and the names on the way. Empty names and single dots are left out, double
dots stay. A path may start with one slash or with exactly two; more than two count as one. -/
namespace LogicTrainer

structure Path where
  /-- No slash, one, or two. -/
  root : Text
  parts : List Text
  deriving DecidableEq, Repr

namespace Path

/-- The pieces between slashes. -/
def pieces : Text → List Text
  | [] => [[]]
  | c :: rest =>
    if c = '/' then [] :: pieces rest
    else
      match pieces rest with
      | piece :: more => (c :: piece) :: more
      | [] => [[c]]

/-- The root that a text starts with. -/
def rootOf : Text → Text
  | '/' :: '/' :: '/' :: _ => ['/']
  | '/' :: '/' :: _ => ['/', '/']
  | '/' :: _ => ['/']
  | _ => []

/-- The path that a text spells. -/
def ofText (t : Text) : Path :=
  ⟨rootOf t, (pieces t).filter fun piece => piece != [] && piece != ['.']⟩

/-- How a path is written; the path of nothing is a dot. -/
def text (p : Path) : Text :=
  if p.root.isEmpty && p.parts.isEmpty then ['.'] else p.root ++ Text.join ['/'] p.parts

/-- The path without its last name. -/
def parent (p : Path) : Path := {p with parts := p.parts.dropLast}

end Path
end LogicTrainer
