import LogicTrainer.Connective

/-! Spellings.

Operators and parentheses may be typed in other ways. The spellings are taken out one after
the other, the longest first, so that a double arrow is not read as a single one after a
stroke. -/
namespace LogicTrainer

/-- The other spellings and the glyphs they stand for. -/
def spellings : List (Text × Char) :=
  [(['<', '-', '>'], '⇔'), (['<', '=', '>'], '⇔'), (['↔'], '⇔'),
   (['-', '>'], '⇒'), (['=', '>'], '⇒'), (['→'], '⇒'), (['⟹'], '⇒'),
   (['/', '\\'], '∧'), (['&'], '∧'), (['⋀'], '∧'),
   (['\\', '/'], '∨'), (['|'], '∨'), (['⋁'], '∨'),
   (['~'], '¬'), (['!'], '¬'), (['￢'], '¬'),
   (['（'], '('), (['）'], ')')]

/-- Replaces a spelling from left to right, after passing over `skip` characters that belong
to an occurrence before. -/
def respellFrom (old : Text) (new : Char) : Nat → Text → Text
  | _, [] => []
  | skip + 1, _ :: rest => respellFrom old new skip rest
  | 0, c :: rest =>
    if old.isPrefixOf (c :: rest) then new :: respellFrom old new (old.length - 1) rest
    else c :: respellFrom old new 0 rest

/-- Replaces every occurrence of a spelling, from left to right. -/
def respell (t : Text) (spelling : Text × Char) : Text :=
  respellFrom spelling.1 spelling.2 0 t

/-- A text with glyphs for all other spellings. -/
def Text.glyphs (t : Text) : Text := spellings.foldl respell t

end LogicTrainer
