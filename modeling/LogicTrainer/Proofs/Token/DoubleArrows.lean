import LogicTrainer.Proofs.Token.Respelling

/-! Spellings that nothing breaks.

A spelling is replaced wherever it stands if no pass before its own takes hold of a part of it. A
pass takes hold of a piece of text only where its spelling lies across an end of the piece or occurs
in it; the first is out of question where the piece starts and ends with characters that can only
start and only end the spelling (`Spares`). Passes that spare a piece work on both sides of it by
themselves (`foldl_respell_append_piece`), the pass for the piece then puts the glyph for it, and no
later pass touches a glyph (`Text.glyphs_append_spelling`). This is so for the two double arrows of
three characters, but not for the single arrows, which are part of these.

The main statement is `glyphs_are_final_and_break_no_double_arrow`. -/
namespace LogicTrainer

/-- A spelling cannot lie across an end of a piece of text: the first character of the piece can
only start it, and the last can only end it. -/
structure Spares (old piece : Text) : Prop where
  first : ∀ c ∈ piece.head?, c ∉ old.tail
  last : ∀ c ∈ piece.getLast?, c ∉ old.dropLast

instance (old piece : Text) : Decidable (Spares old piece) :=
  decidable_of_iff (piece.head?.all (fun c => !old.tail.contains c) = true ∧
      piece.getLast?.all (fun c => !old.dropLast.contains c) = true) <| by
    simp only [Option.all_eq_true, Bool.not_eq_true', List.contains_eq_mem, decide_eq_false_iff_not]
    exact ⟨fun h => ⟨h.1, h.2⟩, fun h => ⟨h.first, h.last⟩⟩

/-- A pass that spares a piece works on it, and on both sides of it, by themselves. -/
theorem respell_append_piece {spelling : Text × Char} {piece : Text} (h : Spares spelling.1 piece)
    (hne : piece ≠ []) (a b : Text) : respell (a ++ (piece ++ b)) spelling =
      respell a spelling ++ (respell piece spelling ++ respell b spelling) := by
  have hbefore : ¬ Straddles spelling.1 a (piece ++ b) := by
    obtain ⟨c, rest, rfl⟩ := List.exists_cons_of_ne_nil hne
    exact not_straddles_cons (h.first c rfl) a (rest ++ b)
  have hafter : ¬ Straddles spelling.1 piece b := by
    obtain ⟨rest, c, rfl⟩ := (List.eq_nil_or_concat' piece).resolve_left hne
    exact not_straddles_concat (h.last c List.getLast?_concat) rest b
  calc respell (a ++ (piece ++ b)) spelling
      = respell a spelling ++ respell (piece ++ b) spelling :=
        respellFrom_append hbefore (Nat.zero_le _)
    _ = respell a spelling ++ (respell piece spelling ++ respell b spelling) :=
        congrArg (respell a spelling ++ ·) (respellFrom_append hafter (Nat.zero_le _))

/-- Passes that spare a piece and do not find their spellings in it leave it alone. -/
theorem foldl_respell_append_piece {table : List (Text × Char)} {piece : Text} (hne : piece ≠ [])
    (h : ∀ spelling ∈ table, Spares spelling.1 piece ∧ ¬ spelling.1 <:+: piece) (a b : Text) :
    table.foldl respell (a ++ (piece ++ b)) =
      table.foldl respell a ++ (piece ++ table.foldl respell b) := by
  induction table generalizing a b with
  | nil => rfl
  | cons spelling table ih =>
    obtain ⟨hspares, hnone⟩ := h spelling List.mem_cons_self
    have hself : respell piece spelling = piece := respellFrom_eq_self hnone
    rw [List.foldl_cons, respell_append_piece hspares hne, hself]
    exact ih (fun s hs => h s (List.mem_cons_of_mem _ hs)) _ _

theorem respellFrom_skip (old : Text) (new : Char) (t : Text) :
    respellFrom old new t.length t = [] := by
  induction t with
  | nil => rfl
  | cons c rest ih => exact ih

/-- A spelling by itself becomes its glyph. -/
theorem respell_spelling {spelling : Text × Char} (hne : spelling.1 ≠ []) :
    respell spelling.1 spelling = [spelling.2] := by
  obtain ⟨c, rest, hc⟩ := List.exists_cons_of_ne_nil hne
  have hpre : (c :: rest).isPrefixOf (c :: rest) = true :=
    List.isPrefixOf_iff_prefix.2 List.prefix_rfl
  rw [respell, hc, respellFrom, if_pos hpre]
  exact congrArg (spelling.2 :: ·) (respellFrom_skip (c :: rest) spelling.2 rest)

/-- A spelling that the passes before its own spare, and its own pass too, becomes its glyph
wherever it stands. -/
theorem IsTable.foldl_respell_spelling {earlier later : List (Text × Char)} {spelling : Text × Char}
    (htable : IsTable (earlier ++ spelling :: later)) (hself : Spares spelling.1 spelling.1)
    (hearlier : ∀ s ∈ earlier, Spares s.1 spelling.1 ∧ ¬ s.1 <:+: spelling.1) (a b : Text) :
    (earlier ++ spelling :: later).foldl respell (a ++ (spelling.1 ++ b)) =
      (earlier ++ spelling :: later).foldl respell a ++
        spelling.2 :: (earlier ++ spelling :: later).foldl respell b := by
  have hmem : spelling ∈ earlier ++ spelling :: later :=
    List.mem_append_right _ List.mem_cons_self
  have hlater : ∀ s ∈ later, s ∈ earlier ++ spelling :: later := fun s hs =>
    List.mem_append_right _ (List.mem_cons_of_mem _ hs)
  have hne := htable.ne_nil spelling hmem
  have htail : IsTable later :=
    ⟨fun s hs => htable.ne_nil s (hlater s hs),
      fun s hs s' hs' => htable.not_mem s (hlater s hs) s' (hlater s' hs')⟩
  simp only [List.foldl_append, List.foldl_cons]
  rw [foldl_respell_append_piece hne hearlier, respell_append_piece hself hne,
    respell_spelling hne, List.singleton_append]
  exact htail.foldl_respell_append_cons
    (fun s hs => htable.not_mem spelling hmem s (hlater s hs)) _ _

namespace Text

theorem glyphs_append_spelling {earlier later : List (Text × Char)} {spelling : Text × Char}
    (htable : spellings = earlier ++ spelling :: later) (hself : Spares spelling.1 spelling.1)
    (hearlier : ∀ s ∈ earlier, Spares s.1 spelling.1 ∧ ¬ s.1 <:+: spelling.1) (a b : Text) :
    glyphs (a ++ (spelling.1 ++ b)) = a.glyphs ++ spelling.2 :: b.glyphs := by
  have h := isTable_spellings
  rw [htable] at h
  rw [glyphs, glyphs, glyphs, htable]
  exact h.foldl_respell_spelling hself hearlier a b

end Text

/-- In a text in glyphs no other spelling is found, so writing it in glyphs again changes nothing.
Each of the two double arrows of three characters becomes the glyph of equivalence whatever
surrounds it. -/
theorem glyphs_are_final_and_break_no_double_arrow (t : Text) :
    (∀ spelling ∈ spellings, ¬ spelling.1 <:+: t.glyphs) ∧ t.glyphs.glyphs = t.glyphs ∧
      ∀ before after : Text,
        Text.glyphs (before ++ ['<', '-', '>'] ++ after) =
          before.glyphs ++ '⇔' :: after.glyphs ∧
        Text.glyphs (before ++ ['<', '=', '>'] ++ after) =
          before.glyphs ++ '⇔' :: after.glyphs := by
  refine ⟨fun spelling hs => t.not_isInfix_glyphs hs, t.glyphs_glyphs, fun before after => ⟨?_, ?_⟩⟩
  · rw [List.append_assoc]
    have htable : spellings = [] ++ (['<', '-', '>'], '⇔') :: spellings.tail := rfl
    exact Text.glyphs_append_spelling htable (by decide) (by simp) before after
  · rw [List.append_assoc]
    have htable : spellings =
        [(['<', '-', '>'], '⇔')] ++ (['<', '=', '>'], '⇔') :: spellings.tail.tail := rfl
    exact Text.glyphs_append_spelling htable (by decide) (by decide) before after

/-- With other characters of arrows on both sides, which are left as they are, both double arrows
are found. A single arrow behind a stroke is not: it is part of a double arrow there. -/
theorem glyphs_are_final_and_break_no_double_arrow_among_arrows :
    Text.glyphs "=<->>P&".toList = "=⇔>P∧".toList ∧
      Text.glyphs "-<=>>|~".toList = "-⇔>∨¬".toList ∧
      (['-', '>'], '⇒') ∈ spellings ∧ ¬ ['-', '>'] <:+: Text.glyphs "<->->-".toList ∧
      Text.glyphs (['<'] ++ ['-', '>'] ++ []) ≠ Text.glyphs ['<'] ++ '⇒' :: Text.glyphs [] := by
  have harrow : (['-', '>'], '⇒') ∈ spellings := by decide
  obtain ⟨hnone, -, -⟩ := glyphs_are_final_and_break_no_double_arrow "<->->-".toList
  obtain ⟨-, -, hbetween⟩ := glyphs_are_final_and_break_no_double_arrow []
  have hone : Text.glyphs ['='] = ['='] ∧ Text.glyphs ['>', 'P', '&'] = ['>', 'P', '∧'] := by decide
  have hother : Text.glyphs ['-'] = ['-'] ∧
      Text.glyphs ['>', '|', '~'] = ['>', '∨', '¬'] := by decide
  have hfirst := (hbetween ['='] ['>', 'P', '&']).1
  have hsecond := (hbetween ['-'] ['>', '|', '~']).2
  rw [hone.1, hone.2] at hfirst
  rw [hother.1, hother.2] at hsecond
  exact ⟨hfirst, hsecond, harrow, hnone _ harrow, by decide⟩

end LogicTrainer
