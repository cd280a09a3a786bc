import LogicTrainer.Text.Blank

/-! Texts that are joined and split.

A text is split at a separator from left to right. The second character of the separator marks it:
where no piece has this mark and the separator does not start with it, an occurrence can begin
nowhere but where one was put, so pieces that are joined come apart again (`pieces_join`). Joined
texts are of one length if their pieces are (`length_join_congr`), and a text in the middle of
blanks is found by stripping them off (`stripped_centre`). -/
namespace LogicTrainer.Text

/-- Splits a text at every occurrence of a separator, from left to right, after passing over `skip`
characters that belong to an occurrence before. -/
def splitFrom (separator : Text) : Nat → Text → List Text
  | _, [] => [[]]
  | skip + 1, _ :: rest => splitFrom separator skip rest
  | 0, c :: rest =>
    if separator.isPrefixOf (c :: rest) then
      [] :: splitFrom separator (separator.length - 1) rest
    else
      match splitFrom separator 0 rest with
      | piece :: pieces => (c :: piece) :: pieces
      | [] => [[c]]

/-- The pieces of a text between the occurrences of a separator. -/
def pieces (separator t : Text) : List Text := splitFrom separator 0 t

/-! ### Splitting what is joined -/

theorem splitFrom_skip (separator skipped t : Text) :
    splitFrom separator skipped.length (skipped ++ t) = splitFrom separator 0 t := by
  induction skipped with
  | nil => rfl
  | cons c skipped ih => exact ih

section
variable {first mark : Char} {more : Text}

/-- Where the mark does not come next, no occurrence begins. -/
theorem splitFrom_cons {c : Char} {rest piece : Text} {others : List Text}
    (hnext : rest.head? ≠ some mark)
    (h : splitFrom (first :: mark :: more) 0 rest = piece :: others) :
    splitFrom (first :: mark :: more) 0 (c :: rest) = (c :: piece) :: others := by
  have hprefix : ¬ List.isPrefixOf (first :: mark :: more) (c :: rest) = true := by
    intro hprefix
    obtain ⟨tail, htail⟩ := List.isPrefixOf_iff_prefix.1 hprefix
    obtain ⟨-, hrest⟩ := List.cons.inj htail
    exact hnext (by rw [← hrest]; rfl)
  rw [splitFrom, if_neg hprefix, h]

/-- A text without the mark is one piece. -/
theorem splitFrom_eq_single {piece : Text} (h : mark ∉ piece) :
    splitFrom (first :: mark :: more) 0 piece = [piece] := by
  induction piece with
  | nil => rfl
  | cons c piece ih =>
    have hrest : mark ∉ piece := fun hmem => h (List.mem_cons_of_mem _ hmem)
    exact splitFrom_cons (fun hhead => hrest (List.mem_of_head? hhead)) (ih hrest)

/-- The first piece goes to the first separator. -/
theorem splitFrom_first (hfirst : first ≠ mark) {piece : Text} (h : mark ∉ piece) (t : Text) :
    splitFrom (first :: mark :: more) 0 (piece ++ (first :: mark :: more) ++ t) =
      piece :: splitFrom (first :: mark :: more) 0 t := by
  induction piece with
  | nil =>
    have hprefix : List.isPrefixOf (first :: mark :: more) (first :: (mark :: more ++ t)) = true :=
      List.isPrefixOf_iff_prefix.2 ⟨t, rfl⟩
    show splitFrom (first :: mark :: more) 0 (first :: (mark :: more ++ t)) = _
    rw [splitFrom, if_pos hprefix]
    exact congrArg (List.cons []) (splitFrom_skip _ (mark :: more) t)
  | cons c piece ih =>
    have hrest : mark ∉ piece := fun hmem => h (List.mem_cons_of_mem _ hmem)
    refine splitFrom_cons ?_ (ih hrest)
    -- what comes next is in the piece, or is the first character of the separator
    cases piece with
    | nil => exact fun hhead => hfirst (Option.some.inj hhead)
    | cons d piece =>
      exact fun hhead => hrest (Option.some.inj hhead ▸ List.mem_cons_self)

/-- Pieces that are joined come apart again. -/
theorem pieces_join (hfirst : first ≠ mark) {parts : List Text} (hne : parts ≠ [])
    (h : ∀ piece ∈ parts, mark ∉ piece) :
    pieces (first :: mark :: more) (join (first :: mark :: more) parts) = parts := by
  induction parts with
  | nil => exact absurd rfl hne
  | cons piece parts ih =>
    have hpiece := h piece List.mem_cons_self
    cases parts with
    | nil =>
      rw [join, List.intercalate_singleton]
      exact splitFrom_eq_single hpiece
    | cons next parts =>
      have hrest := ih (List.cons_ne_nil _ _) fun piece hp => h piece (List.mem_cons_of_mem _ hp)
      rw [join, List.intercalate_cons_cons]
      exact (splitFrom_first hfirst hpiece _).trans (congrArg (List.cons piece) hrest)

end

/-! ### Lengths -/

/-- Joined texts are of one length if their pieces are. -/
theorem length_join_congr (separator : Text) {parts parts' : List Text}
    (h : parts.map List.length = parts'.map List.length) :
    (join separator parts).length = (join separator parts').length := by
  induction parts generalizing parts' with
  | nil => rw [List.map_eq_nil_iff.1 h.symm]
  | cons piece parts ih =>
    cases parts' with
    | nil => cases h
    | cons piece' parts' =>
      obtain ⟨hpiece, hrest⟩ := List.cons.inj h
      have hjoin := ih hrest
      cases parts with
      | nil =>
        obtain rfl := List.map_eq_nil_iff.1 hrest.symm
        simpa [join] using hpiece
      | cons next parts =>
        cases parts' with
        | nil => cases hrest
        | cons next' parts' =>
          simp only [join, List.intercalate_cons_cons, List.length_append] at hjoin ⊢
          rw [hpiece, hjoin]

/-! ### Blanks on both sides -/

/-- A character in the middle of blanks is found by stripping them off. -/
theorem stripped_centre {c : Char} (h : isBlank c = false) (width : Nat) :
    (centre width [c]).stripped = [c] := by
  have hblanks : ∀ n, ∀ d ∈ List.replicate n ' ', isBlank d = true := fun n d hd => by
    rw [List.eq_of_mem_replicate hd]
    decide
  have hdrop : ∀ n t, (List.replicate n ' ' ++ c :: t).dropWhile isBlank = c :: t := fun n t => by
    rw [List.dropWhile_append_of_pos (hblanks n), List.dropWhile_cons_of_neg (by simp [h])]
  rw [stripped, trim, centre, List.append_assoc, List.singleton_append, hdrop, List.reverse_cons,
    List.reverse_replicate, hdrop]
  rfl

end LogicTrainer.Text
