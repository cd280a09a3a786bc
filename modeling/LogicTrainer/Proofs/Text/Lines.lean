import LogicTrainer.Text.Lines

/-! Lines that are added at the end.

A text is finished when it is empty or ends with a line break. What is added to a finished text
starts on a line of its own, unless it starts with the line feed that goes with a last carriage
return, so the lines of both together are those of the one and those of the other
(`Finished.lines_append`). What is added to an unfinished text goes on with its last line, which
is then no longer there (`lines_append_ne`). -/
namespace LogicTrainer.Text

/-- No character is a control character. -/
def IsPrinted (t : Text) : Prop := ∀ c ∈ t, 0x20 ≤ c.toNat

/-- A line feed or a carriage return. -/
def IsBreak (c : Char) : Prop := c = '\n' ∨ c = '\r'

/-- No line is begun and not ended. -/
def Finished (t : Text) : Prop := t = [] ∨ ∃ front c, t = front ++ [c] ∧ IsBreak c

/-- The lines of a text, without their ends. -/
def lines (t : Text) : List Text :=
  let pieces := splitLines (unifyNewlines t)
  if pieces.getLast? = some [] then pieces.dropLast else pieces

/-! ### Line breaks -/

/-- Unifying what is put together is putting together what is unified, if no line break is cut in
two. -/
theorem unifyNewlines_append (a : Text) {b : Text} (h : ∀ rest, b ≠ '\n' :: rest) :
    unifyNewlines (a ++ b) = unifyNewlines a ++ unifyNewlines b := by
  induction a using unifyNewlines.induct with
  | case1 => rfl
  | case2 rest ih => simp only [List.cons_append, unifyNewlines, ih]
  | case3 rest hrest ih =>
    have hnext : ∀ more, rest ++ b ≠ '\n' :: more := by
      intro more heq
      obtain ⟨rfl, hb⟩ | ⟨front, hfront, -⟩ := List.append_eq_cons_iff.1 heq
      · exact h more hb
      · exact hrest front hfront
    rw [List.cons_append, unifyNewlines, ih, unifyNewlines]
    · rfl
    · exact hrest
    · exact hnext
  | case4 c rest hpair hreturn ih =>
    have hreturn : c ≠ '\r' := fun hc => hreturn hc
    rw [List.cons_append, unifyNewlines, ih, unifyNewlines]
    · rfl
    · exact hpair
    · exact hreturn
    · exact fun _ hc => absurd hc hreturn
    · exact hreturn

theorem unifyNewlines_cons {c : Char} (h : ¬ IsBreak c) (t : Text) :
    unifyNewlines (c :: t) = c :: unifyNewlines t := by
  rw [unifyNewlines]
  · exact fun _ hc => absurd (.inr hc) h
  · exact fun hc => h (.inr hc)

theorem IsPrinted.not_isBreak {t : Text} (h : IsPrinted t) {c : Char} (hc : c ∈ t) :
    ¬ IsBreak c := by
  rintro (rfl | rfl) <;> exact absurd (h _ hc) (by decide)

theorem IsPrinted.unifyNewlines_append {t : Text} (h : IsPrinted t) (b : Text) :
    unifyNewlines (t ++ b) = t ++ unifyNewlines b := by
  induction t with
  | nil => rfl
  | cons c t ih =>
    rw [List.cons_append, unifyNewlines_cons (h.not_isBreak List.mem_cons_self),
      ih fun d hd => h d (List.mem_cons_of_mem _ hd), List.cons_append]

/-- After a line break at the end, unified text ends with a line feed. -/
theorem exists_unifyNewlines_concat (t : Text) {c : Char} (hc : IsBreak c) :
    ∃ front, unifyNewlines (t ++ [c]) = front ++ ['\n'] := by
  induction t using unifyNewlines.induct with
  | case1 =>
    rcases hc with rfl | rfl
    · exact ⟨[], rfl⟩
    · exact ⟨[], rfl⟩
  | case2 rest ih =>
    obtain ⟨front, hfront⟩ := ih
    exact ⟨'\n' :: front, by simp only [List.cons_append, unifyNewlines, hfront]⟩
  | case3 rest hrest ih =>
    cases rest with
    | nil =>
      rcases hc with rfl | rfl
      · exact ⟨[], rfl⟩
      · exact ⟨['\n'], rfl⟩
    | cons d rest =>
      obtain ⟨front, hfront⟩ := ih
      refine ⟨'\n' :: front, ?_⟩
      rw [List.cons_append, unifyNewlines, hfront]
      · rfl
      · exact fun more heq => hrest rest (by rw [(List.cons.inj heq).1])
  | case4 d rest hpair hreturn ih =>
    obtain ⟨front, hfront⟩ := ih
    have hreturn : d ≠ '\r' := fun hd => hreturn hd
    refine ⟨d :: front, ?_⟩
    rw [List.cons_append, unifyNewlines, hfront]
    · rfl
    · exact fun _ hd => absurd hd hreturn
    · exact hreturn

/-- No line feed goes away. -/
theorem count_le_count_unifyNewlines (t : Text) :
    t.count '\n' ≤ (unifyNewlines t).count '\n' := by
  induction t using unifyNewlines.induct with
  | case1 => exact Nat.le_refl _
  | case2 rest ih =>
    simp only [unifyNewlines, List.count_cons]
    simp
    omega
  | case3 rest hrest ih =>
    rw [unifyNewlines]
    · simp only [List.count_cons]
      simp
      omega
    · exact hrest
  | case4 c rest hpair hreturn ih =>
    rw [unifyNewlines]
    · simp only [List.count_cons]
      omega
    · exact hpair
    · exact hreturn

/-! ### Pieces -/

/-- The last piece of the one and the first piece of the other are one piece. -/
theorem exists_splitLines_append (a b : Text) : ∃ front last first rest,
    splitLines a = front ++ [last] ∧ splitLines b = first :: rest ∧
      splitLines (a ++ b) = front ++ (last ++ first) :: rest := by
  induction a with
  | nil =>
    have hb : ∃ first rest, splitLines b = first :: rest := by
      cases b with
      | nil => exact ⟨_, _, rfl⟩
      | cons c b =>
        rw [splitLines]
        split
        · exact ⟨_, _, rfl⟩
        · split <;> exact ⟨_, _, rfl⟩
    obtain ⟨first, rest, hb⟩ := hb
    exact ⟨[], [], first, rest, rfl, hb, hb⟩
  | cons c a ih =>
    obtain ⟨front, last, first, rest, ha, hb, hab⟩ := ih
    rw [List.cons_append, splitLines, splitLines, ha, hab]
    split
    · exact ⟨[] :: front, last, first, rest, rfl, hb, rfl⟩
    · cases front with
      | nil => exact ⟨[], c :: last, first, rest, rfl, hb, rfl⟩
      | cons piece front => exact ⟨(c :: piece) :: front, last, first, rest, rfl, hb, rfl⟩

theorem splitLines_append (a b : Text) :
    splitLines (a ++ '\n' :: b) = splitLines a ++ splitLines b := by
  obtain ⟨front, last, first, rest, ha, hb, hab⟩ := exists_splitLines_append a ('\n' :: b)
  rw [splitLines, if_pos rfl] at hb
  obtain ⟨rfl, rfl⟩ := List.cons.inj hb
  rw [hab, ha, List.append_nil, List.append_assoc, List.singleton_append]

theorem splitLines_of_not_mem {t : Text} (h : '\n' ∉ t) : splitLines t = [t] := by
  induction t with
  | nil => rfl
  | cons c t ih =>
    have hc : c ≠ '\n' := fun hc => h (hc ▸ List.mem_cons_self)
    rw [splitLines, if_neg hc, ih fun hmem => h (List.mem_cons_of_mem _ hmem)]

theorem length_splitLines (t : Text) : (splitLines t).length = t.count '\n' + 1 := by
  induction t with
  | nil => rfl
  | cons c t ih =>
    rw [splitLines, List.count_cons]
    by_cases hc : c = '\n'
    · simp [hc, ih]
    · rw [if_neg hc, if_neg (by simpa using hc)]
      split
      · next heq =>
        rw [heq] at ih
        exact ih
      · next heq =>
        rw [heq] at ih
        cases ih

/-! ### Lines -/

/-- The lines of a text that ends with a line feed are its pieces before it. -/
theorem lines_of_unifyNewlines {t front : Text} (h : unifyNewlines t = front ++ ['\n']) :
    lines t = splitLines front := by
  have hpieces : splitLines (unifyNewlines t) = splitLines front ++ [[]] := by
    rw [h, splitLines_append]
    rfl
  simp only [lines, hpieces]
  rw [if_pos List.getLast?_concat, List.dropLast_concat]

theorem splitLines_ne_nil (t : Text) : splitLines t ≠ [] := by
  have := length_splitLines t
  intro hnil
  rw [hnil] at this
  cases this

/-- A line that is ended is a line, and what follows has its own. -/
theorem IsPrinted.lines_append {t : Text} (h : IsPrinted t) (b : Text) :
    lines (t ++ '\n' :: b) = t :: lines b := by
  have hmem : '\n' ∉ t := fun hmem => h.not_isBreak hmem (.inl rfl)
  have hunify : unifyNewlines (t ++ '\n' :: b) = t ++ '\n' :: unifyNewlines b := by
    rw [h.unifyNewlines_append, unifyNewlines]
    · exact fun _ hc => absurd hc (by decide)
    · decide
  have hpieces : splitLines (unifyNewlines (t ++ '\n' :: b)) = t :: splitLines (unifyNewlines b) := by
    rw [hunify, splitLines_append, splitLines_of_not_mem hmem]
    rfl
  obtain ⟨piece, pieces, hb⟩ := List.exists_cons_of_ne_nil (splitLines_ne_nil (unifyNewlines b))
  rw [lines, lines]
  simp only [hpieces, hb, List.getLast?_cons_cons, List.dropLast_cons_cons]
  split <;> rfl

/-- A text on one line is a line. -/
theorem IsPrinted.lines_concat {t : Text} (h : IsPrinted t) : lines (t ++ ['\n']) = [t] :=
  h.lines_append []

/-- Lines that are ended each are the lines of their text. -/
theorem lines_flatMap {parts : List Text} (h : ∀ line ∈ parts, IsPrinted line) :
    lines (parts.flatMap fun line => line ++ ['\n']) = parts := by
  induction parts with
  | nil => rfl
  | cons line parts ih =>
    rw [List.flatMap_cons, List.append_assoc, List.singleton_append,
      (h line List.mem_cons_self).lines_append, ih fun line hl => h line (List.mem_cons_of_mem _ hl)]

theorem finished_concat (t : Text) : Finished (t ++ ['\n']) := .inr ⟨t, '\n', rfl, .inl rfl⟩

/-- The lines of both are the lines of the one and those of the other. -/
theorem Finished.lines_append {t : Text} (h : Finished t) {b : Text}
    (hb : ∀ rest, b ≠ '\n' :: rest) : lines (t ++ b) = lines t ++ lines b := by
  rcases h with rfl | ⟨front, c, rfl, hc⟩
  · rfl
  · obtain ⟨before, hbefore⟩ := exists_unifyNewlines_concat front hc
    have hpieces : splitLines (unifyNewlines (front ++ [c] ++ b)) =
        splitLines before ++ splitLines (unifyNewlines b) := by
      rw [unifyNewlines_append _ hb, hbefore, List.append_assoc, List.singleton_append,
        splitLines_append]
    have hne := splitLines_ne_nil (unifyNewlines b)
    rw [lines_of_unifyNewlines hbefore, lines, lines, hpieces]
    simp only [List.getLast?_append, List.getLast?_eq_some_getLast hne, Option.some_or,
      List.dropLast_append_of_ne_nil hne]
    split <;> rfl

theorem filledLines_eq (t : Text) :
    filledLines t = (lines t).filter fun line => !isBlankLine line := by
  simp only [filledLines, lines]
  split
  · next hlast =>
    obtain ⟨front, hfront⟩ := List.getLast?_eq_some_iff.1 hlast
    rw [hfront, List.dropLast_concat, List.filter_append]
    exact List.append_nil _
  · rfl

theorem Finished.length_lines {t : Text} (h : Finished t) :
    (lines t).length = (unifyNewlines t).count '\n' := by
  rcases h with rfl | ⟨front, c, rfl, hc⟩
  · rfl
  · obtain ⟨before, hbefore⟩ := exists_unifyNewlines_concat front hc
    rw [lines_of_unifyNewlines hbefore, length_splitLines, hbefore, List.count_append]
    rfl

/-- The last line of an unfinished text is not empty, and is one of its lines. -/
theorem exists_lines_concat {t : Text} (h : ¬ Finished t) :
    ∃ front last, lines t = front ++ [last] ∧ splitLines (unifyNewlines t) = front ++ [last] := by
  rcases List.eq_nil_or_concat t with rfl | ⟨before, d, rfl⟩
  · exact absurd (.inl rfl) h
  rw [List.concat_eq_append] at h ⊢
  have hd : ¬ IsBreak d := fun hd => h (.inr ⟨before, d, rfl, hd⟩)
  have hsingle : splitLines [d] = [[d]] :=
    splitLines_of_not_mem fun hmem => hd (.inl (List.mem_singleton.1 hmem).symm)
  have hunify : unifyNewlines (before ++ [d]) = unifyNewlines before ++ [d] := by
    rw [unifyNewlines_append, unifyNewlines_cons hd]
    · rfl
    · exact fun rest heq => hd (.inl (List.cons.inj heq).1)
  obtain ⟨front, last, first, rest, -, hfirst, hpieces⟩ :=
    exists_splitLines_append (unifyNewlines before) [d]
  rw [hsingle] at hfirst
  obtain ⟨rfl, rfl⟩ := List.cons.inj hfirst
  rw [← hunify] at hpieces
  refine ⟨front, last ++ [d], ?_, hpieces⟩
  simp [lines, hpieces]

/-- The lines of an unfinished text do not stay when something is added. -/
theorem lines_append_ne {t b : Text} (h : ¬ Finished t) (hb : Finished b) {c : Char} {rest : Text}
    (hstart : b = c :: rest) (hc : ¬ IsBreak c) (more : List Text) :
    lines (t ++ b) ≠ lines t ++ more := by
  obtain ⟨front, last, hlines, hpieces⟩ := exists_lines_concat h
  have hunify : unifyNewlines (t ++ b) = unifyNewlines t ++ unifyNewlines b :=
    unifyNewlines_append t fun more heq => hc (.inl (List.cons.inj (hstart ▸ heq)).1)
  obtain ⟨body, hbody⟩ : ∃ body, unifyNewlines b = c :: body ++ ['\n'] := by
    rcases hb with rfl | ⟨before, d, rfl, hd⟩
    · cases hstart
    · cases before with
      | nil => exact absurd ((List.cons.inj hstart).1 ▸ hd) hc
      | cons e before =>
        obtain ⟨rfl, -⟩ := List.cons.inj hstart
        obtain ⟨body, hbody⟩ := exists_unifyNewlines_concat before hd
        exact ⟨body, by rw [List.cons_append, unifyNewlines_cons hc, hbody, List.cons_append]⟩
  obtain ⟨front', last', first, tail, ht, hfirst, hall⟩ :=
    exists_splitLines_append (unifyNewlines t) (c :: body)
  obtain ⟨rfl, hlast⟩ := List.append_inj' (hpieces.symm.trans ht) rfl
  obtain rfl : last = last' := (List.cons.inj hlast).1
  have hfirst : first ≠ [] := by
    rw [splitLines, if_neg fun heq => hc (.inl heq)] at hfirst
    split at hfirst <;> exact (List.cons.inj hfirst).1 ▸ List.cons_ne_nil _ _
  rw [hbody, ← List.append_assoc] at hunify
  rw [lines_of_unifyNewlines hunify, hall, hlines, List.append_assoc]
  intro heq
  have hsame := (List.cons.inj (List.append_cancel_left heq)).1
  exact hfirst (List.append_right_eq_self.1 hsame)

end LogicTrainer.Text
