import LogicTrainer.Proofs.Token.Lexing

/-! Blanks in texts.

Blanks go after the spellings, so a blank inside a spelling keeps it from being found
(`Text.PartsSpelling`). Nothing else depends on where the blanks are: a pass works on each side of
a blank by itself, and on the text without it just the same if its spelling does not lie across it
(`squeezed_respell`). So where no spelling is parted, writing a text compactly is taking its blanks
out and writing what is left in glyphs (`Text.compact_eq`), and doing it again changes nothing
(`Text.compact_compact`). -/
namespace LogicTrainer

/-! ### Spellings that are parted -/

instance (old before after : Text) : Decidable (Straddles old before after) :=
  decidable_of_iff (∃ n < old.length, 0 < n ∧ old.take n <:+ before ∧ old.drop n <+: after) <| by
    constructor
    · rintro ⟨n, hn, hpos, hsuf, hpre⟩
      refine ⟨old.take n, old.drop n, ?_, ?_, (List.take_append_drop n old).symm, hsuf, hpre⟩
      · exact List.ne_nil_of_length_pos (by rw [List.length_take]; omega)
      · exact List.ne_nil_of_length_pos (by rw [List.length_drop]; omega)
    · rintro ⟨x, y, hx, hy, rfl, hsuf, hpre⟩
      have hxlen := List.length_pos_iff.2 hx
      have hylen := List.length_pos_iff.2 hy
      refine ⟨x.length, by rw [List.length_append]; omega, hxlen, ?_, ?_⟩
      · rwa [List.take_left]
      · rwa [List.drop_left]

/-- A spelling is parted in a text: it would be there without the blanks, but a blank stands
between two of its characters. -/
def Text.Parts (t old : Text) : Prop :=
  ∃ (before : Text) (blank : Char) (after : Text), t = before ++ blank :: after ∧
    isBlank blank = true ∧ Straddles old before.squeezed after.squeezed

/-- Some spelling is parted in a text. -/
def Text.PartsSpelling (t : Text) : Prop := ∃ spelling ∈ spellings, t.Parts spelling.1

instance (t old : Text) : Decidable (t.Parts old) :=
  decidable_of_iff (∃ n, ∃ h : n < t.length, isBlank t[n] = true ∧
      Straddles old (Text.squeezed (t.take n)) (Text.squeezed (t.drop (n + 1)))) <| by
    constructor
    · rintro ⟨n, hn, hblank, hs⟩
      exact ⟨t.take n, t[n], t.drop (n + 1), by simp, hblank, hs⟩
    · rintro ⟨before, blank, after, rfl, hblank, hs⟩
      exact ⟨before.length, by simp, by simpa using hblank, by simpa using hs⟩

instance (t : Text) : Decidable t.PartsSpelling :=
  inferInstanceAs (Decidable (∃ spelling ∈ spellings, t.Parts spelling.1))

/-- What is parted in the end of a text is parted in the text. -/
theorem Text.Parts.of_append {t old : Text} (h : t.Parts old) (a : Text) :
    Text.Parts (a ++ t) old := by
  obtain ⟨before, blank, after, rfl, hblank, x, y, hx, hy, hxy, hsuf, hpre⟩ := h
  refine ⟨a ++ before, blank, after, (List.append_assoc ..).symm, hblank,
    x, y, hx, hy, hxy, ?_, hpre⟩
  rw [squeezed_append]
  exact hsuf.trans (List.suffix_append _ _)

/-! ### Passes and blanks -/

/-- No spelling holds a blank, and no glyph is one. -/
structure IsSolid (table : List (Text × Char)) : Prop where
  spelling : ∀ spelling ∈ table, ∀ c ∈ spelling.1, isBlank c = false
  glyph : ∀ spelling ∈ table, isBlank spelling.2 = false

theorem isSolid_spellings : IsSolid spellings where
  spelling := by simp [spellings]; decide
  glyph := by simp [spellings]; decide

theorem IsSolid.tail {spelling : Text × Char} {table : List (Text × Char)}
    (h : IsSolid (spelling :: table)) : IsSolid table where
  spelling s hs := h.spelling s (List.mem_cons_of_mem _ hs)
  glyph s hs := h.glyph s (List.mem_cons_of_mem _ hs)

namespace Respelled
variable {old : Text} {new : Char} {t u : Text} (hnew : isBlank new = false)
include hnew

/-- A pass does not mind if blanks are taken out first, some occurrences staying then. -/
theorem squeezed (hold : ∀ c ∈ old, isBlank c = false) (h : Respelled old new t u) :
    Respelled old new t.squeezed u.squeezed := by
  induction h with
  | nil => exact .nil
  | @keep c t u _ ih =>
    cases hc : isBlank c with
    | true => rwa [Text.squeezed_cons_blank hc, Text.squeezed_cons_blank hc]
    | false =>
      rw [Text.squeezed_cons hc, Text.squeezed_cons hc]
      exact .keep c ih
  | @replace t u _ ih =>
    rw [Text.squeezed_append, Text.squeezed_eq_self hold, Text.squeezed_cons hnew]
    exact .replace ih

/-- A blank was there before. -/
theorem exists_blank {blank : Char} (hblank : isBlank blank = true)
    (h : Respelled old new t (blank :: u)) :
    ∃ s, t = blank :: s ∧ Respelled old new s u := by
  generalize hv : blank :: u = v at h
  cases h with
  | nil => cases hv
  | keep c h =>
    obtain ⟨rfl, rfl⟩ := List.cons.inj hv
    exact ⟨_, rfl, h⟩
  | replace h =>
    obtain ⟨rfl, -⟩ := List.cons.inj hv
    exact absurd (hnew.symm.trans hblank) (by decide)

/-- No blank is put in. -/
theorem squeezed_eq_self (h : Respelled old new t u) (ht : ∀ c ∈ t, isBlank c = false) :
    u.squeezed = u := by
  induction h with
  | nil => rfl
  | @keep c t u _ ih =>
    rw [Text.squeezed_cons (ht c List.mem_cons_self),
      ih fun d hd => ht d (List.mem_cons_of_mem _ hd)]
  | @replace t u _ ih =>
    rw [Text.squeezed_cons hnew, ih fun d hd => ht d (List.mem_append_right _ hd)]

/-- A pass parts no spelling. -/
theorem parts (hold : ∀ c ∈ old, isBlank c = false) {other : Text} (hother : new ∉ other)
    (h : Respelled old new t u) (hu : u.Parts other) : t.Parts other := by
  obtain ⟨before, blank, after, rfl, hblank, hs⟩ := hu
  obtain ⟨x, rest, rfl, hx, hrest⟩ := h.exists_append
  obtain ⟨y, rfl, hy⟩ := hrest.exists_blank hnew hblank
  exact ⟨x, blank, y, rfl, hblank,
    hs.of_respelled hother (hx.squeezed hnew hold) (hy.squeezed hnew hold)⟩

end Respelled

/-- Blanks may be taken out before a pass whose spelling they do not part. -/
theorem squeezed_respell {spelling : Text × Char} {t : Text} (hne : spelling.1 ≠ [])
    (hold : ∀ c ∈ spelling.1, isBlank c = false) (hnew : isBlank spelling.2 = false)
    (h : ¬ t.Parts spelling.1) : (respell t spelling).squeezed = respell t.squeezed spelling := by
  -- on the text after a first part without blanks
  suffices ∀ before : Text, (∀ c ∈ before, isBlank c = false) →
      ¬ Text.Parts (before ++ t) spelling.1 → (respell (before ++ t) spelling).squeezed =
        respell (Text.squeezed (before ++ t)) spelling from this [] (by simp) h
  clear h
  induction t with
  | nil =>
    intro before hbefore _
    rw [List.append_nil, Text.squeezed_eq_self hbefore,
      (respelled_respell hne before).squeezed_eq_self hnew hbefore]
  | cons c t ih =>
    intro before hbefore hparts
    cases hc : isBlank c with
    | false =>
      have hmore : ∀ d ∈ before ++ [c], isBlank d = false := by
        intro d hd
        rcases List.mem_append.1 hd with hd | hd
        · exact hbefore d hd
        · rwa [List.mem_singleton.1 hd]
      have hassoc : before ++ c :: t = before ++ [c] ++ t := List.append_cons before c t
      rw [hassoc] at hparts ⊢
      exact ih (before ++ [c]) hmore hparts
    | true =>
      have hmem : c ∉ spelling.1 := fun hmem => by
        rw [hold c hmem] at hc
        cases hc
      have hseam : ¬ Straddles spelling.1 before (Text.squeezed t) := fun hs =>
        hparts ⟨before, c, t, rfl, hc, by rwa [Text.squeezed_eq_self hbefore]⟩
      have hrest : ¬ Text.Parts t spelling.1 := fun hp => hparts (by
        rw [List.append_cons before c t]
        exact hp.of_append _)
      have hpass : respell (before ++ Text.squeezed t) spelling =
          respell before spelling ++ respell (Text.squeezed t) spelling :=
        respellFrom_append hseam (Nat.zero_le _)
      calc (respell (before ++ c :: t) spelling).squeezed
          = (respell before spelling).squeezed ++ (respell t spelling).squeezed := by
            rw [respell_append_cons hne hmem, Text.squeezed_append, Text.squeezed_cons_blank hc]
        _ = respell before spelling ++ respell (Text.squeezed t) spelling := by
            rw [(respelled_respell hne before).squeezed_eq_self hnew hbefore]
            exact congrArg (respell before spelling ++ ·) (ih [] (by simp) hrest)
        _ = respell (Text.squeezed (before ++ c :: t)) spelling := by
            rw [← hpass, Text.squeezed_append, Text.squeezed_cons_blank hc,
              Text.squeezed_eq_self hbefore]

theorem squeezed_foldl_respell {table : List (Text × Char)} (h : IsTable table)
    (hsolid : IsSolid table) {t : Text} (hparts : ∀ spelling ∈ table, ¬ t.Parts spelling.1) :
    (table.foldl respell t).squeezed = table.foldl respell t.squeezed := by
  induction table generalizing t with
  | nil => rfl
  | cons spelling table ih =>
    have hold := hsolid.spelling spelling List.mem_cons_self
    have hnew := hsolid.glyph spelling List.mem_cons_self
    have hlater : ∀ later ∈ table, ¬ (respell t spelling).Parts later.1 := fun later hmem hp =>
      hparts later (List.mem_cons_of_mem _ hmem)
        ((h.respelled t).parts hnew hold (h.head_not_mem hmem) hp)
    rw [List.foldl_cons, ih h.tail hsolid.tail hlater, squeezed_respell
      (h.ne_nil spelling List.mem_cons_self) hold hnew (hparts spelling List.mem_cons_self),
      List.foldl_cons]

theorem RespelledBy.squeezed {table : List (Text × Char)} (hsolid : IsSolid table) {t u : Text}
    (h : RespelledBy table t u) : RespelledBy table t.squeezed u.squeezed := by
  induction h with
  | nil t => exact .nil _
  | @cons spelling table t u v first _ ih =>
    exact .cons (first.squeezed (hsolid.glyph spelling List.mem_cons_self)
      (hsolid.spelling spelling List.mem_cons_self)) (ih hsolid.tail)

/-! ### Compact texts -/

theorem isApart_of_isBlank {c : Char} (h : isBlank c = true) : isApart c = true := by
  refine List.all_eq_true.2 fun spelling hs => ?_
  have hc : c ∉ spelling.1 := fun hmem => by
    rw [isSolid_spellings.spelling spelling hs c hmem] at h
    cases h
  simpa using hc

namespace Text

/-- The passes that lead to a compact text may be made without the blanks. -/
theorem respelledBy_compact (t : Text) : RespelledBy spellings t.squeezed t.compact :=
  (isTable_spellings.respelledBy t).squeezed isSolid_spellings

/-- The two sides of a blank are written compactly by themselves. -/
theorem compact_append_blank {blank : Char} (h : isBlank blank = true) (a b : Text) :
    compact (a ++ blank :: b) = a.compact ++ b.compact := by
  have hnil : squeezed [] = [] := rfl
  rw [compact_append_cons (isApart_of_isBlank h), squeezed_cons_blank h, hnil, List.nil_append]

section
variable {t : Text}

/-- Where no spelling is parted, the blanks may be taken out first. -/
theorem compact_eq (h : ¬ t.PartsSpelling) : t.compact = t.squeezed.glyphs := by
  unfold compact glyphs
  exact squeezed_foldl_respell isTable_spellings isSolid_spellings
    fun spelling hs hp => h ⟨spelling, hs, hp⟩

/-- Where no spelling is parted, texts that are equal without their blanks have one compact form. -/
theorem compact_congr {s : Text} (h : s.squeezed = t.squeezed) (hs : ¬ s.PartsSpelling)
    (ht : ¬ t.PartsSpelling) : s.compact = t.compact := by
  rw [compact_eq hs, compact_eq ht, h]

/-- Where no spelling is parted, a compact text is its own compact form. -/
theorem compact_compact (h : ¬ t.PartsSpelling) : t.compact.compact = t.compact := by
  have hglyphs : t.compact.glyphs = t.compact := by rw [compact_eq h, glyphs_glyphs]
  rw [compact, hglyphs, compact, squeezed_squeezed]

/-- Without blanks no spelling is parted. -/
theorem not_partsSpelling_squeezed (t : Text) : ¬ t.squeezed.PartsSpelling := by
  rintro ⟨spelling, -, before, blank, after, ht, hblank, -⟩
  have hmem : blank ∈ t.squeezed := by
    rw [ht]
    exact List.mem_append_right _ List.mem_cons_self
  rw [not_blank_of_mem_squeezed hmem] at hblank
  cases hblank

end

end Text
end LogicTrainer
