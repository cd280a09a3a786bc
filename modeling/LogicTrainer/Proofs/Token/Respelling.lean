import Mathlib.Data.List.Basic
import LogicTrainer.Token.Spelling

/-! Replacing spellings.

One spelling is replaced after another, and each pass may move or remove what a later one looks
for. What it cannot do is make something up: the glyph that it puts in is part of no spelling, so
whatever is found of a later spelling was there before (`Respelled.isInfix`). From this follows
what the passes come to together (`RespelledBy`): where a text is cut at a character of no spelling,
they work on each side by itself (`IsTable.foldl_respell_append_cons`), no spelling is left
(`Text.not_isInfix_glyphs`), and nothing happens when it is done again (`Text.glyphs_glyphs`). A
single pass works on each side of a cut by itself wherever its spelling does not lie across it
(`respellFrom_append`). -/
namespace LogicTrainer

/-! ### One pass -/

/-- One text comes from another by putting a glyph for occurrences of a spelling, for all of them
or for some. -/
inductive Respelled (old : Text) (new : Char) : Text → Text → Prop where
  | nil : Respelled old new [] []
  | keep (c : Char) {t u : Text} (h : Respelled old new t u) : Respelled old new (c :: t) (c :: u)
  | replace {t u : Text} (h : Respelled old new t u) : Respelled old new (old ++ t) (new :: u)

namespace Respelled
variable {old : Text} {new : Char} {t u : Text}

/-- What became of a text in two parts comes from two parts of it. -/
theorem exists_append {a b : Text} (h : Respelled old new t (a ++ b)) :
    ∃ x y, t = x ++ y ∧ Respelled old new x a ∧ Respelled old new y b := by
  generalize hu : a ++ b = u at h
  induction h generalizing a with
  | nil =>
    obtain ⟨rfl, rfl⟩ := List.append_eq_nil_iff.1 hu
    exact ⟨[], [], rfl, .nil, .nil⟩
  | @keep c t u h ih =>
    cases a with
    | nil =>
      rw [List.nil_append] at hu
      exact ⟨[], c :: t, rfl, .nil, hu ▸ .keep c h⟩
    | cons d a =>
      obtain ⟨rfl, hrest⟩ := List.cons.inj hu
      obtain ⟨x, y, rfl, hx, hy⟩ := ih hrest
      exact ⟨d :: x, y, rfl, .keep d hx, hy⟩
  | @replace t u h ih =>
    cases a with
    | nil =>
      rw [List.nil_append] at hu
      exact ⟨[], old ++ t, rfl, .nil, hu ▸ .replace h⟩
    | cons d a =>
      obtain ⟨rfl, hrest⟩ := List.cons.inj hu
      obtain ⟨x, y, rfl, hx, hy⟩ := ih hrest
      exact ⟨old ++ x, y, (List.append_assoc ..).symm, .replace hx, hy⟩

/-- Where there is no glyph of the spelling, nothing was replaced. -/
theorem eq_of_not_mem (h : Respelled old new t u) (hu : new ∉ u) : t = u := by
  induction h with
  | nil => rfl
  | keep c _ ih => rw [ih fun hmem => hu (List.mem_cons_of_mem _ hmem)]
  | replace => exact absurd List.mem_cons_self hu

section
variable {piece : Text} (hnew : new ∉ piece)
include hnew

theorem isSuffix (h : Respelled old new t u) (hpiece : piece <:+ u) : piece <:+ t := by
  obtain ⟨a, rfl⟩ := hpiece
  obtain ⟨x, y, rfl, -, hy⟩ := h.exists_append
  exact hy.eq_of_not_mem hnew ▸ List.suffix_append x y

theorem isPrefix (h : Respelled old new t u) (hpiece : piece <+: u) : piece <+: t := by
  obtain ⟨b, rfl⟩ := hpiece
  obtain ⟨x, y, rfl, hx, -⟩ := h.exists_append
  exact hx.eq_of_not_mem hnew ▸ List.prefix_append x y

/-- A piece without the glyph was there before. -/
theorem isInfix (h : Respelled old new t u) (hpiece : piece <:+: u) : piece <:+: t := by
  obtain ⟨a, b, rfl⟩ := hpiece
  obtain ⟨x, y, rfl, hx, -⟩ := h.exists_append
  exact (hx.isSuffix hnew (List.suffix_append a piece)).isInfix.trans
    (List.prefix_append x y).isInfix

end

theorem eq_nil (hold : old ≠ []) (h : Respelled old new [] u) : u = [] := by
  generalize ht : ([] : Text) = t at h
  cases h with
  | nil => rfl
  | keep => cases ht
  | replace => exact absurd (List.append_eq_nil_iff.1 ht.symm).1 hold

/-- A text starts as before, or with the glyph for a spelling that starts so. -/
theorem exists_cons (hold : old ≠ []) {c : Char} (h : Respelled old new (c :: t) u) :
    ∃ d v, u = d :: v ∧ (d = c ∨ d = new ∧ old.head? = some c) := by
  generalize ht : c :: t = s at h
  cases h with
  | nil => cases ht
  | keep d h =>
    obtain ⟨rfl, -⟩ := List.cons.inj ht
    exact ⟨c, _, rfl, .inl rfl⟩
  | replace h =>
    obtain ⟨o, os, rfl⟩ := List.exists_cons_of_ne_nil hold
    obtain ⟨rfl, -⟩ := List.cons.inj ht
    exact ⟨new, _, rfl, .inr ⟨rfl, rfl⟩⟩

/-- A text ends as before, or with the glyph for a spelling that ends so. -/
theorem exists_concat (hold : old ≠ []) {c : Char} (h : Respelled old new (t ++ [c]) u) :
    ∃ v d, u = v ++ [d] ∧ (d = c ∨ d = new ∧ old.getLast? = some c) := by
  generalize hs : t ++ [c] = s at h
  induction h generalizing t with
  | nil => simp at hs
  | @keep d s u h ih =>
    cases t with
    | nil =>
      obtain ⟨rfl, rfl⟩ := List.cons.inj hs
      exact ⟨[], c, by rw [h.eq_nil hold]; rfl, .inl rfl⟩
    | cons e t =>
      obtain ⟨v, d', rfl, hd⟩ := ih (List.cons.inj hs).2
      exact ⟨d :: v, d', rfl, hd⟩
  | @replace s u h ih =>
    rcases List.eq_nil_or_concat' s with rfl | ⟨s', e, rfl⟩
    · rw [List.append_nil] at hs
      exact ⟨[], new, by rw [h.eq_nil hold]; rfl, .inr ⟨rfl, by rw [← hs, List.getLast?_concat]⟩⟩
    · rw [← List.append_assoc] at hs
      obtain ⟨-, he⟩ := List.append_inj' hs rfl
      obtain ⟨v, d', rfl, hd⟩ := ih (t := s') (by rw [he])
      exact ⟨new :: v, d', rfl, hd⟩

end Respelled

/-- A pass puts the glyph for occurrences of its spelling. -/
theorem respelled_respellFrom {old : Text} {new : Char} (hold : old ≠ []) (skip : Nat) (t : Text) :
    Respelled old new (t.drop skip) (respellFrom old new skip t) := by
  fun_induction respellFrom old new skip t with
  | case1 skip => simpa using Respelled.nil
  | case2 skip c rest ih => exact ih
  | case3 c rest hpre ih =>
    obtain ⟨o, os, rfl⟩ := List.exists_cons_of_ne_nil hold
    obtain ⟨tail, htail⟩ := List.isPrefixOf_iff_prefix.1 hpre
    rw [List.cons_append] at htail
    obtain ⟨rfl, rfl⟩ := List.cons.inj htail
    have hdrop : (os ++ tail).drop ((o :: os).length - 1) = tail := List.drop_left ..
    rw [hdrop] at ih
    exact .replace ih
  | case4 c rest hpre ih => exact .keep c ih

theorem respelled_respell {spelling : Text × Char} (hold : spelling.1 ≠ []) (t : Text) :
    Respelled spelling.1 spelling.2 t (respell t spelling) :=
  respelled_respellFrom hold 0 t

/-- A pass leaves no occurrence of its spelling. -/
theorem not_isInfix_respellFrom {old : Text} {new : Char} (hold : old ≠ []) (hnew : new ∉ old)
    (skip : Nat) (t : Text) : ¬ old <:+: respellFrom old new skip t := by
  fun_induction respellFrom old new skip t with
  | case1 skip => exact fun h => hold (List.infix_nil.1 h)
  | case2 skip c rest ih => exact ih
  | case3 c rest hpre ih =>
    intro h
    rcases List.infix_cons_iff.1 h with hstart | hlater
    · obtain ⟨o, os, rfl⟩ := List.exists_cons_of_ne_nil hold
      obtain ⟨rfl, -⟩ := List.cons_prefix_cons.1 hstart
      exact hnew List.mem_cons_self
    · exact ih hlater
  | case4 c rest hpre ih =>
    intro h
    rcases List.infix_cons_iff.1 h with hstart | hlater
    · obtain ⟨o, os, rfl⟩ := List.exists_cons_of_ne_nil hold
      obtain ⟨rfl, hrest⟩ := List.cons_prefix_cons.1 hstart
      have hbefore := (respelled_respellFrom hold 0 rest).isPrefix
        (fun hmem => hnew (List.mem_cons_of_mem _ hmem)) hrest
      exact hpre (List.isPrefixOf_iff_prefix.2 (List.cons_prefix_cons.2 ⟨rfl, hbefore⟩))
    · exact ih hlater

/-- A spelling that does not occur is not replaced anywhere. -/
theorem respellFrom_eq_self {old : Text} {new : Char} {t : Text} (h : ¬ old <:+: t) :
    respellFrom old new 0 t = t := by
  induction t with
  | nil => rfl
  | cons c rest ih =>
    have hpre : old.isPrefixOf (c :: rest) = false := by
      refine Bool.eq_false_iff.2 fun hpre => h ?_
      exact (List.isPrefixOf_iff_prefix.1 hpre).isInfix
    rw [respellFrom, if_neg (by simp [hpre]), ih fun hrest => h (List.infix_cons hrest)]

/-! ### Seams -/

/-- A spelling lies across a seam: its first characters end one text, and the others begin the
next. -/
def Straddles (old before after : Text) : Prop :=
  ∃ x y, x ≠ [] ∧ y ≠ [] ∧ old = x ++ y ∧ x <:+ before ∧ y <+: after

/-- A spelling does not lie across a seam before a character that can only start it. -/
theorem not_straddles_cons {old : Text} {c : Char} (hc : c ∉ old.tail) (a b : Text) :
    ¬ Straddles old a (c :: b) := by
  rintro ⟨x, y, hx, hy, rfl, -, hpre⟩
  obtain ⟨d, y, rfl⟩ := List.exists_cons_of_ne_nil hy
  obtain ⟨rfl, -⟩ := List.cons_prefix_cons.1 hpre
  rw [List.tail_append_of_ne_nil hx] at hc
  exact hc (List.mem_append_right _ List.mem_cons_self)

/-- A spelling does not lie across a seam behind a character that can only end it. -/
theorem not_straddles_concat {old : Text} {c : Char} (hc : c ∉ old.dropLast) (a b : Text) :
    ¬ Straddles old (a ++ [c]) b := by
  rintro ⟨x, y, hx, hy, rfl, hsuf, -⟩
  obtain ⟨x, d, rfl⟩ := (List.eq_nil_or_concat' x).resolve_left hx
  obtain ⟨z, hz⟩ := hsuf
  rw [← List.append_assoc] at hz
  obtain ⟨-, hd⟩ := List.append_inj' hz rfl
  cases hd
  rw [List.dropLast_append_of_ne_nil hy] at hc
  exact hc (by simp)

/-- A spelling without a character does not lie across a seam at it. -/
theorem not_straddles_of_not_mem {old : Text} {c : Char} (hc : c ∉ old) (a b : Text) :
    ¬ Straddles old a (c :: b) ∧ ¬ Straddles old (a ++ [c]) b :=
  ⟨not_straddles_cons (fun h => hc (List.mem_of_mem_tail h)) a b,
    not_straddles_concat (fun h => hc ((List.dropLast_prefix old).subset h)) a b⟩

section
variable {old : Text} {new : Char} {a b : Text}

theorem isPrefixOf_append (ha : a ≠ []) (h : ¬ Straddles old a b) :
    old.isPrefixOf (a ++ b) = old.isPrefixOf a := by
  rw [Bool.eq_iff_iff, List.isPrefixOf_iff_prefix, List.isPrefixOf_iff_prefix]
  refine ⟨fun hpre => ?_, fun hpre => hpre.trans (List.prefix_append a b)⟩
  rcases List.prefix_or_prefix_of_prefix hpre (List.prefix_append a b) with hshort | ⟨y, rfl⟩
  · exact hshort
  · by_cases hy : y = []
    · simp [hy]
    · exact absurd ⟨a, y, ha, hy, rfl, List.suffix_rfl, (List.prefix_append_right_inj a).1 hpre⟩ h

/-- Around a seam that the spelling does not lie across, a pass works on each side by itself. -/
theorem respellFrom_append (h : ¬ Straddles old a b) {skip : Nat} (hskip : skip ≤ a.length) :
    respellFrom old new skip (a ++ b) =
      respellFrom old new skip a ++ respellFrom old new 0 b := by
  induction a generalizing skip with
  | nil =>
    obtain rfl : skip = 0 := Nat.le_zero.1 hskip
    rfl
  | cons c a ih =>
    have hrest : ¬ Straddles old a b := by
      rintro ⟨x, y, hx, hy, hxy, hsuf, hpre⟩
      exact h ⟨x, y, hx, hy, hxy, hsuf.trans (List.suffix_cons c a), hpre⟩
    cases skip with
    | succ skip => exact ih hrest (Nat.le_of_succ_le_succ hskip)
    | zero =>
      have hfind := isPrefixOf_append (List.cons_ne_nil c a) h
      rw [List.cons_append] at hfind ⊢
      rw [respellFrom, respellFrom, hfind]
      split
      · next hpre =>
        have hlen := (List.isPrefixOf_iff_prefix.1 hpre).length_le
        rw [List.length_cons] at hlen
        rw [ih hrest (by omega), List.cons_append]
      · rw [ih hrest (Nat.zero_le _), List.cons_append]

/-- Around a character that the spelling does not hold, a pass works on each side by itself. -/
theorem respell_append_cons {spelling : Text × Char} {c : Char} (hold : spelling.1 ≠ [])
    (hc : c ∉ spelling.1) (a b : Text) :
    respell (a ++ c :: b) spelling = respell a spelling ++ c :: respell b spelling := by
  have hself : respell [c] spelling = [c] := by
    refine respellFrom_eq_self fun hfound => ?_
    obtain ⟨d, rest, hd⟩ := List.exists_cons_of_ne_nil hold
    have hmem : d ∈ spelling.1 := hd ▸ List.mem_cons_self
    exact hc (List.mem_singleton.1 (hfound.subset hmem) ▸ hmem)
  have hbefore : respell (a ++ c :: b) spelling = respell a spelling ++ respell (c :: b) spelling :=
    respellFrom_append (not_straddles_of_not_mem hc a b).1 (Nat.zero_le _)
  have hafter : respell ([c] ++ b) spelling = respell [c] spelling ++ respell b spelling :=
    respellFrom_append (not_straddles_of_not_mem hc [] b).2 (Nat.zero_le _)
  rw [hself, List.singleton_append, List.singleton_append] at hafter
  rw [hbefore, hafter]

/-- A pass puts no other spelling across a seam. -/
theorem Straddles.of_respelled {other a' b' : Text} (hnew : new ∉ other)
    (h : Straddles other a' b') (ha : Respelled old new a a') (hb : Respelled old new b b') :
    Straddles other a b := by
  obtain ⟨x, y, hx, hy, rfl, hsuf, hpre⟩ := h
  rw [List.mem_append, not_or] at hnew
  exact ⟨x, y, hx, hy, rfl, ha.isSuffix hnew.1 hsuf, hb.isPrefix hnew.2 hpre⟩

end

/-! ### All passes -/

/-- One text comes from another by passes for the spellings of a table, one after the other. -/
inductive RespelledBy : List (Text × Char) → Text → Text → Prop where
  | nil (t : Text) : RespelledBy [] t t
  | cons {spelling : Text × Char} {table : List (Text × Char)} {t u v : Text}
    (first : Respelled spelling.1 spelling.2 t u) (others : RespelledBy table u v) :
    RespelledBy (spelling :: table) t v

/-- No spelling is empty, and no glyph is part of one. -/
structure IsTable (table : List (Text × Char)) : Prop where
  ne_nil : ∀ spelling ∈ table, spelling.1 ≠ []
  not_mem : ∀ spelling ∈ table, ∀ other ∈ table, spelling.2 ∉ other.1

theorem isTable_spellings : IsTable spellings where
  ne_nil := by decide
  not_mem := by decide

namespace IsTable
variable {spelling : Text × Char} {table : List (Text × Char)}

theorem tail (h : IsTable (spelling :: table)) : IsTable table where
  ne_nil s hs := h.ne_nil s (List.mem_cons_of_mem _ hs)
  not_mem s hs s' hs' := h.not_mem s (List.mem_cons_of_mem _ hs) s' (List.mem_cons_of_mem _ hs')

/-- The first pass. -/
theorem respelled (h : IsTable (spelling :: table)) (t : Text) :
    Respelled spelling.1 spelling.2 t (respell t spelling) :=
  respelled_respell (h.ne_nil spelling List.mem_cons_self) t

/-- The glyph of the first pass is part of no later spelling. -/
theorem head_not_mem (h : IsTable (spelling :: table)) {later : Text × Char}
    (hlater : later ∈ table) : spelling.2 ∉ later.1 :=
  h.not_mem spelling List.mem_cons_self later (List.mem_cons_of_mem _ hlater)

theorem respelledBy (h : IsTable table) (t : Text) :
    RespelledBy table t (table.foldl respell t) := by
  induction table generalizing t with
  | nil => exact .nil t
  | cons spelling table ih => exact .cons (h.respelled t) (ih h.tail _)

end IsTable

namespace RespelledBy
variable {table : List (Text × Char)} {t u : Text}

/-- What is found of a spelling after all passes was there before. -/
theorem isInfix (h : RespelledBy table t u) {piece : Text}
    (hpiece : ∀ spelling ∈ table, spelling.2 ∉ piece) (hfound : piece <:+: u) : piece <:+: t := by
  induction h with
  | nil => exact hfound
  | @cons spelling table t u v first _ ih =>
    exact first.isInfix (hpiece spelling List.mem_cons_self)
      (ih (fun s hs => hpiece s (List.mem_cons_of_mem _ hs)) hfound)

/-- A text starts as before, or with the glyph for a spelling that starts so. -/
theorem exists_cons (h : IsTable table) {c : Char} (hu : RespelledBy table (c :: t) u) :
    ∃ d v, u = d :: v ∧
      (d = c ∨ ∃ spelling ∈ table, spelling.1.head? = some c ∧ spelling.2 = d) := by
  generalize hs : c :: t = s at hu
  induction hu generalizing c t with
  | nil => exact ⟨c, t, hs.symm, .inl rfl⟩
  | @cons spelling table s u v first _ ih =>
    subst hs
    obtain ⟨d, w, rfl, hd⟩ := first.exists_cons (h.ne_nil spelling List.mem_cons_self)
    obtain ⟨e, w', rfl, he⟩ := ih h.tail rfl
    refine ⟨e, w', rfl, ?_⟩
    rcases hd with rfl | ⟨rfl, hhead⟩
    · exact he.imp_right fun ⟨s, hs, hse⟩ => ⟨s, List.mem_cons_of_mem _ hs, hse⟩
    · rcases he with rfl | ⟨s, hs, hshead, -⟩
      · exact .inr ⟨spelling, List.mem_cons_self, hhead, rfl⟩
      · exact absurd (List.mem_of_head? hshead) (h.head_not_mem hs)

/-- A text ends as before, or with the glyph for a spelling that ends so. -/
theorem exists_concat (h : IsTable table) {c : Char} (hu : RespelledBy table (t ++ [c]) u) :
    ∃ v d, u = v ++ [d] ∧
      (d = c ∨ ∃ spelling ∈ table, spelling.1.getLast? = some c ∧ spelling.2 = d) := by
  generalize hs : t ++ [c] = s at hu
  induction hu generalizing c t with
  | nil => exact ⟨t, c, hs.symm, .inl rfl⟩
  | @cons spelling table s u v first _ ih =>
    subst hs
    obtain ⟨w, d, rfl, hd⟩ := first.exists_concat (h.ne_nil spelling List.mem_cons_self)
    obtain ⟨w', e, rfl, he⟩ := ih h.tail rfl
    refine ⟨w', e, rfl, ?_⟩
    rcases hd with rfl | ⟨rfl, hlast⟩
    · exact he.imp_right fun ⟨s, hs, hse⟩ => ⟨s, List.mem_cons_of_mem _ hs, hse⟩
    · rcases he with rfl | ⟨s, hs, hslast, -⟩
      · exact .inr ⟨spelling, List.mem_cons_self, hlast, rfl⟩
      · exact absurd (List.mem_of_getLast? hslast) (h.head_not_mem hs)

end RespelledBy

namespace IsTable
variable {spelling : Text × Char} {table : List (Text × Char)}

theorem not_isInfix_foldl (h : IsTable table) (hmem : spelling ∈ table) (t : Text) :
    ¬ spelling.1 <:+: table.foldl respell t := by
  induction table generalizing t with
  | nil => cases hmem
  | cons first table ih =>
    rcases List.mem_cons.1 hmem with rfl | hlater
    · intro hfound
      refine not_isInfix_respellFrom (h.ne_nil _ hmem) (h.not_mem _ hmem _ hmem) 0 t ?_
      exact (h.tail.respelledBy _).isInfix
        (fun s hs => h.not_mem s (List.mem_cons_of_mem _ hs) _ hmem) hfound
    · exact ih h.tail hlater _

theorem foldl_respell_append_cons (h : IsTable table) {c : Char}
    (hc : ∀ spelling ∈ table, c ∉ spelling.1) (a b : Text) :
    table.foldl respell (a ++ c :: b) = table.foldl respell a ++ c :: table.foldl respell b := by
  induction table generalizing a b with
  | nil => rfl
  | cons spelling table ih =>
    rw [List.foldl_cons, respell_append_cons (h.ne_nil spelling List.mem_cons_self)
      (hc spelling List.mem_cons_self)]
    exact ih h.tail (fun s hs => hc s (List.mem_cons_of_mem _ hs)) _ _

theorem foldl_respell_eq_self (h : IsTable table) {t : Text}
    (hnone : ∀ spelling ∈ table, ¬ spelling.1 <:+: t) : table.foldl respell t = t := by
  induction table with
  | nil => rfl
  | cons spelling table ih =>
    have hfirst : respell t spelling = t := respellFrom_eq_self (hnone spelling List.mem_cons_self)
    rw [List.foldl_cons, hfirst]
    exact ih h.tail fun s hs => hnone s (List.mem_cons_of_mem _ hs)

end IsTable

namespace Text

/-- No spelling is left. -/
theorem not_isInfix_glyphs {spelling : Text × Char} (h : spelling ∈ spellings) (t : Text) :
    ¬ spelling.1 <:+: t.glyphs := isTable_spellings.not_isInfix_foldl h t

theorem glyphs_eq_self {t : Text} (h : ∀ spelling ∈ spellings, ¬ spelling.1 <:+: t) :
    t.glyphs = t := isTable_spellings.foldl_respell_eq_self h

/-- A text in glyphs stays as it is. -/
theorem glyphs_glyphs (t : Text) : t.glyphs.glyphs = t.glyphs :=
  glyphs_eq_self fun _ hs => not_isInfix_glyphs hs t

end Text
end LogicTrainer
