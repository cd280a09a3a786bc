import LogicTrainer.Storage.Path

/-! Paths and the texts that spell them.

A path that was read has none of the names that are left out (`isNormal_ofText`), and such a path
is read back from how it is written (`ofText_text`). So a text that spells a path may be replaced by
the written path. -/
namespace LogicTrainer.Path

/-- A path that a text can spell: no slash, one or two, and names that are neither empty nor a dot
and have no slash. -/
structure IsNormal (p : Path) : Prop where
  root : p.root = [] ∨ p.root = ['/'] ∨ p.root = ['/', '/']
  parts : ∀ name ∈ p.parts, '/' ∉ name ∧ name ≠ [] ∧ name ≠ ['.']

/-! ### Pieces -/

theorem pieces_ne_nil (t : Text) : pieces t ≠ [] := by
  cases t with
  | nil => exact List.cons_ne_nil _ _
  | cons c t =>
    rw [pieces]
    split
    · exact List.cons_ne_nil _ _
    · split <;> exact List.cons_ne_nil _ _

theorem pieces_cons {c : Char} (h : c ≠ '/') (t : Text) :
    ∃ piece more, pieces t = piece :: more ∧ pieces (c :: t) = (c :: piece) :: more := by
  obtain ⟨piece, more, hpieces⟩ := List.exists_cons_of_ne_nil (pieces_ne_nil t)
  refine ⟨piece, more, hpieces, ?_⟩
  rw [pieces, if_neg h, hpieces]

theorem no_slash_of_mem_pieces {t piece : Text} (h : piece ∈ pieces t) : '/' ∉ piece := by
  induction t generalizing piece with
  | nil =>
    obtain rfl := List.mem_singleton.1 h
    exact List.not_mem_nil
  | cons c t ih =>
    by_cases hc : c = '/'
    · rw [pieces, if_pos hc] at h
      rcases List.mem_cons.1 h with rfl | h
      · exact List.not_mem_nil
      · exact ih h
    · obtain ⟨first, more, hpieces, hcons⟩ := pieces_cons hc t
      rw [hcons] at h
      rcases List.mem_cons.1 h with rfl | h
      · refine fun hmem => ?_
        rcases List.mem_cons.1 hmem with heq | hmem
        · exact hc heq.symm
        · exact ih (hpieces ▸ List.mem_cons_self) hmem
      · exact ih (hpieces ▸ List.mem_cons_of_mem _ h)

theorem pieces_of_no_slash {t : Text} (h : '/' ∉ t) : pieces t = [t] := by
  induction t with
  | nil => rfl
  | cons c t ih =>
    rw [List.mem_cons, not_or] at h
    rw [pieces, if_neg fun heq => h.1 heq.symm, ih h.2]

theorem pieces_append_slash {name : Text} (h : '/' ∉ name) (t : Text) :
    pieces (name ++ '/' :: t) = name :: pieces t := by
  induction name with
  | nil => rfl
  | cons c name ih =>
    rw [List.mem_cons, not_or] at h
    rw [List.cons_append, pieces, if_neg fun heq => h.1 heq.symm, ih h.2]

/-- Joined names are taken apart again. -/
theorem pieces_join {names : List Text} (hne : names ≠ []) (h : ∀ name ∈ names, '/' ∉ name) :
    pieces (Text.join ['/'] names) = names := by
  induction names with
  | nil => exact absurd rfl hne
  | cons name names ih =>
    obtain ⟨hname, hnames⟩ := List.forall_mem_cons.1 h
    cases names with
    | nil =>
      rw [Text.join, List.intercalate_singleton]
      exact pieces_of_no_slash hname
    | cons next names =>
      rw [Text.join, List.intercalate_cons_cons, List.append_assoc]
      exact (pieces_append_slash hname _).trans
        (congrArg (name :: ·) (ih (List.cons_ne_nil _ _) hnames))

/-! ### Reading and writing -/

theorem rootOf_cases (t : Text) : rootOf t = [] ∨ rootOf t = ['/'] ∨ rootOf t = ['/', '/'] := by
  unfold rootOf
  split
  · exact .inr (.inl rfl)
  · exact .inr (.inr rfl)
  · exact .inr (.inl rfl)
  · exact .inl rfl

theorem isNormal_ofText (t : Text) : (ofText t).IsNormal where
  root := rootOf_cases t
  parts name hname := by
    obtain ⟨hmem, hkept⟩ := List.mem_filter.1 hname
    rw [Bool.and_eq_true, bne_iff_ne, bne_iff_ne] at hkept
    exact ⟨no_slash_of_mem_pieces hmem, hkept⟩

section
variable {p : Path} (h : p.IsNormal)
include h

/-- The names of a path do not start with a slash. -/
theorem head?_join : (Text.join ['/'] p.parts).head? ≠ some '/' := by
  cases hparts : p.parts with
  | nil => exact fun heq => by cases heq
  | cons name names =>
    obtain ⟨hslash, hne, -⟩ := h.parts name (hparts ▸ List.mem_cons_self)
    obtain ⟨c, rest, rfl⟩ := List.exists_cons_of_ne_nil hne
    have hc : c ≠ '/' := fun heq => hslash (heq ▸ List.mem_cons_self)
    cases names with
    | nil => simpa [Text.join] using hc
    | cons next names => simpa [Text.join, List.intercalate_cons_cons] using hc

theorem rootOf_root_append : rootOf (p.root ++ Text.join ['/'] p.parts) = p.root := by
  have hhead := head?_join h
  generalize Text.join ['/'] p.parts = names at hhead
  cases names with
  | nil => rcases h.root with hroot | hroot | hroot <;> rw [hroot] <;> rfl
  | cons c names =>
    have hc : c ≠ '/' := fun heq => hhead (heq ▸ rfl)
    rcases h.root with hroot | hroot | hroot <;> simp [hroot, rootOf, hc]

theorem filter_pieces_root_append :
    (pieces (p.root ++ Text.join ['/'] p.parts)).filter (fun piece => piece != [] && piece != ['.']) =
      p.parts := by
  have hparts : (pieces (Text.join ['/'] p.parts)).filter
      (fun piece => piece != [] && piece != ['.']) = p.parts := by
    by_cases hne : p.parts = []
    · rw [hne]
      rfl
    · rw [pieces_join hne fun name hname => (h.parts name hname).1]
      refine List.filter_eq_self.2 fun name hname => ?_
      rw [Bool.and_eq_true, bne_iff_ne, bne_iff_ne]
      exact (h.parts name hname).2
  have hslash : ∀ t, (pieces ('/' :: t)).filter (fun piece => piece != [] && piece != ['.']) =
      (pieces t).filter fun piece => piece != [] && piece != ['.'] := fun t => rfl
  rcases h.root with hroot | hroot | hroot <;> rw [hroot]
  · exact hparts
  · exact (hslash _).trans hparts
  · exact (hslash _).trans ((hslash _).trans hparts)

/-- A path is read back from how it is written. -/
theorem ofText_text : ofText p.text = p := by
  by_cases hdot : (p.root.isEmpty && p.parts.isEmpty) = true
  · rw [text, if_pos hdot]
    simp only [Bool.and_eq_true, List.isEmpty_iff] at hdot
    obtain ⟨root, parts⟩ := p
    obtain ⟨rfl, rfl⟩ := hdot
    rfl
  · rw [text, if_neg hdot, ofText, rootOf_root_append h, filter_pieces_root_append h]

theorem text_ne_nil : p.text ≠ [] := by
  rw [text]
  split
  · exact List.cons_ne_nil _ _
  · next hdot =>
    intro hnil
    obtain ⟨hroot, hjoin⟩ := List.append_eq_nil_iff.1 hnil
    apply hdot
    rw [hroot, List.isEmpty_nil, Bool.true_and, List.isEmpty_iff]
    refine Classical.byContradiction fun hne => ?_
    have hpieces := pieces_join hne fun name hname => (h.parts name hname).1
    rw [hjoin] at hpieces
    exact (h.parts [] (hpieces ▸ List.mem_cons_self)).2.1 rfl

end
end LogicTrainer.Path
