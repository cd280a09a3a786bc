import LogicTrainer.Storage.Files

/-! Files that stay where they are.

A path leads to one place, whatever is in the tree (`Path.target`); following it only asks
whether there are directories on the way. So a text that can be read under a path is at its
place (`read_eq_ok_iff`), and is read under the same path after more is written there
(`read_append`). Making a directory keeps what is in the tree and makes nothing but directories
(`Grows`). Where no file is in the way, the directory of a path can be made, and a file in it
(`Admits`). -/
namespace LogicTrainer

/-- The place that the names of a path lead to. -/
def Path.target (p : Path) : List Text := p.parts.foldl Files.stepTo []

namespace Files

theorem node?_put (fs : Files) (place : List Text) (node : FileNode) (q : List Text) :
    (fs.put place node).node? q =
      if q = [] then some .directory else if q = place then some node else fs.node? q := by
  cases q with
  | nil => rfl
  | cons name rest =>
    simp only [node?, put, List.lookup_cons, List.isEmpty_cons, reduceCtorEq, Bool.false_eq_true,
      if_false]
    split
    · next h => rw [if_pos (beq_iff_eq.1 h)]
    · next h => rw [if_neg (beq_eq_false_iff_ne.1 h)]

/-! ### Following -/

section
variable {fs fs' : Files} {names place q : List Text}

theorem eq_foldl_of_follow (h : fs.follow place names = .ok q) : q = names.foldl stepTo place := by
  induction names generalizing place with
  | nil =>
    cases h
    rfl
  | cons name rest ih =>
    rw [follow] at h
    split at h
    · cases h
    · cases h
    · exact ih h

theorem follow_append (place a b : List Text) :
    fs.follow place (a ++ b) = (fs.follow place a).bind fun q => fs.follow q b := by
  induction a generalizing place with
  | nil => rfl
  | cons name rest ih =>
    rw [List.cons_append, follow, follow]
    split
    · rfl
    · rfl
    · exact ih _

/-- Where directories stay directories, names lead where they led. -/
theorem follow_of_directories
    (h : ∀ q, fs.node? q = some .directory → fs'.node? q = some .directory)
    (hq : fs.follow place names = .ok q) : fs'.follow place names = .ok q := by
  induction names generalizing place with
  | nil => exact hq
  | cons name rest ih =>
    rw [follow] at hq ⊢
    split at hq
    · cases hq
    · cases hq
    · next hplace =>
      rw [h _ hplace]
      exact ih hq

/-- Putting a file where there is no directory leaves the directories. -/
theorem directory_put (hplace : fs.node? place ≠ some .directory) (text : Text)
    (hq : fs.node? q = some .directory) :
    (fs.put place (.file text)).node? q = some .directory := by
  rw [node?_put]
  split
  · rfl
  · split
    · next heq => exact absurd (heq ▸ hq) hplace
    · exact hq

end

/-! ### Reading -/

section
variable {fs : Files} {p : Path} {text : Text}

/-- A text that can be read is the file at the place of the path. -/
theorem read_eq_ok_iff : fs.read p = .ok text ↔
    fs.locate p = .ok p.target ∧ fs.node? p.target = some (.file text) := by
  rw [read]
  cases hlocate : fs.locate p with
  | error e => simp [bind, Except.bind]
  | ok place =>
    obtain rfl : place = p.target := eq_foldl_of_follow hlocate
    simp only [bind, Except.bind, true_and]
    cases fs.node? p.target with
    | none => simp [throw, throwThe, MonadExceptOf.throw]
    | some node => cases node <;> simp [throw, throwThe, MonadExceptOf.throw, pure, Except.pure]

theorem holds_of_read (h : fs.read p = .ok text) : fs.holds p = true := by
  obtain ⟨hlocate, hnode⟩ := read_eq_ok_iff.1 h
  simp only [holds, hlocate, hnode, Option.isSome_some]

/-- What is written at the end is read after what was there. -/
theorem read_append (h : fs.read p = .ok text) (more : Text) :
    (fs.append p.target more).read p = .ok (text ++ more) := by
  obtain ⟨hlocate, hnode⟩ := read_eq_ok_iff.1 h
  have hne : p.target ≠ [] := by
    intro heq
    rw [heq] at hnode
    cases hnode
  have htext : fs.textAt p.target = text := by rw [textAt, hnode]
  rw [append, htext, read_eq_ok_iff]
  refine ⟨follow_of_directories (fun q => directory_put ?_ _) hlocate, ?_⟩
  · rw [hnode]
    exact fun heq => by cases heq
  · rw [node?_put, if_neg hne, if_pos rfl]

end

/-! ### Making directories -/

/-- One tree is another with more directories. -/
structure Grows (fs fs' : Files) : Prop where
  keeps : ∀ q node, fs.node? q = some node → fs'.node? q = some node
  adds : ∀ q text, fs'.node? q = some (.file text) → fs.node? q = some (.file text)

theorem Grows.refl (fs : Files) : Grows fs fs := ⟨fun _ _ h => h, fun _ _ h => h⟩

theorem Grows.trans {a b c : Files} (hab : Grows a b) (hbc : Grows b c) : Grows a c :=
  ⟨fun q node h => hbc.keeps q node (hab.keeps q node h),
    fun q text h => hab.adds q text (hbc.adds q text h)⟩

section
variable {fs fs' : Files} {place rest : List Text}

theorem grows_put (h : fs.node? place = none) : Grows fs (fs.put place .directory) where
  keeps q node hq := by
    rw [node?_put]
    split
    · next heq =>
      subst heq
      exact hq
    · split
      · next heq =>
        rw [heq, h] at hq
        cases hq
      · exact hq
  adds q text hq := by
    rw [node?_put] at hq
    split at hq
    · cases hq
    · split at hq
      · cases hq
      · exact hq

theorem Grows.of_ensure (h : fs.ensure place rest = .ok fs') : Grows fs fs' := by
  induction rest generalizing fs place with
  | nil =>
    cases h
    exact Grows.refl _
  | cons name rest ih =>
    rw [ensure] at h
    split at h
    · exact ih h
    · cases h
    · next hnone => exact (grows_put hnone).trans (ih h)

theorem Grows.of_makeDirectory {p : Path} (h : fs.makeDirectory p = .ok fs') : Grows fs fs' := by
  rw [makeDirectory] at h
  split at h
  · cases h
    exact Grows.refl fs
  · exact of_ensure h

/-- Directories were made at every name of a way, and only there. -/
structure Ensured (fs : Files) (place rest : List Text) (fs' : Files) : Prop where
  made : fs.ensure place rest = .ok fs'
  follow : fs'.follow place rest = .ok (rest.foldl stepTo place)
  last : fs'.node? (rest.foldl stepTo place) = some .directory
  only : ∀ q, fs'.node? q = some .directory →
    fs.node? q = some .directory ∨ ∃ k, q = (rest.take k).foldl stepTo place

/-- The way goes on from the next directory, be it there or made now. -/
theorem Ensured.cons {fs₁ : Files} {name : Text} (h : Ensured fs₁ (stepTo place name) rest fs')
    (hgrows : Grows fs fs₁) (hplace : fs.node? place = some .directory)
    (hnext : fs.ensure place (name :: rest) = fs₁.ensure (stepTo place name) rest)
    (honly : ∀ q, fs₁.node? q = some .directory →
      fs.node? q = some .directory ∨ q = stepTo place name) :
    Ensured fs place (name :: rest) fs' where
  made := hnext.trans h.made
  follow := by
    rw [Files.follow, (hgrows.trans (Grows.of_ensure h.made)).keeps _ _ hplace]
    exact h.follow
  last := h.last
  only q hq := by
    rcases h.only q hq with hq | ⟨k, rfl⟩
    · exact (honly q hq).imp id fun heq => ⟨1, heq⟩
    · exact .inr ⟨k + 1, rfl⟩

/-- Where no file is in the way, directories are made. -/
theorem exists_ensured (hplace : fs.node? place = some .directory)
    (hway : ∀ k text, fs.node? ((rest.take k).foldl stepTo place) ≠ some (.file text)) :
    ∃ fs', Ensured fs place rest fs' := by
  induction rest generalizing fs place with
  | nil => exact ⟨fs, rfl, rfl, hplace, fun q hq => .inl hq⟩
  | cons name rest ih =>
    have hnext : ∀ k text, fs.node? ((rest.take k).foldl stepTo (stepTo place name)) ≠
        some (.file text) := fun k => hway (k + 1)
    cases hnode : fs.node? (stepTo place name) with
    | none =>
      have hgrows := grows_put hnode
      have hmade : (fs.put (stepTo place name) .directory).node? (stepTo place name) =
          some .directory := by
        rw [node?_put]
        split <;> simp
      obtain ⟨fs', h⟩ := ih hmade fun k text hfile => hnext k text (hgrows.adds _ _ hfile)
      refine ⟨fs', h.cons hgrows hplace (by simp only [ensure, hnode]) fun q hq => ?_⟩
      rw [node?_put] at hq
      split at hq
      · next hroot => exact .inl (hroot ▸ rfl)
      · split at hq
        · next heq => exact .inr heq
        · exact .inl hq
    | some node =>
      cases node with
      | file text => exact absurd hnode (hnext 0 text)
      | directory =>
        obtain ⟨fs', h⟩ := ih hnode hnext
        exact ⟨fs', h.cons (Grows.refl fs) hplace (by simp only [ensure, hnode])
          fun q hq => .inl hq⟩

end

/-! ### Making files -/

section
variable {fs fs' : Files} {p : Path} {place : List Text}

theorem touch_of_read {text : Text} (h : fs.read p = .ok text) :
    fs.touch p = .ok (p.target, fs) := by
  obtain ⟨hlocate, hnode⟩ := read_eq_ok_iff.1 h
  simp only [touch, hlocate, bind, Except.bind, hnode, pure, Except.pure]

/-- Where there is nothing at the end of a path, an empty file is made. -/
theorem touch_of_absent (hlocate : fs.locate p = .ok p.target) (h : fs.node? p.target = none) :
    fs.touch p = .ok (p.target, fs.put p.target (.file [])) := by
  simp only [touch, hlocate, bind, Except.bind, h, pure, Except.pure]

/-- An empty file that is made is read as such. -/
theorem read_put_empty (hlocate : fs.locate p = .ok p.target) (h : fs.node? p.target = none) :
    (fs.put p.target (.file [])).read p = .ok [] := by
  have hne : p.target ≠ [] := by
    intro heq
    rw [heq] at h
    cases h
  refine read_eq_ok_iff.2 ⟨follow_of_directories (fun q => directory_put ?_ _) hlocate, ?_⟩
  · rw [h]
    exact fun heq => by cases heq
  · rw [node?_put, if_neg hne, if_pos rfl]

/-- Whatever was there, a file that is made sure of can be read. -/
theorem read_of_touch (h : fs.touch p = .ok (place, fs')) :
    place = p.target ∧ ∃ text, fs'.read p = .ok text ∧
      (fs.node? p.target = some (.file text) ∨ fs.node? p.target = none ∧ text = []) := by
  cases hlocate : fs.locate p with
  | error e =>
    rw [touch, hlocate] at h
    cases h
  | ok q =>
    obtain rfl : q = p.target := eq_foldl_of_follow hlocate
    cases hnode : fs.node? p.target with
    | none =>
      rw [touch_of_absent hlocate hnode] at h
      cases h
      exact ⟨rfl, [], read_put_empty hlocate hnode, .inr ⟨rfl, rfl⟩⟩
    | some node =>
      cases node with
      | file text =>
        have hread := read_eq_ok_iff.2 ⟨hlocate, hnode⟩
        rw [touch_of_read hread] at h
        cases h
        exact ⟨rfl, text, hread, .inl rfl⟩
      | directory =>
        simp only [touch, hlocate, bind, Except.bind, hnode] at h
        cases h

theorem exists_parts_eq (hne : p.parts ≠ []) : ∃ last, p.parts = p.parent.parts ++ [last] :=
  ⟨_, (List.dropLast_concat_getLast hne).symm⟩

theorem parts_ne_nil (h : fs.node? p.target ≠ some .directory) : p.parts ≠ [] := by
  intro hnil
  have hroot : p.target = [] := by rw [Path.target, hnil, List.foldl_nil]
  exact h (hroot ▸ rfl)

/-- A path leads to its end exactly when its directory is there. -/
theorem locate_eq_ok_iff (hne : p.parts ≠ []) : fs.locate p = .ok p.target ↔
    fs.locate p.parent = .ok p.parent.target ∧ fs.node? p.parent.target = some .directory := by
  obtain ⟨last, hparts⟩ := exists_parts_eq hne
  have htarget : p.target = stepTo p.parent.target last := by
    rw [Path.target, hparts, List.foldl_append]
    rfl
  have hfollow : fs.locate p = (fs.locate p.parent).bind fun q => fs.follow q [last] := by
    rw [locate, hparts, follow_append]
    rfl
  rw [hfollow, htarget]
  cases hlocate : fs.locate p.parent with
  | error e => simp [Except.bind]
  | ok q =>
    obtain rfl : q = p.parent.target := eq_foldl_of_follow hlocate
    show fs.follow p.parent.target [last] = _ ↔ _
    rw [follow]
    cases fs.node? p.parent.target with
    | none => simp
    | some node => cases node <;> simp [follow]

/-- Where a text can be read, the directory is there. -/
theorem makeDirectory_of_read {text : Text} (h : fs.read p = .ok text) :
    fs.makeDirectory p.parent = .ok fs := by
  obtain ⟨hlocate, hnode⟩ := read_eq_ok_iff.1 h
  have hne : p.parts ≠ [] := parts_ne_nil (by rw [hnode]; exact fun heq => by cases heq)
  obtain ⟨hparent, hdirectory⟩ := (locate_eq_ok_iff hne).1 hlocate
  have hholds : fs.holds p.parent = true := by
    simp only [holds, hparent]
    rw [hdirectory]
    rfl
  rw [makeDirectory, if_pos hholds]

/-- A file can be made at a path: no file is on the way to it, nor a directory at its end, where
the way does not pass either. -/
structure Admits (fs : Files) (p : Path) : Prop where
  way : ∀ k < p.parts.length, ∀ text, fs.node? ((p.parts.take k).foldl stepTo []) ≠
    some (.file text)
  apart : ∀ k < p.parts.length, (p.parts.take k).foldl stepTo [] ≠ p.target
  last : fs.node? p.target ≠ some .directory

/-- No file is on the way to the directory of such a path. -/
theorem Admits.way_parent (h : fs.Admits p) : ∀ k text,
    fs.node? ((p.parent.parts.take k).foldl stepTo []) ≠ some (.file text) := by
  intro k
  have hlength := List.length_pos_iff.2 (parts_ne_nil h.last)
  rw [Path.parent, List.dropLast_eq_take, List.take_take]
  exact h.way _ (by omega)

/-- What is at the end of a way with no file on it is a directory. -/
theorem directory_of_holds (h : fs.holds p = true)
    (hway : ∀ k text, fs.node? ((p.parts.take k).foldl stepTo []) ≠ some (.file text)) :
    fs.locate p = .ok p.target ∧ fs.node? p.target = some .directory := by
  rw [holds] at h
  split at h
  · next place hlocate =>
    obtain rfl : place = p.target := eq_foldl_of_follow hlocate
    refine ⟨hlocate, ?_⟩
    cases hnode : fs.node? p.target with
    | none =>
      rw [hnode] at h
      cases h
    | some node =>
      cases node with
      | directory => rfl
      | file text =>
        refine absurd ?_ (hway p.parts.length text)
        rw [List.take_length]
        exact hnode
  · cases h

/-- Where a file can be made, its directory is made, or is there. -/
theorem Admits.exists_makeDirectory (h : fs.Admits p) : ∃ fs',
    fs.makeDirectory p.parent = .ok fs' ∧ fs'.locate p = .ok p.target ∧
      fs'.node? p.target ≠ some .directory := by
  have hne := parts_ne_nil h.last
  rw [makeDirectory]
  by_cases hholds : fs.holds p.parent
  · rw [if_pos hholds]
    exact ⟨fs, rfl, (locate_eq_ok_iff hne).2 (directory_of_holds hholds h.way_parent), h.last⟩
  · rw [if_neg hholds]
    obtain ⟨fs', hensured⟩ := exists_ensured rfl h.way_parent
    refine ⟨fs', hensured.made, (locate_eq_ok_iff hne).2 ⟨hensured.follow, hensured.last⟩,
      fun hdirectory => ?_⟩
    rcases hensured.only _ hdirectory with hthere | ⟨k, hk⟩
    · exact h.last hthere
    · have hlength := List.length_pos_iff.2 hne
      rw [Path.parent, List.dropLast_eq_take, List.take_take] at hk
      exact h.apart _ (by omega) hk.symm

end
end Files
end LogicTrainer
