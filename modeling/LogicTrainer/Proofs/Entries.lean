import Mathlib.Data.List.Induction
import LogicTrainer.Entries

/-! Entries with distinct names.

Names that occur once are entered as they stand (`ofPairs_eq_self`), and each is found with
the value it stands with (`get?_of_mem`). Where a name is set several times, the last decides
(`get?_ofPairs`), whatever the other names are, and the first says where the name stands
(`keys_ofPairs`). -/
namespace LogicTrainer.Entries
variable {β : Type}

/-- A new name goes to the end. -/
theorem insert_of_not_mem {key : Text} {value : β} {es : Entries β} (h : key ∉ es.keys) :
    insert key value es = es ++ [(key, value)] := by
  induction es with
  | nil => rfl
  | cons e es ih =>
    obtain ⟨k, v⟩ := e
    simp only [keys, List.map_cons, List.mem_cons, not_or] at h
    rw [insert, if_neg (Ne.symm h.1), ih h.2, List.cons_append]

theorem insertAll_eq_append {pairs : List (Text × β)} {es : Entries β}
    (h : (keys (es ++ pairs)).Nodup) : insertAll es pairs = es ++ pairs := by
  induction pairs generalizing es with
  | nil => exact (List.append_nil es).symm
  | cons p pairs ih =>
    have hp : p.1 ∉ es.keys := by
      rw [keys, List.map_append, List.nodup_append] at h
      intro hmem
      exact h.2.2 _ hmem _ List.mem_cons_self rfl
    rw [List.append_cons, ← insert_of_not_mem hp] at h
    have hrest := ih h
    rw [insertAll, List.foldl_cons]
    show insertAll (insert p.1 p.2 es) pairs = _
    rw [hrest, insert_of_not_mem hp, ← List.append_cons]

/-- Names that occur once are entered as they stand. -/
theorem ofPairs_eq_self {pairs : List (Text × β)} (h : (keys pairs).Nodup) :
    ofPairs pairs = pairs := insertAll_eq_append h

/-- The names that occur are the ones with a value. -/
theorem isSome_get?_iff {es : Entries β} {key : Text} :
    (get? key es).isSome = true ↔ key ∈ es.keys := by
  induction es with
  | nil => exact ⟨fun h => (by cases h), fun h => absurd h List.not_mem_nil⟩
  | cons e es ih =>
    obtain ⟨k, v⟩ := e
    rw [get?, keys, List.map_cons, List.mem_cons, ← keys, ← ih]
    split
    · next h => exact ⟨fun _ => .inl h.symm, fun _ => rfl⟩
    · next h => exact ⟨.inr, fun hk => hk.resolve_left (Ne.symm h)⟩

/-- A name that occurs once has the value it stands with. -/
theorem get?_of_mem {es : Entries β} (h : es.keys.Nodup) {key : Text} {value : β}
    (hm : (key, value) ∈ es) : get? key es = some value := by
  induction es with
  | nil => cases hm
  | cons e es ih =>
    obtain ⟨hnew, hrest⟩ := List.nodup_cons.1 h
    rcases List.mem_cons.1 hm with rfl | hm
    · exact if_pos rfl
    · have hne : e.1 ≠ key := by
        rintro rfl
        exact hnew (List.mem_map_of_mem (f := (·.1)) hm)
      rw [get?, if_neg hne]
      exact ih hrest hm

/-- What names stand for, in order. -/
theorem map_keys {γ : Type} {es : Entries β} (h : es.keys.Nodup) {φ : Text → γ} {ψ : β → γ}
    (hφ : ∀ key value, get? key es = some value → φ key = ψ value) :
    es.keys.map φ = es.map fun entry => ψ entry.2 := by
  rw [keys, List.map_map]
  exact List.map_congr_left fun entry he => hφ entry.1 entry.2 (get?_of_mem h he)

/-- The value that is found stands with the name. -/
theorem mem_of_get? {es : Entries β} {key : Text} {value : β} (h : get? key es = some value) :
    (key, value) ∈ es := by
  induction es with
  | nil => cases h
  | cons e es ih =>
    obtain ⟨k, v⟩ := e
    rw [get?] at h
    split at h
    · next hk =>
      cases h
      exact hk ▸ List.mem_cons_self
    · exact List.mem_cons_of_mem _ (ih h)

/-- Changing all values changes the value that is found. -/
theorem get?_map {γ : Type} (φ : β → γ) (es : Entries β) (key : Text) :
    get? key (es.map fun entry => (entry.1, φ entry.2)) = (get? key es).map φ := by
  induction es with
  | nil => rfl
  | cons e es ih =>
    rw [List.map_cons, get?, get?]
    split
    · rfl
    · exact ih

theorem keys_map {γ : Type} (φ : β → γ) (es : Entries β) :
    keys (es.map fun entry => (entry.1, φ entry.2)) = es.keys := by
  rw [keys, List.map_map]
  rfl

/-- Changing all values changes the value that is set. -/
theorem map_insert {γ : Type} (φ : β → γ) (key : Text) (value : β) (es : Entries β) :
    (insert key value es).map (fun entry => (entry.1, φ entry.2)) =
      insert key (φ value) (es.map fun entry => (entry.1, φ entry.2)) := by
  induction es with
  | nil => rfl
  | cons e es ih =>
    obtain ⟨k, v⟩ := e
    rw [insert, List.map_cons, insert]
    split
    · rfl
    · rw [List.map_cons, ih]

/-- Setting a name to the value it has does nothing. -/
theorem insert_of_get? {es : Entries β} {key : Text} {value : β} (h : get? key es = some value) :
    insert key value es = es := by
  induction es with
  | nil => cases h
  | cons e es ih =>
    obtain ⟨k, v⟩ := e
    rw [get?] at h
    rw [insert]
    split at h
    · next hk =>
      cases h
      rw [if_pos hk, hk]
    · next hk => rw [if_neg hk, ih h]

theorem mem_insert {es : Entries β} {key : Text} {value : β} {entry : Text × β}
    (h : entry ∈ insert key value es) : entry = (key, value) ∨ entry ∈ es := by
  induction es with
  | nil => exact .inl (List.mem_singleton.1 h)
  | cons e es ih =>
    obtain ⟨k, v⟩ := e
    rw [insert] at h
    split at h
    · next hk =>
      rcases List.mem_cons.1 h with rfl | h
      · exact .inl (by rw [hk])
      · exact .inr (List.mem_cons_of_mem _ h)
    · rcases List.mem_cons.1 h with rfl | h
      · exact .inr List.mem_cons_self
      · exact (ih h).imp id (List.mem_cons_of_mem _)

theorem mem_insertAll {pairs : List (Text × β)} {es : Entries β} {entry : Text × β}
    (h : entry ∈ insertAll es pairs) : entry ∈ es ∨ entry ∈ pairs := by
  induction pairs generalizing es with
  | nil => exact .inl h
  | cons pair pairs ih =>
    rcases ih h with h | h
    · rcases mem_insert h with rfl | h
      · exact .inr List.mem_cons_self
      · exact .inl h
    · exact .inr (List.mem_cons_of_mem _ h)

/-- The last of the values that a name is set to is found, and without one the value before. -/
theorem get?_insertAll (pairs : List (Text × β)) (es : Entries β) (key : Text) :
    get? key (insertAll es pairs) =
      ((pairs.filter (·.1 == key)).getLast?.map (·.2)).or (get? key es) := by
  induction pairs generalizing es with
  | nil => rfl
  | cons pair pairs ih =>
    have hrest : get? key (insertAll es (pair :: pairs)) = _ := ih (insert pair.1 pair.2 es)
    rw [hrest, get?_insert, List.filter_cons]
    by_cases hk : pair.1 = key
    · rw [if_pos hk, if_pos (beq_iff_eq.2 hk), List.getLast?_cons]
      cases (pairs.filter (·.1 == key)).getLast? <;> rfl
    · rw [if_neg hk, if_neg (mt beq_iff_eq.1 hk)]

/-- Of the values that a name is set to, the last is found. -/
theorem get?_ofPairs (pairs : List (Text × β)) (key : Text) :
    get? key (ofPairs pairs) = (pairs.filter (·.1 == key)).getLast?.map (·.2) := by
  rw [ofPairs, get?_insertAll]
  exact Option.or_none

/-- Setting a name leaves the entries of other names where they are. -/
theorem filter_insert {key : Text} (value : β) (es : Entries β) {p : Text → Bool}
    (hkey : p key = false) :
    (insert key value es).filter (fun entry => p entry.1) = es.filter fun entry => p entry.1 := by
  induction es with
  | nil => simp [insert, hkey]
  | cons e es ih =>
    obtain ⟨k, v⟩ := e
    rw [insert]
    split
    · next hk =>
      subst hk
      rw [List.filter_cons_of_neg (by simp [hkey]), List.filter_cons_of_neg (by simp [hkey])]
    · rw [List.filter_cons, List.filter_cons, ih]

/-- Entries of the same distinct names are the same if every name has the same value. -/
theorem ext_of_get? {es es' : Entries β} (h : es.keys.Nodup) (hkeys : es.keys = es'.keys)
    (hvalue : ∀ key ∈ es.keys, get? key es = get? key es') : es = es' := by
  induction es generalizing es' with
  | nil => exact (List.map_eq_nil_iff.1 hkeys.symm).symm
  | cons e es ih =>
    cases es' with
    | nil => cases hkeys
    | cons e' es' =>
      obtain ⟨k, v⟩ := e
      obtain ⟨k', v'⟩ := e'
      obtain ⟨hhead, htail⟩ := List.cons.inj hkeys
      obtain rfl : k = k' := hhead
      obtain ⟨hnew, hrest⟩ := List.nodup_cons.1 h
      have hfirst := hvalue k List.mem_cons_self
      rw [get?, get?, if_pos rfl, if_pos rfl] at hfirst
      have hes : es = es' := by
        refine ih hrest htail fun key hk => ?_
        have hne : k ≠ key := by
          rintro rfl
          exact hnew hk
        have := hvalue key (List.mem_cons_of_mem _ hk)
        rwa [get?, get?, if_neg hne, if_neg hne] at this
      rw [Option.some.inj hfirst, hes]

/-! ### The order of names -/

/-- A further item counts if it is new. -/
theorem eraseDups_concat {α : Type} [BEq α] [LawfulBEq α] (items : List α) (item : α) :
    (items ++ [item]).eraseDups =
      if item ∈ items then items.eraseDups else items.eraseDups ++ [item] := by
  rw [List.eraseDups_append, List.cons_removeAll]
  by_cases h : item ∈ items <;> simp [h, List.eraseDups_cons]

/-- Repetitions may be dropped before all items are changed. -/
theorem eraseDups_map_eraseDups {α : Type} [BEq α] [LawfulBEq α] (φ : α → α) (items : List α) :
    (items.eraseDups.map φ).eraseDups = (items.map φ).eraseDups := by
  induction items using List.reverseRecOn with
  | nil => rfl
  | append_singleton items item ih =>
    rw [eraseDups_concat, List.map_append, List.map_singleton, eraseDups_concat]
    by_cases h : item ∈ items
    · rw [if_pos h, ih, if_pos (List.mem_map_of_mem h)]
    · have hmem : φ item ∈ items.eraseDups.map φ ↔ φ item ∈ items.map φ := by
        simp only [List.mem_map, List.mem_eraseDups]
      rw [if_neg h, List.map_append, List.map_singleton, eraseDups_concat, ih]
      simp only [hmem]

/-- Names stand in the order in which they are first set. -/
theorem keys_ofPairs (pairs : List (Text × β)) :
    keys (ofPairs pairs) = (keys pairs).eraseDups := by
  induction pairs using List.reverseRecOn with
  | nil => rfl
  | append_singleton pairs pair ih =>
    have hset : ofPairs (pairs ++ [pair]) = insert pair.1 pair.2 (ofPairs pairs) :=
      List.foldl_append ..
    have hkeys : keys (pairs ++ [pair]) = keys pairs ++ [pair.1] := List.map_append
    rw [hset, keys_insert, hkeys, eraseDups_concat, ih]
    simp only [List.mem_eraseDups]

/-- The last of the entries whose names pass a test has the last of these names, and its value. -/
theorem getLast?_filter {es : Entries β} (h : es.keys.Nodup) (p : Text → Bool) :
    ((es.filter fun entry => p entry.1).getLast?).map (·.2) =
      ((es.keys.filter p).getLast?).bind fun key => get? key es := by
  rw [keys, List.filter_map, List.getLast?_map]
  cases hlast : (es.filter fun entry => p entry.1).getLast? with
  | none =>
    rw [List.getLast?_eq_none_iff] at hlast
    simp [Function.comp_def, hlast]
  | some entry =>
    have hmem := (List.mem_filter.1 (List.mem_of_getLast? hlast)).1
    simp [Function.comp_def, hlast, get?_of_mem h hmem]

end LogicTrainer.Entries
