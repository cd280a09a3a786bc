import LogicTrainer.Text.Basic

/-! Ordered entries.

A list of names with a value each. Setting a name that is there already keeps its place and
replaces its value; a new name goes to the end. Built this way, no name occurs twice
(`ofPairs_keys_nodup`). -/
namespace LogicTrainer

abbrev Entries (β : Type) := List (Text × β)

namespace Entries
variable {β : Type}

/-- Sets the value of a name. -/
def insert (key : Text) (value : β) : Entries β → Entries β
  | [] => [(key, value)]
  | (k, v) :: rest => if k = key then (k, value) :: rest else (k, v) :: insert key value rest

/-- The value of a name. -/
def get? (key : Text) : Entries β → Option β
  | [] => none
  | (k, v) :: rest => if k = key then some v else get? key rest

def keys (es : Entries β) : List Text := es.map (·.1)

/-- Sets a list of names one after the other. -/
def insertAll (es : Entries β) (pairs : List (Text × β)) : Entries β :=
  pairs.foldl (fun acc pair => insert pair.1 pair.2 acc) es

/-- The entries made by setting a list of names one after the other. -/
def ofPairs (pairs : List (Text × β)) : Entries β := insertAll [] pairs

theorem get?_insert (key k : Text) (value : β) (es : Entries β) :
    get? k (insert key value es) = if key = k then some value else get? k es := by
  induction es with
  | nil => simp [insert, get?]
  | cons e rest ih =>
    obtain ⟨k', v⟩ := e
    by_cases h : k' = key
    · subst h
      by_cases hk : k' = k <;> simp [insert, get?, hk]
    · by_cases hk : k' = k
      · subst hk
        simp [insert, get?, h, Ne.symm h]
      · simp [insert, get?, h, hk, ih]

theorem keys_insert (key : Text) (value : β) (es : Entries β) :
    keys (insert key value es) = if key ∈ keys es then keys es else keys es ++ [key] := by
  induction es with
  | nil => simp [insert, keys]
  | cons e rest ih =>
    obtain ⟨k, v⟩ := e
    by_cases h : k = key
    · simp [insert, keys, h]
    · simp only [keys] at ih
      by_cases hm : key ∈ rest.map (·.1) <;> simp [insert, keys, h, Ne.symm h, ih, hm]

theorem keys_insert_nodup (key : Text) (value : β) {es : Entries β} (h : es.keys.Nodup) :
    (keys (insert key value es)).Nodup := by
  rw [keys_insert]
  split
  · exact h
  · next hm => exact List.nodup_append.2 ⟨h, by simp, by rintro a ha b hb rfl; simp_all⟩

theorem insertAll_keys_nodup (pairs : List (Text × β)) {es : Entries β} (h : es.keys.Nodup) :
    (keys (insertAll es pairs)).Nodup := by
  induction pairs generalizing es with
  | nil => exact h
  | cons p rest ih => exact ih (keys_insert_nodup p.1 p.2 h)

/-- No name occurs twice. -/
theorem ofPairs_keys_nodup (pairs : List (Text × β)) : (keys (ofPairs pairs)).Nodup :=
  insertAll_keys_nodup pairs List.nodup_nil

end Entries
end LogicTrainer
