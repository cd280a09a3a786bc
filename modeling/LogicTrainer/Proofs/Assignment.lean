import LogicTrainer.Assignment
import LogicTrainer.Proofs.Entries
import LogicTrainer.Proofs.Text.Capital

/-! Assignments in their normal form.

A normalized assignment has each name once and in capitals (`isNormal_normalize`), in the place of
its first spelling (`keys_normalize`) and with the value of its last (`get?_normalize`). So it is
its own normal form, and it does not matter how often an assignment is normalized on its way
(`normalize_loosen_normalize`). Assignments to the same distinct names are the same if they give
the same values (`ext_of_value`). -/
namespace LogicTrainer.Assignment

/-- Names stand in capitals, in the order in which a spelling of each is first met. -/
theorem keys_normalize (loose : Entries Json) :
    Entries.keys (normalize loose) = ((Entries.keys loose).map Text.upper).eraseDups := by
  rw [normalize, Entries.keys_ofPairs, Entries.keys, Entries.keys, List.map_map, List.map_map]
  rfl

/-- Of the spellings of a name, the last decides. -/
theorem get?_normalize (loose : Entries Json) (v : Text) :
    Entries.get? v (normalize loose) =
      ((loose.filter fun entry => entry.1.upper == v).getLast?).map fun entry => coerce entry.2 := by
  rw [normalize, Entries.get?_ofPairs, List.filter_map, List.getLast?_map, Option.map_map]
  rfl

/-- Every name occurs once, and in capitals. -/
structure IsNormal (a : Assignment) : Prop where
  nodup : (Entries.keys a).Nodup
  upper : ∀ name ∈ Entries.keys a, name.upper = name

theorem isNormal_normalize (loose : Entries Json) : IsNormal (normalize loose) where
  nodup := Entries.ofPairs_keys_nodup _
  upper := by
    intro name hn
    rw [keys_normalize, List.mem_eraseDups] at hn
    obtain ⟨typed, -, rfl⟩ := List.mem_map.1 hn
    exact Text.upper_upper typed

/-- An assignment in normal form stays as it is. -/
theorem IsNormal.normalize_loosen {a : Assignment} (h : a.IsNormal) :
    normalize a.loosen = a := by
  have hpairs : a.loosen.map (fun entry => (entry.1.upper, coerce entry.2)) = a := by
    rw [loosen, List.map_map]
    refine (List.map_congr_left fun entry hentry => ?_).trans (List.map_id a)
    show (entry.1.upper, coerce (.bool entry.2)) = entry
    rw [h.upper _ (List.mem_map_of_mem hentry), coerce_bool]
  rw [normalize, hpairs, Entries.ofPairs_eq_self h.nodup]

/-- Normalizing again changes nothing. -/
theorem normalize_loosen_normalize (loose : Entries Json) :
    normalize (normalize loose).loosen = normalize loose :=
  (isNormal_normalize loose).normalize_loosen

/-- Assigning to a name changes the value of its capital form only. -/
theorem value_normalize_insert {name v : Text} (h : name.upper ≠ v) (x : Json)
    (loose : Entries Json) :
    (normalize (Entries.insert name x loose)).value v = (normalize loose).value v := by
  have hname : (name.upper == v) = false := beq_eq_false_iff_ne.2 h
  have hkept := Entries.filter_insert (p := fun key => key.upper == v) x loose hname
  rw [value, value, get?_normalize, get?_normalize, hkept]

/-- A name that is assigned has its value. -/
theorem get?_eq_some_value {a : Assignment} {name : Text} (h : name ∈ Entries.keys a) :
    Entries.get? name a = some (a.value name) := by
  obtain ⟨b, hb⟩ := Option.isSome_iff_exists.1 (Entries.isSome_get?_iff.2 h)
  rw [value, hb]
  rfl

/-- Assignments to the same distinct names are the same if they give the same values. -/
theorem ext_of_value {a b : Assignment} (h : (Entries.keys a).Nodup)
    (hkeys : Entries.keys a = Entries.keys b)
    (hvalue : ∀ name ∈ Entries.keys a, a.value name = b.value name) : a = b := by
  refine Entries.ext_of_get? h hkeys fun name hn => ?_
  rw [get?_eq_some_value hn, get?_eq_some_value (hkeys ▸ hn), hvalue name hn]

end LogicTrainer.Assignment
