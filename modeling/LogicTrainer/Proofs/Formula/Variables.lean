import LogicTrainer.Proofs.Assignment
import LogicTrainer.Proofs.Formula.Reading
import LogicTrainer.Formula.Value

/-! What a value depends on.

A formula has its value from the variables at its leaves alone (`value_congr`), and these are the
variables that the token list names (`Spells.mem_variables_iff`). -/
namespace LogicTrainer

/-- A name means the variable that is its capital. -/
theorem Atom.asVariable?_eq_some_iff {name v : Text} :
    asVariable? name = some v ↔ name.upper = v ∧ v ∈ Atom.variables := by
  unfold asVariable?
  split
  · next h =>
    rw [Option.some.injEq]
    exact ⟨fun hv => ⟨hv, hv ▸ List.contains_iff_mem.1 h⟩, And.left⟩
  · next h =>
    refine ⟨fun hv => (by cases hv), fun ⟨hname, hv⟩ => absurd ?_ h⟩
    exact List.contains_iff_mem.2 (hname ▸ hv)

/-- An atom is a literal or names a variable. -/
theorem Atom.isAtom_cases {name : Text} (h : Atom.isAtom name = true) :
    (∃ b, Atom.literal? name = some b) ∨
      (Atom.literal? name = none ∧ Atom.asVariable? name = some name.upper) := by
  rw [Atom.isAtom, Bool.or_eq_true] at h
  unfold Atom.literal?
  by_cases ht : Atom.trueLiterals.contains name.upper = true
  · rw [if_pos ht]
    exact .inl ⟨true, rfl⟩
  · by_cases hf : Atom.falseLiterals.contains name.upper = true
    · rw [if_neg ht, if_pos hf]
      exact .inl ⟨false, rfl⟩
    · have hliteral : Atom.isLiteralName name.upper = false := by
        rw [Atom.isLiteralName, Bool.or_eq_false_iff]
        exact ⟨Bool.eq_false_iff.2 ht, Bool.eq_false_iff.2 hf⟩
      rw [if_neg ht, if_neg hf]
      rw [hliteral] at h
      have hletter : name.upper ∈ Atom.letters := List.contains_iff_mem.1 (h.resolve_right (by simp))
      have hvar : name.upper ∈ Atom.variables := List.mem_filter.2 ⟨hletter, by rw [hliteral]; rfl⟩
      exact .inr ⟨rfl, Atom.asVariable?_eq_some_iff.2 ⟨rfl, hvar⟩⟩

theorem Atom.variables_nodup : Atom.variables.Nodup := by decide

theorem Atom.upper_of_mem_variables {v : Text} (h : v ∈ Atom.variables) : v.upper = v := by
  have hall : ∀ v ∈ Atom.variables, v.upper = v := by decide
  exact hall v h

namespace Token

theorem mem_variables_iff {ts : List Token} {v : Text} :
    v ∈ Token.variables ts ↔ v ∈ Atom.variables ∧ ∃ t ∈ ts, Atom.asVariable? t.text = some v := by
  rw [Token.variables, List.mem_filter, List.any_eq_true]
  simp only [beq_iff_eq]

/-- Only an atom names a variable. -/
theorem isAtom_of_asVariable? {t : Token} {v : Text} (h : Atom.asVariable? t.text = some v) :
    t.isAtom = true := by
  obtain ⟨hname, hv⟩ := Atom.asVariable?_eq_some_iff.1 h
  have hletter : t.text.upper ∈ Atom.letters := hname ▸ (List.mem_filter.1 hv).1
  cases t with
  | bit => rfl
  | word w =>
    rw [isAtom, Atom.isAtom, Bool.or_eq_true]
    exact .inl (List.contains_iff_mem.2 hletter)
  | neg | lparen | rparen => exact absurd hletter (by decide)
  | conn op => exact absurd hletter (by cases op <;> decide)

theorem variables_nodup (ts : List Token) : (Token.variables ts).Nodup :=
  Atom.variables_nodup.filter _

theorem upper_of_mem_variables {ts : List Token} {v : Text} (h : v ∈ Token.variables ts) : v.upper = v :=
  Atom.upper_of_mem_variables (mem_variables_iff.1 h).1

end Token

namespace Formula

/-- The variables of a formula are those that its leaves name. -/
theorem mem_atoms_iff {f : Formula} {v : Text} :
    v ∈ f.atoms ↔ ∃ name ∈ f.leaves, Atom.asVariable? name = some v := by
  induction f with
  | atom name => simp [atoms, leaves]
  | neg f ih => exact ih
  | binary op f g ihf ihg =>
    rw [atoms, leaves, List.mem_append, List.mem_filter, ihf, ihg]
    constructor
    · rintro (⟨name, hn, hv⟩ | ⟨⟨name, hn, hv⟩, -⟩)
      · exact ⟨name, List.mem_append_left _ hn, hv⟩
      · exact ⟨name, List.mem_append_right _ hn, hv⟩
    · rintro ⟨name, hn, hv⟩
      by_cases hleft : v ∈ f.atoms
      · exact .inl (ihf.1 hleft)
      · rcases List.mem_append.1 hn with hn | hn
        · exact .inl ⟨name, hn, hv⟩
        · exact .inr ⟨⟨name, hn, hv⟩, by simp [hleft]⟩

theorem atomValue_congr {name : Text} (h : Atom.isAtom name = true) {values values' : Text → Bool}
    (hv : ∀ v, Atom.asVariable? name = some v → values v = values' v) :
    atomValue values name = atomValue values' name := by
  unfold atomValue
  rcases Atom.isAtom_cases h with ⟨b, hb⟩ | ⟨hnone, hvar⟩
  · rw [hb]
    rfl
  · rw [hnone, Option.getD_none, Option.getD_none, hv _ hvar]

/-- Every leaf has its value from the variables. -/
theorem atomValue_congr_of_mem {f : Formula} (h : f.IsProper) {values values' : Text → Bool}
    (hv : ∀ v ∈ f.atoms, values v = values' v) :
    ∀ name ∈ f.leaves, atomValue values name = atomValue values' name :=
  fun name hn => atomValue_congr (h name hn) fun v hname =>
    hv v (mem_atoms_iff.2 ⟨name, hn, hname⟩)

/-- The value depends on the variables alone. -/
theorem value_congr {f : Formula} (h : f.IsProper) {values values' : Text → Bool}
    (hv : ∀ v ∈ f.atoms, values v = values' v) : f.value values = f.value values' := by
  have hleaf := atomValue_congr_of_mem h hv
  clear h hv
  induction f with
  | atom name => exact hleaf name (List.mem_singleton.2 rfl)
  | neg f ih => rw [value, value, ih hleaf]
  | binary op f g ihf ihg =>
    rw [value, value, ihf fun name hn => hleaf name (List.mem_append_left _ hn),
      ihg fun name hn => hleaf name (List.mem_append_right _ hn)]

/-- The atoms of a list are at leaves of the formula that it spells. -/
theorem Derives.text_mem_leaves {level : Level} {ts : List Token} {f : Formula}
    (h : Derives level ts f) {t : Token} (ht : t ∈ ts) (ha : t.isAtom = true) :
    t.text ∈ f.leaves := by
  induction h with
  | join _ _ ihl ihr =>
    rw [leaves, List.mem_append]
    rcases List.mem_append.1 ht with ht | ht
    · exact .inl (ihl ht)
    · rcases List.mem_cons.1 ht with rfl | ht
      · cases ha
      · exact .inr (ihr ht)
  | tighter _ ih | basic _ ih => exact ih ht
  | negate _ ih =>
    rcases List.mem_cons.1 ht with rfl | ht
    · cases ha
    · exact ih ht
  | leaf => exact List.mem_singleton.1 ht ▸ List.mem_cons_self
  | group _ ih =>
    rcases List.mem_append.1 ht with ht | ht
    · rcases List.mem_cons.1 ht with rfl | ht
      · cases ha
      · exact ih ht
    · obtain rfl := List.mem_singleton.1 ht
      cases ha

/-- The variables of a formula are those that the list names that spells it. -/
theorem Spells.mem_variables_iff {ts : List Token} {f : Formula} (h : Spells ts f) {v : Text} :
    v ∈ Token.variables ts ↔ v ∈ f.atoms := by
  rw [Token.mem_variables_iff, mem_atoms_iff]
  constructor
  · rintro ⟨-, t, ht, hname⟩
    exact ⟨t.text, h.text_mem_leaves ht (Token.isAtom_of_asVariable? hname), hname⟩
  · rintro ⟨name, hn, hname⟩
    obtain ⟨t, ht, -, rfl⟩ := h.mem_leaves hn
    exact ⟨(Atom.asVariable?_eq_some_iff.1 hname).2, t, ht, hname⟩

/-- Where assignments agree on the variables that a text names, its formula has one value. -/
theorem value_eq_of_ofText {maxDepth : Int} {t : Text} {f : Formula}
    (h : ofText maxDepth t = .ok f) {values values' : Text → Bool}
    (hv : ∀ v ∈ Token.variables (Token.ofFormula t), values v = values' v) :
    f.value values = f.value values' := by
  have hs := (parse_eq_ok_iff.1 h).1
  exact value_congr hs.isProper fun v hmem => hv v (hs.mem_variables_iff.2 hmem)

/-- A normal assignment may be used as it is. -/
theorem evaluate_loosen (f : Formula) {a : Assignment} (h : a.IsNormal) :
    f.evaluate a.loosen = f.value a.value := by
  rw [evaluate, h.normalize_loosen]

/-- The value of a text that can be read is that of its formula. -/
theorem evaluateText_of_ofText {maxDepth : Int} {t : Text} {f : Formula}
    (h : ofText maxDepth t = .ok f) (loose : Entries Json) :
    evaluateText maxDepth t loose = f.value (Assignment.normalize loose).value := by
  rw [evaluateText, h]
  rfl

/-- What cannot be read is false. -/
theorem evaluateText_of_error {maxDepth : Int} {t : Text} {e : ParseFailure}
    (he : ofText maxDepth t = .error e) (loose : Entries Json) :
    evaluateText maxDepth t loose = false := by
  rw [evaluateText, he]
  rfl

end Formula
end LogicTrainer
