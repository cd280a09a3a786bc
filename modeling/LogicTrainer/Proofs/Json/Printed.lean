import LogicTrainer.Proofs.Json.RoundTrip
import LogicTrainer.Proofs.Text.Lines

/-! What is written has no control characters.

Strings escape them, numbers and words have none, and between items there is a comma. So a value
that is written without indentation is one line (`isPrinted_write`). With indentation every item
has a line of its own, and only what has no items is still one line (`mem_write_iff`). A style
that escapes what is outside ASCII writes nothing else (`IsPlain.isAscii_writeAt`). -/
namespace LogicTrainer
open Text

/-! ### Pieces -/

namespace Text

@[simp] theorem isPrinted_nil : IsPrinted [] := fun _ h => absurd h List.not_mem_nil

@[simp] theorem isPrinted_cons {c : Char} {t : Text} :
    IsPrinted (c :: t) ↔ 0x20 ≤ c.toNat ∧ IsPrinted t := List.forall_mem_cons

@[simp] theorem isPrinted_append {a b : Text} :
    IsPrinted (a ++ b) ↔ IsPrinted a ∧ IsPrinted b := List.forall_mem_append

@[simp] theorem isPrinted_replicate {c : Char} (n : Nat) (h : 0x20 ≤ c.toNat) :
    IsPrinted (List.replicate n c) := fun _ hd => List.eq_of_mem_replicate hd ▸ h

/-- Every character is of the printed part of ASCII. -/
def IsAscii (t : Text) : Prop := ∀ c ∈ t, 0x20 ≤ c.toNat ∧ c.toNat ≤ 0x7e

theorem IsAscii.isPrinted {t : Text} (h : IsAscii t) : IsPrinted t := fun c hc => (h c hc).1

@[simp] theorem isAscii_nil : IsAscii [] := fun _ h => absurd h List.not_mem_nil

@[simp] theorem isAscii_cons {c : Char} {t : Text} :
    IsAscii (c :: t) ↔ (0x20 ≤ c.toNat ∧ c.toNat ≤ 0x7e) ∧ IsAscii t := List.forall_mem_cons

@[simp] theorem isAscii_append {a b : Text} : IsAscii (a ++ b) ↔ IsAscii a ∧ IsAscii b :=
  List.forall_mem_append

theorem isAscii_ofNat (n : Nat) : IsAscii (Text.ofNat n) := by
  intro c hc
  have hdigit := Json.isDigit_of_mem_ofNat hc
  simp only [Json.isDigit, Bool.and_eq_true, decide_eq_true_eq] at hdigit
  omega

theorem isAscii_ofInt (n : Int) : IsAscii (Text.ofInt n) := by
  cases n <;> simp [Text.ofInt, isAscii_ofNat]

@[simp] theorem isPrinted_ofNat (n : Nat) : IsPrinted (Text.ofNat n) := (isAscii_ofNat n).isPrinted

@[simp] theorem isPrinted_ofInt (n : Int) : IsPrinted (Text.ofInt n) := (isAscii_ofInt n).isPrinted

theorem IsPrinted.take {t : Text} (h : IsPrinted t) (n : Nat) : IsPrinted (t.take n) :=
  fun c hc => h c (List.mem_of_mem_take hc)

theorem IsPrinted.drop {t : Text} (h : IsPrinted t) (n : Nat) : IsPrinted (t.drop n) :=
  fun c hc => h c (List.mem_of_mem_drop hc)

/-- What is joined is in the separator or in a piece. -/
theorem mem_of_mem_join {separator : Text} {pieces : List Text} {c : Char}
    (h : c ∈ Text.join separator pieces) : c ∈ separator ∨ ∃ piece ∈ pieces, c ∈ piece := by
  induction pieces with
  | nil => exact absurd h List.not_mem_nil
  | cons piece pieces ih =>
    cases pieces with
    | nil => exact .inr ⟨piece, List.mem_cons_self, by simpa [Text.join] using h⟩
    | cons next more =>
      rw [Text.join, List.intercalate_cons_cons, List.mem_append, List.mem_append] at h
      rcases h with (h | h) | h
      · exact .inr ⟨piece, List.mem_cons_self, h⟩
      · exact .inl h
      · obtain h | ⟨other, hother, h⟩ := ih h
        · exact .inl h
        · exact .inr ⟨other, List.mem_cons_of_mem _ hother, h⟩

theorem isPrinted_join {separator : Text} {pieces : List Text} (hs : IsPrinted separator)
    (hp : ∀ piece ∈ pieces, IsPrinted piece) : IsPrinted (Text.join separator pieces) := by
  intro c hc
  obtain hc | ⟨piece, hpiece, hc⟩ := mem_of_mem_join hc
  · exact hs c hc
  · exact hp piece hpiece c hc

end Text

/-! ### Scalars -/

theorem Binary64.isPrinted_layOut (digits : Nat) (power : Int) : IsPrinted (layOut digits power) := by
  have htake := fun n => (isPrinted_ofNat digits).take n
  have hdrop := fun n => (isPrinted_ofNat digits).drop n
  have htail : IsPrinted (Text.ofNat digits).tail := List.drop_one ▸ hdrop 1
  simp only [layOut]
  split
  · split
    · simp
    · split <;> simp [htake, hdrop]
  · repeat' split
    all_goals simp [htake, htail]

theorem Binary64.isPrinted_text (x : Binary64) : IsPrinted x.text := by
  cases x with
  | nan => simp [text]
  | infinite negative => cases negative <;> simp [text]
  | finite negative significand exponent =>
    have hbody : IsPrinted (text (.finite false significand exponent)) := by
      simp only [text, Bool.false_eq_true, if_false]
      split
      · simp
      · exact isPrinted_layOut _ _
    cases negative with
    | false => exact hbody
    | true => exact isPrinted_cons.2 ⟨by decide, hbody⟩

namespace Json

theorem isPrinted_writtenReal (x : Binary64) : IsPrinted (writtenReal x) := by
  cases x with
  | nan => simp [writtenReal]
  | infinite negative => cases negative <;> simp [writtenReal]
  | finite negative significand exponent =>
    exact Binary64.isPrinted_text (.finite negative significand exponent)

theorem isAscii_hex {n : Nat} (h : n < 0x10000) : IsAscii (Text.hex 4 n) := by
  have hdigit : ∀ d < 16, 0x20 ≤ (Nat.digitChar d).toNat ∧ (Nat.digitChar d).toNat ≤ 0x7e := by
    decide
  rw [hex_four h]
  simp only [isAscii_cons, isAscii_nil, and_true]
  exact ⟨hdigit _ (by omega), hdigit _ (by omega), hdigit _ (by omega), hdigit _ (by omega)⟩

theorem isAscii_escapedChar (c : Char) : IsAscii (escapedChar c) := by
  have hvalid : c.toNat < 0xd800 ∨ (0xdfff < c.toNat ∧ c.toNat < 0x110000) := c.valid
  have hunit : ∀ n < 0x10000, IsAscii (escapedUnit n) := fun n hn =>
    isAscii_cons.2 ⟨by decide, isAscii_cons.2 ⟨by decide, isAscii_hex hn⟩⟩
  simp only [escapedChar]
  split
  · next hn => exact hunit _ hn
  · exact isAscii_append.2 ⟨hunit _ (by omega), hunit _ (by omega)⟩

theorem isAscii_writtenString (t : Text) : IsAscii (writtenString true t) := by
  have hchar : ∀ c, IsAscii (writtenChar true c) := by
    intro c
    have hescaped := isAscii_escapedChar c
    unfold writtenChar
    repeat' split
    all_goals simp_all <;> omega
  have hbody : IsAscii (t.flatMap (writtenChar true)) := by
    intro c hc
    obtain ⟨d, -, hc⟩ := List.mem_flatMap.1 hc
    exact hchar d c hc
  simp [writtenString, hbody]

theorem isPrinted_writtenString (ascii : Bool) (t : Text) : IsPrinted (writtenString ascii t) := by
  have hchar : ∀ c, IsPrinted (writtenChar ascii c) := by
    intro c
    have hescaped := (isAscii_escapedChar c).isPrinted
    unfold writtenChar
    repeat' split
    all_goals simp_all
  have hbody : IsPrinted (t.flatMap (writtenChar ascii)) := by
    intro c hc
    obtain ⟨d, -, hc⟩ := List.mem_flatMap.1 hc
    exact hchar d c hc
  simp [writtenString, hbody]

/-! ### Values -/

theorem mem_arranged {β : Type} {style : Style} {members : List (Text × β)} {member : Text × β} :
    member ∈ arranged style members ↔ member ∈ members := by
  unfold arranged
  split
  · exact List.mem_mergeSort
  · exact Iff.rfl

/-- Nothing in the separators of a style breaks a line. -/
structure Style.IsPrinted (style : Style) : Prop where
  item : Text.IsPrinted style.itemSeparator
  key : Text.IsPrinted style.keySeparator

theorem isPrinted_enclosed {style : Style} (h : style.IsPrinted) (hindent : style.indent = none)
    (level : Nat) {opening closing : Char} (ho : 0x20 ≤ opening.toNat) (hc : 0x20 ≤ closing.toNat)
    {items : List Text} (hitems : ∀ item ∈ items, IsPrinted item) :
    IsPrinted (enclosed style level opening closing items) := by
  have hline : ∀ level, newLine style level = [] := fun level => by rw [newLine, hindent]
  have hjoin := isPrinted_join h.item hitems
  cases items with
  | nil => simp [enclosed, ho, hc]
  | cons item items => simp [enclosed, hline, hjoin, ho, hc]

mutual

/-- Without indentation, a value is written on one line. -/
theorem isPrinted_writeAt {style : Style} (h : style.IsPrinted) (hindent : style.indent = none)
    (level : Nat) : (j : Json) → IsPrinted (writeAt style level j)
  | .null => by simp [writeAt]
  | .bool value => by cases value <;> simp [writeAt]
  | .int value => by simp [writeAt]
  | .real value => by
    rw [writeAt]
    exact isPrinted_writtenReal value
  | .str value => by
    rw [writeAt]
    exact isPrinted_writtenString _ value
  | .arr items => by
    rw [writeAt]
    exact isPrinted_enclosed h hindent level (by decide) (by decide)
      (isPrinted_writeItems h hindent (level + 1) items)
  | .obj members => by
    rw [writeAt]
    refine isPrinted_enclosed h hindent level (by decide) (by decide) fun item hi => ?_
    obtain ⟨member, hmember, rfl⟩ := List.mem_map.1 hi
    exact isPrinted_writeMembers h hindent (level + 1) members member (mem_arranged.1 hmember)

theorem isPrinted_writeItems {style : Style} (h : style.IsPrinted) (hindent : style.indent = none)
    (level : Nat) : (items : List Json) → ∀ item ∈ writeItems style level items, IsPrinted item
  | [] => by simp [writeItems]
  | item :: rest => by
    rw [writeItems]
    exact List.forall_mem_cons.2
      ⟨isPrinted_writeAt h hindent level item, isPrinted_writeItems h hindent level rest⟩

theorem isPrinted_writeMembers {style : Style} (h : style.IsPrinted)
    (hindent : style.indent = none) (level : Nat) : (members : List (Text × Json)) →
      ∀ member ∈ writeMembers style level members, IsPrinted member.2
  | [] => by simp [writeMembers]
  | (key, value) :: rest => by
    rw [writeMembers]
    refine List.forall_mem_cons.2 ⟨?_, isPrinted_writeMembers h hindent level rest⟩
    simp [isPrinted_writtenString, h.key, isPrinted_writeAt h hindent level value]

end

theorem isPrinted_lineStyle (ascii : Bool) : (lineStyle ascii).IsPrinted where
  item := by simp [lineStyle, compactStyle]
  key := by simp [lineStyle, compactStyle]

theorem writeItems_eq_map (style : Style) (level : Nat) (items : List Json) :
    writeItems style level items = items.map (writeAt style level) := by
  induction items with
  | nil => rw [writeItems, List.map_nil]
  | cons item items ih => rw [writeItems, ih, List.map_cons]

theorem map_writeMembers_eq_map (ascii : Bool) (level : Nat) (members : List (Text × Json)) :
    (writeMembers (lineStyle ascii) level members).map (·.2) =
      members.map fun member => writtenMember ascii level member.1 member.2 := by
  induction members with
  | nil => rw [writeMembers, List.map_nil, List.map_nil]
  | cons member members ih => rw [map_writeMembers, ih, List.map_cons]

theorem isAscii_join {pieces : List Text} (h : ∀ piece ∈ pieces, IsAscii piece) :
    IsAscii (Text.join [','] pieces) := by
  intro c hc
  obtain hc | ⟨piece, hpiece, hc⟩ := mem_of_mem_join hc
  · obtain rfl := List.mem_singleton.1 hc
    decide
  · exact h piece hpiece c hc

/-- With escapes, a plain value is written in ASCII. -/
theorem IsPlain.isAscii_writeAt {j : Json} (h : j.IsPlain) (level : Nat) :
    IsAscii (writeAt (lineStyle true) level j) := by
  induction h generalizing level with
  | null => simp [writeAt]
  | bool value => cases value <;> simp [writeAt]
  | int value =>
    rw [writeAt]
    exact isAscii_ofInt value
  | str value =>
    rw [writeAt]
    exact isAscii_writtenString value
  | arr h ih =>
    have hitems : IsAscii (Text.join [','] (writeItems (lineStyle true) (level + 1) _)) :=
      isAscii_join fun piece hpiece => by
        rw [writeItems_eq_map] at hpiece
        obtain ⟨item, hitem, rfl⟩ := List.mem_map.1 hpiece
        exact ih item hitem (level + 1)
    rw [writeAt_arr]
    simp [hitems]
  | obj hkeys h ih =>
    have hmembers : IsAscii (Text.join [',']
        ((writeMembers (lineStyle true) (level + 1) _).map (·.2))) :=
      isAscii_join fun piece hpiece => by
        rw [map_writeMembers_eq_map] at hpiece
        obtain ⟨member, hmember, rfl⟩ := List.mem_map.1 hpiece
        have hvalue := ih member hmember (level + 1)
        simp [writtenMember, isAscii_writtenString, hvalue]
    rw [writeAt_obj]
    simp [hmembers]

/-- Whether a value is a list or an object with something in it. -/
def hasItems : Json → Bool
  | .arr items => !items.isEmpty
  | .obj members => !members.isEmpty
  | _ => false

/-- What has no items is written on one line in every style. -/
theorem isPrinted_write_of_hasItems {j : Json} (h : j.hasItems = false) (style : Style) :
    IsPrinted (write style j) := by
  rw [write]
  cases j with
  | null => simp [writeAt]
  | bool value => cases value <;> simp [writeAt]
  | int value => simp [writeAt]
  | real value =>
    rw [writeAt]
    exact isPrinted_writtenReal value
  | str value =>
    rw [writeAt]
    exact isPrinted_writtenString _ value
  | arr items =>
    cases items with
    | nil => simp [writeAt, writeItems, enclosed]
    | cons item items => cases h
  | obj members =>
    cases members with
    | nil => simp [writeAt, writeMembers, enclosed, arranged]
    | cons member members => cases h

/-- With indentation the first item starts a line. -/
theorem mem_write_of_hasItems {j : Json} (h : j.hasItems = true) {style : Style} {unit : Text}
    (hindent : style.indent = some unit) : '\n' ∈ write style j := by
  have henclosed : ∀ opening closing (items : List Text), items ≠ [] →
      '\n' ∈ enclosed style 0 opening closing items := by
    intro opening closing items hitems
    cases items with
    | nil => exact absurd rfl hitems
    | cons item items => simp [enclosed, newLine, hindent]
  rw [write]
  cases j with
  | null | bool | int | real | str => cases h
  | arr items =>
    cases items with
    | nil => cases h
    | cons item items =>
      rw [writeAt]
      exact henclosed _ _ _ (by simp [writeItems])
  | obj members =>
    cases members with
    | nil => cases h
    | cons member members =>
      obtain ⟨key, value⟩ := member
      have hfirst : ∃ first, first ∈ writeMembers style 1 ((key, value) :: members) := by
        rw [writeMembers]
        exact ⟨_, List.mem_cons_self⟩
      obtain ⟨first, hfirst⟩ := hfirst
      have hmem : first ∈ arranged style (writeMembers style 1 ((key, value) :: members)) :=
        mem_arranged.2 hfirst
      rw [writeAt]
      exact henclosed _ _ _ (List.ne_nil_of_mem (List.mem_map_of_mem (f := (·.2)) hmem))

/-- A value is written on one line unless it has items and they are indented. -/
theorem mem_write_iff {style : Style} (h : style.IsPrinted) {j : Json} :
    '\n' ∈ write style j ↔ style.indent ≠ none ∧ j.hasItems = true := by
  constructor
  · refine fun hmem => ⟨fun hindent => ?_, ?_⟩
    · exact (isPrinted_writeAt h hindent 0 j).not_isBreak hmem (.inl rfl)
    · rw [← Bool.not_eq_false]
      exact fun hitems => (isPrinted_write_of_hasItems hitems style).not_isBreak hmem (.inl rfl)
  · rintro ⟨hindent, hitems⟩
    obtain ⟨unit, hunit⟩ := Option.ne_none_iff_exists'.1 hindent
    exact mem_write_of_hasItems hitems hunit

theorem isPrinted_write {style : Style} (h : style.IsPrinted) {j : Json}
    (hj : ¬ (style.indent ≠ none ∧ j.hasItems = true)) : IsPrinted (write style j) := by
  by_cases hindent : style.indent = none
  · exact isPrinted_writeAt h hindent 0 j
  · exact isPrinted_write_of_hasItems (Bool.eq_false_iff.2 fun hitems => hj ⟨hindent, hitems⟩) style

theorem writtenReal_ne_nil (x : Binary64) : writtenReal x ≠ [] := by
  cases x with
  | nan => simp [writtenReal]
  | infinite negative => cases negative <;> simp [writtenReal]
  | finite negative significand exponent =>
    have hlayOut : ∀ digits power, Binary64.layOut digits power ≠ [] := by
      intro digits power
      simp only [Binary64.layOut]
      repeat' split
      all_goals simp
    have hbody : Binary64.text (.finite false significand exponent) ≠ [] := by
      simp only [Binary64.text, Bool.false_eq_true, if_false]
      split
      · simp
      · exact hlayOut _ _
    cases negative with
    | false => exact hbody
    | true => exact List.cons_ne_nil _ _

/-- What is written starts with a character that is no line break. -/
theorem exists_write_eq_cons (style : Style) (j : Json) :
    ∃ c t, write style j = c :: t ∧ ¬ IsBreak c := by
  have hprinted : ∀ t : Text, IsPrinted t → t ≠ [] → ∃ c rest, t = c :: rest ∧ ¬ IsBreak c := by
    intro t ht hne
    obtain ⟨c, rest, rfl⟩ := List.exists_cons_of_ne_nil hne
    exact ⟨c, rest, rfl, ht.not_isBreak List.mem_cons_self⟩
  have henclosed : ∀ {opening closing : Char} (items : List Text), ¬ IsBreak opening →
      ∃ c t, enclosed style 0 opening closing items = c :: t ∧ ¬ IsBreak c := by
    intro opening closing items ho
    cases items with
    | nil => exact ⟨_, _, rfl, ho⟩
    | cons item items => exact ⟨_, _, rfl, ho⟩
  have hbreak : ¬ IsBreak '[' ∧ ¬ IsBreak '\x7b' := by simp [IsBreak]
  rw [write]
  cases j with
  | null => exact hprinted _ (by simp [writeAt]) (by simp [writeAt])
  | bool value => cases value <;> exact hprinted _ (by simp [writeAt]) (by simp [writeAt])
  | int value =>
    refine hprinted _ (by simp [writeAt]) ?_
    rw [writeAt]
    cases value with
    | ofNat n => exact ofNat_ne_nil n
    | negSucc n => exact List.cons_ne_nil _ _
  | real value =>
    rw [writeAt]
    exact hprinted _ (isPrinted_writtenReal value) (writtenReal_ne_nil value)
  | str value =>
    rw [writeAt]
    exact hprinted _ (isPrinted_writtenString _ value) (List.cons_ne_nil _ _)
  | arr items =>
    rw [writeAt]
    exact henclosed _ hbreak.1
  | obj members =>
    rw [writeAt]
    exact henclosed _ hbreak.2

end Json
end LogicTrainer
