import LogicTrainer.Proofs.Entries
import LogicTrainer.Proofs.Json.Scalars

/-! Reading back what is written: values.

A plain value has whole numbers only, and objects of distinct names. Written on one line, with a
comma between items and a colon after names, it is read back with nothing left over, before
anything that may follow a value (`IsPlain.reads`). The fuel that reading needs is
bounded by the length of what was written, since every step down or along reads a character.

The main statement is `IsPlain.read?_write`. -/
namespace LogicTrainer.Json

/-- A value of nothing, truth values, whole numbers and texts, in lists and objects of distinct
names. -/
inductive IsPlain : Json → Prop where
  | null : IsPlain .null
  | bool (value : Bool) : IsPlain (.bool value)
  | int (value : Int) : IsPlain (.int value)
  | str (value : Text) : IsPlain (.str value)
  | arr {items : List Json} (h : ∀ item ∈ items, IsPlain item) : IsPlain (.arr items)
  | obj {members : List (Text × Json)} (hkeys : (Entries.keys members).Nodup)
    (h : ∀ entry ∈ members, IsPlain entry.2) : IsPlain (.obj members)

/-- The style of a line, with or without characters outside ASCII. -/
def lineStyle (ascii : Bool) : Style := {compactStyle with ensureAscii := ascii}

section
variable (ascii : Bool) (level : Nat)

/-! ### What is written -/

theorem join_singleton (t : Text) : Text.join [','] [t] = t := List.append_nil t

theorem join_cons_cons (t next : Text) (more : List Text) :
    Text.join [','] (t :: next :: more) = t ++ ',' :: Text.join [','] (next :: more) := by
  simp [Text.join]

/-- What is joined starts with the first piece. -/
theorem exists_join_eq_append (t : Text) (more : List Text) :
    ∃ rest, Text.join [','] (t :: more) = t ++ rest := by
  cases more with
  | nil => exact ⟨[], by rw [join_singleton, List.append_nil]⟩
  | cons next more => exact ⟨_, join_cons_cons t next more⟩

theorem enclosed_lineStyle (opening closing : Char) (items : List Text) :
    enclosed (lineStyle ascii) level opening closing items =
      opening :: Text.join [','] items ++ [closing] := by
  cases items <;> simp [enclosed, newLine, lineStyle, compactStyle, Text.join]

theorem writeAt_arr (items : List Json) : writeAt (lineStyle ascii) level (.arr items) =
    '[' :: Text.join [','] (writeItems (lineStyle ascii) (level + 1) items) ++ [']'] := by
  rw [writeAt, enclosed_lineStyle]

theorem writeAt_obj (members : List (Text × Json)) :
    writeAt (lineStyle ascii) level (.obj members) = '\x7b' ::
      Text.join [','] ((writeMembers (lineStyle ascii) (level + 1) members).map (·.2)) ++
        ['\x7d'] := by
  rw [writeAt, enclosed_lineStyle]
  simp [arranged, lineStyle, compactStyle]

/-- What a written value starts with: a digit, a sign, a mark, or the letter of a word. -/
def StartsValue (c : Char) : Prop := isDigit c = true ∨ c ∈ "-\"[\x7bntf".toList

instance (c : Char) : Decidable (StartsValue c) := inferInstanceAs (Decidable (_ ∨ _))

theorem StartsValue.isBlank_eq_false {c : Char} (h : StartsValue c) : isBlank c = false := by
  rcases h with h | h
  · exact isBlank_of_isDigit h
  · have hmarks : ("-\"[\x7bntf".toList.all fun c => !isBlank c) = true := by decide
    exact Bool.not_eq_true' _ ▸ List.all_eq_true.1 hmarks c h

theorem StartsValue.ne {c d : Char} (h : StartsValue c) (hd : ¬ StartsValue d) : c ≠ d := by
  rintro rfl
  exact hd h

theorem exists_ofInt_eq_cons (n : Int) : ∃ c t, Text.ofInt n = c :: t ∧ StartsValue c := by
  cases n with
  | ofNat n =>
    obtain ⟨c, t, ht⟩ := List.exists_cons_of_ne_nil (ofNat_ne_nil n)
    exact ⟨c, t, ht, .inl (isDigit_of_mem_ofNat (ht ▸ List.mem_cons_self))⟩
  | negSucc n => exact ⟨_, _, rfl, by decide⟩

theorem IsPlain.exists_writeAt_eq_cons {j : Json} (h : j.IsPlain) :
    ∃ c t, writeAt (lineStyle ascii) level j = c :: t ∧ StartsValue c := by
  cases h with
  | null => exact ⟨_, _, rfl, by decide⟩
  | bool value => cases value <;> exact ⟨_, _, rfl, by decide⟩
  | int n =>
    rw [writeAt]
    exact exists_ofInt_eq_cons n
  | str t =>
    rw [writeAt]
    exact ⟨_, _, rfl, by decide⟩
  | arr h =>
    rw [writeAt_arr]
    exact ⟨_, _, rfl, by decide⟩
  | obj hkeys h =>
    rw [writeAt_obj]
    exact ⟨_, _, rfl, by decide⟩

/-- Nothing is skipped before a value. -/
theorem IsPlain.skipSpace_writeAt {j : Json} (h : j.IsPlain) (rest : Text) :
    skipSpace (writeAt (lineStyle ascii) level j ++ rest) =
      writeAt (lineStyle ascii) level j ++ rest := by
  obtain ⟨c, t, ht, hc⟩ := h.exists_writeAt_eq_cons ascii level
  rw [ht, List.cons_append, skipSpace, List.dropWhile_cons, if_neg]
  exact Bool.eq_false_iff.1 (isSpace_eq_false hc.isBlank_eq_false)

/-- Nothing is skipped before the items of a list. -/
theorem skipSpace_items {item : Json} (h : item.IsPlain) (more : List Json) (rest : Text) :
    skipSpace (Text.join [','] (writeItems (lineStyle ascii) level (item :: more)) ++ rest) =
      Text.join [','] (writeItems (lineStyle ascii) level (item :: more)) ++ rest := by
  obtain ⟨tail, htail⟩ := exists_join_eq_append (writeAt (lineStyle ascii) level item)
    (writeItems (lineStyle ascii) level more)
  rw [writeItems, htail, List.append_assoc, h.skipSpace_writeAt]

end

/-! ### Reading it back -/

/-- A value is read back before anything that may follow it. -/
def Reads (ascii : Bool) (j : Json) : Prop :=
  ∀ level fuel rest, (writeAt (lineStyle ascii) level j).length ≤ fuel → Stops rest →
    readWith fuel (writeAt (lineStyle ascii) level j ++ rest) = some (j, rest)

/-- There is fuel for a character that is read. -/
theorem exists_fuel {c : Char} {t : Text} {fuel : Nat} (h : (c :: t).length ≤ fuel) :
    ∃ less, fuel = less + 1 ∧ t.length ≤ less := by
  cases fuel with
  | zero => cases h
  | succ less => exact ⟨less, rfl, Nat.le_of_succ_le_succ h⟩

section
variable (fuel : Nat) {c : Char} (rest : Text)

theorem readWith_digit (h : isDigit c = true) :
    readWith (fuel + 1) (c :: rest) = readNumber? false (c :: rest) := by
  rw [readWith]
  all_goals
    rintro rfl
    cases h

theorem readWith_minus (h : isDigit c = true) :
    readWith (fuel + 1) ('-' :: c :: rest) = readNumber? true (c :: rest) := by
  rw [readWith]
  intro more heq
  obtain ⟨rfl, -⟩ := List.cons.inj heq
  cases h

/-- A list that does not end at once has items. -/
theorem readWith_items {t : Text} (h : ∀ rest, skipSpace t ≠ ']' :: rest) :
    readWith (fuel + 1) ('[' :: t) =
      (readItems fuel (skipSpace t)).map fun (items, rest) => (.arr items, rest) := by
  rw [readWith]
  split
  · next heq => exact absurd heq (h _)
  · rfl

/-- An object that does not end at once has members. -/
theorem readWith_members {t : Text} (h : ∀ rest, skipSpace t ≠ '\x7d' :: rest) :
    readWith (fuel + 1) ('\x7b' :: t) = (readMembers fuel (skipSpace t)).map
      fun (members, rest) => (.obj (Entries.ofPairs members), rest) := by
  rw [readWith]
  split
  · next heq => exact absurd heq (h _)
  · rfl

end

section
variable {ascii : Bool}

theorem reads_int (n : Int) : Reads ascii (.int n) := by
  intro level fuel rest hfuel hstops
  rw [writeAt] at hfuel ⊢
  cases n with
  | ofNat n =>
    obtain ⟨c, t, ht⟩ := List.exists_cons_of_ne_nil (ofNat_ne_nil n)
    have hc : isDigit c = true := isDigit_of_mem_ofNat (ht ▸ List.mem_cons_self)
    rw [Text.ofInt, ht] at hfuel
    obtain ⟨fuel, rfl, -⟩ := exists_fuel hfuel
    have hread := readNumber?_ofNat hstops false n
    rw [ht] at hread
    rw [Text.ofInt, ht, List.cons_append, readWith_digit fuel _ hc]
    exact hread
  | negSucc n =>
    obtain ⟨c, t, ht⟩ := List.exists_cons_of_ne_nil (ofNat_ne_nil (n + 1))
    have hc : isDigit c = true := isDigit_of_mem_ofNat (ht ▸ List.mem_cons_self)
    obtain ⟨fuel, rfl, -⟩ := exists_fuel hfuel
    have hread := readNumber?_ofNat hstops true (n + 1)
    rw [ht] at hread
    rw [Text.ofInt, ht, List.cons_append, List.cons_append, readWith_minus fuel _ hc]
    exact hread

theorem reads_str (t : Text) : Reads ascii (.str t) := by
  intro level fuel rest hfuel _
  rw [writeAt] at hfuel ⊢
  obtain ⟨fuel, rfl, -⟩ := exists_fuel hfuel
  obtain ⟨inner, hinner, hread⟩ := exists_writtenString ascii rest t
  have hinner : writtenString (lineStyle ascii).ensureAscii t ++ rest = '"' :: inner := hinner
  rw [hinner, readWith, hread]
  rfl

/-- The items of a list are read back up to the closing bracket. -/
theorem readItems_written {items : List Json} (h : ∀ item ∈ items, item.IsPlain)
    (hreads : ∀ item ∈ items, Reads ascii item) (hne : items ≠ []) (level : Nat) {fuel : Nat}
    (rest : Text)
    (hfuel : (Text.join [','] (writeItems (lineStyle ascii) level items)).length < fuel) :
    readItems fuel (Text.join [','] (writeItems (lineStyle ascii) level items) ++ ']' :: rest) =
      some (items, rest) := by
  induction items generalizing fuel with
  | nil => exact absurd rfl hne
  | cons item items ih =>
    obtain ⟨fuel, rfl⟩ := exists_fuel_of_lt hfuel
    have hfirst := hreads item List.mem_cons_self level fuel
    cases items with
    | nil =>
      have hstops : Stops (']' :: rest) := fun c hc => .inr (.inl (Option.some.inj hc).symm)
      rw [writeItems, writeItems, join_singleton] at hfuel ⊢
      rw [readItems, hfirst _ (Nat.le_of_lt_succ hfuel) hstops]
      rfl
    | cons next more =>
      have hstops : ∀ t, Stops (',' :: t) := fun t c hc => .inl (Option.some.inj hc).symm
      have htext : Text.join [','] (writeItems (lineStyle ascii) level (item :: next :: more)) =
          writeAt (lineStyle ascii) level item ++
            ',' :: Text.join [','] (writeItems (lineStyle ascii) level (next :: more)) := by
        rw [writeItems, writeItems, join_cons_cons]
      have hspace := skipSpace_items ascii level
        (h next (List.mem_cons_of_mem _ List.mem_cons_self)) more (']' :: rest)
      rw [htext, List.length_append, List.length_cons] at hfuel
      have hless : (Text.join [','] (writeItems (lineStyle ascii) level (next :: more))).length <
          fuel := by omega
      have hrest := ih (fun item hi => h item (List.mem_cons_of_mem _ hi))
        (fun item hi => hreads item (List.mem_cons_of_mem _ hi)) (List.cons_ne_nil _ _) hless
      rw [htext, List.append_assoc, List.cons_append, readItems, hfirst _ (by omega) (hstops _)]
      show (readItems fuel (skipSpace _)).map _ = _
      rw [hspace, hrest]
      rfl

theorem reads_arr {items : List Json} (h : ∀ item ∈ items, item.IsPlain)
    (hreads : ∀ item ∈ items, Reads ascii item) : Reads ascii (.arr items) := by
  intro level fuel rest hfuel _
  rw [writeAt_arr, List.cons_append] at hfuel ⊢
  obtain ⟨fuel, rfl, hless⟩ := exists_fuel hfuel
  cases items with
  | nil =>
    rw [writeItems]
    rfl
  | cons item more =>
    have hitem : item.IsPlain := h item List.mem_cons_self
    rw [List.length_append, List.length_singleton] at hless
    have hspace := skipSpace_items ascii (level + 1) hitem more (']' :: rest)
    have hread := readItems_written h hreads (List.cons_ne_nil _ _) (level + 1) rest hless
    rw [List.cons_append, List.append_assoc, List.singleton_append, readWith_items, hspace, hread]
    · rfl
    · intro t
      obtain ⟨tail, htail⟩ := exists_join_eq_append (writeAt (lineStyle ascii) (level + 1) item)
        (writeItems (lineStyle ascii) (level + 1) more)
      obtain ⟨c, first, hfirst, hc⟩ := hitem.exists_writeAt_eq_cons ascii (level + 1)
      rw [hspace, writeItems, htail, hfirst]
      exact fun heq => hc.ne (by decide) (List.cons.inj heq).1

/-- A member as it is written. -/
def writtenMember (ascii : Bool) (level : Nat) (key : Text) (value : Json) : Text :=
  writtenString ascii key ++ ':' :: writeAt (lineStyle ascii) level value

theorem map_writeMembers (level : Nat) (key : Text) (value : Json) (more : List (Text × Json)) :
    (writeMembers (lineStyle ascii) level ((key, value) :: more)).map (·.2) =
      writtenMember ascii level key value ::
        (writeMembers (lineStyle ascii) level more).map (·.2) := by
  rw [writeMembers, List.map_cons]
  simp [writtenMember, lineStyle, compactStyle]

/-- The members from a member on, by what follows it. -/
def membersFrom (fuel : Nat) (key : Text) (value : Json) :
    Text → Option (List (Text × Json) × Text)
  | ',' :: rest => (readMembers fuel (skipSpace rest)).map
      fun (members, rest) => ((key, value) :: members, rest)
  | '\x7d' :: rest => some ([(key, value)], rest)
  | _ => none

/-- One member is read back, and what follows it decides how to go on. -/
theorem readMembers_member {value : Json} (h : value.IsPlain) (hreads : Reads ascii value)
    (key : Text) (level : Nat) {fuel : Nat}
    (hfuel : (writtenMember ascii level key value).length ≤ fuel) (tail : Text) : Stops tail →
    readMembers (fuel + 1) (writtenMember ascii level key value ++ tail) =
      membersFrom fuel key value tail := by
  intro hstops
  obtain ⟨inner, hinner, hread⟩ := exists_writtenString ascii
    (':' :: (writeAt (lineStyle ascii) level value ++ tail)) key
  have htext : writtenMember ascii level key value ++ tail = '"' :: inner := by
    rw [← hinner, writtenMember, List.append_assoc, List.cons_append]
  have hvalue : readWith fuel (writeAt (lineStyle ascii) level value ++ tail) =
      some (value, tail) := by
    refine hreads level fuel tail ?_ hstops
    rw [writtenMember, List.length_append, List.length_cons] at hfuel
    omega
  have hcolon : ∀ t : Text, skipSpace (':' :: t) = ':' :: t := fun _ => rfl
  have hfirst : readMembers (fuel + 1) ('"' :: inner) =
      membersFrom fuel key value (skipSpace tail) := by
    rw [readMembers, hread]
    simp only [hcolon, h.skipSpace_writeAt, hvalue]
    rfl
  rw [htext, hfirst, hstops.skipSpace_eq]

/-- Nothing is skipped before the members of an object. -/
theorem skipSpace_members (ascii : Bool) (level : Nat) (key : Text) (value : Json) (more : List Text)
    (rest : Text) : ∃ t, skipSpace (Text.join [','] (writtenMember ascii level key value :: more) ++
      rest) = '"' :: t ∧ Text.join [','] (writtenMember ascii level key value :: more) ++ rest =
        '"' :: t := by
  obtain ⟨tail, htail⟩ := exists_join_eq_append (writtenMember ascii level key value) more
  rw [htail]
  exact ⟨_, rfl, rfl⟩

/-- The members of an object are read back up to the closing brace. -/
theorem readMembers_written {members : List (Text × Json)}
    (h : ∀ entry ∈ members, entry.2.IsPlain) (hreads : ∀ entry ∈ members, Reads ascii entry.2)
    (hne : members ≠ []) (level : Nat) {fuel : Nat} (rest : Text)
    (hfuel : (Text.join [','] ((writeMembers (lineStyle ascii) level members).map (·.2))).length <
      fuel) :
    readMembers fuel (Text.join [','] ((writeMembers (lineStyle ascii) level members).map (·.2)) ++
      '\x7d' :: rest) = some (members, rest) := by
  induction members generalizing fuel with
  | nil => exact absurd rfl hne
  | cons entry members ih =>
    obtain ⟨key, value⟩ := entry
    obtain ⟨fuel, rfl⟩ := exists_fuel_of_lt hfuel
    have hplain : value.IsPlain := h _ List.mem_cons_self
    have hvalue : Reads ascii value := hreads _ List.mem_cons_self
    cases members with
    | nil =>
      have hstops : Stops ('\x7d' :: rest) := fun c hc => .inr (.inr (Option.some.inj hc).symm)
      rw [map_writeMembers, writeMembers, List.map_nil, join_singleton] at hfuel ⊢
      rw [readMembers_member hplain hvalue key level (Nat.le_of_lt_succ hfuel) _ hstops]
      rfl
    | cons next more =>
      obtain ⟨name, second⟩ := next
      have hstops : ∀ t, Stops (',' :: t) := fun t c hc => .inl (Option.some.inj hc).symm
      have htext : Text.join [',']
          ((writeMembers (lineStyle ascii) level ((key, value) :: (name, second) :: more)).map
            (·.2)) = writtenMember ascii level key value ++ ',' :: Text.join [',']
          ((writeMembers (lineStyle ascii) level ((name, second) :: more)).map (·.2)) := by
        rw [map_writeMembers, map_writeMembers, join_cons_cons]
      obtain ⟨t, hskip, hspace⟩ := skipSpace_members ascii level name second
        ((writeMembers (lineStyle ascii) level more).map (·.2)) ('\x7d' :: rest)
      rw [← map_writeMembers] at hskip hspace
      rw [htext, List.length_append, List.length_cons] at hfuel
      have hless : (Text.join [',']
          ((writeMembers (lineStyle ascii) level ((name, second) :: more)).map (·.2))).length <
            fuel := by omega
      have hrest := ih (fun entry he => h entry (List.mem_cons_of_mem _ he))
        (fun entry he => hreads entry (List.mem_cons_of_mem _ he)) (List.cons_ne_nil _ _) hless
      rw [htext, List.append_assoc, List.cons_append,
        readMembers_member hplain hvalue key level (by omega) _ (hstops _)]
      show (readMembers fuel (skipSpace _)).map _ = _
      rw [hskip, ← hspace, hrest]
      rfl

theorem reads_obj {members : List (Text × Json)} (hkeys : (Entries.keys members).Nodup)
    (h : ∀ entry ∈ members, entry.2.IsPlain)
    (hreads : ∀ entry ∈ members, Reads ascii entry.2) : Reads ascii (.obj members) := by
  intro level fuel rest hfuel _
  rw [writeAt_obj, List.cons_append] at hfuel ⊢
  obtain ⟨fuel, rfl, hless⟩ := exists_fuel hfuel
  cases members with
  | nil =>
    rw [writeMembers]
    rfl
  | cons entry more =>
    obtain ⟨key, value⟩ := entry
    rw [List.length_append, List.length_singleton] at hless
    obtain ⟨t, hskip, hspace⟩ := skipSpace_members ascii (level + 1) key value
      ((writeMembers (lineStyle ascii) (level + 1) more).map (·.2)) ('\x7d' :: rest)
    rw [← map_writeMembers] at hskip hspace
    have hread := readMembers_written h hreads (List.cons_ne_nil _ _) (level + 1) rest hless
    rw [List.cons_append, List.append_assoc, List.singleton_append, readWith_members, hskip,
      ← hspace, hread, Option.map_some]
    · show some (Json.obj (Entries.ofPairs _), rest) = _
      rw [Entries.ofPairs_eq_self hkeys]
    · intro t
      rw [hskip]
      exact fun heq => by cases heq

theorem IsPlain.reads {j : Json} (h : j.IsPlain) : Reads ascii j := by
  induction h with
  | null =>
    intro level fuel rest hfuel _
    cases fuel with
    | zero => cases hfuel
    | succ fuel => rw [writeAt]; rfl
  | bool value =>
    intro level fuel rest hfuel _
    cases fuel with
    | zero => cases value <;> cases hfuel
    | succ fuel => cases value <;> (rw [writeAt]; rfl)
  | int n => exact reads_int n
  | str t => exact reads_str t
  | arr h ih => exact reads_arr h ih
  | obj hkeys h ih => exact reads_obj hkeys h ih

/-- A plain value is read back from its line, with nothing left over. -/
theorem IsPlain.read?_write {j : Json} (h : j.IsPlain) (ascii : Bool) :
    read? (write (lineStyle ascii) j) = some j := by
  have hspace := h.skipSpace_writeAt ascii 0 []
  have hread := (h.reads : Reads ascii j) 0 (2 * (write (lineStyle ascii) j).length + 2) []
    (by rw [write]; omega) stops_nil
  rw [List.append_nil] at hspace hread
  rw [← write] at hspace hread
  rw [read?, hspace, hread]
  rfl

end

end LogicTrainer.Json
