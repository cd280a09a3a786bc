import LogicTrainer.Proofs.Json.Printed
import LogicTrainer.Proofs.Yaml.Scalar

/-! Documents that are one value in brackets.

A value that was written on one line for the interchange format is a settings document too. The
two notations differ in what a line may hold: a settings document has no pairs of units, and a
colon belongs to a name only if the name is near. For the values without either, what is written
is read back (`IsShared.document?_write`). -/
namespace LogicTrainer.Yaml
open Json (Stops StartsValue lineStyle writeAt writeItems writeMembers writtenString writtenMember
  join_singleton join_cons_cons)

/-! ### What both notations share -/

/-- The name of a member, written near enough to the colon after it. -/
structure IsName (t : Text) : Prop where
  basic : IsBasic t
  near : (writtenString true t).length ≤ 1024

instance (t : Text) : Decidable (IsName t) :=
  decidable_of_iff (IsBasic t ∧ (writtenString true t).length ≤ 1024)
    ⟨fun ⟨basic, near⟩ => ⟨basic, near⟩, fun h => ⟨h.basic, h.near⟩⟩

/-- A value that both notations can write. -/
inductive IsShared : Json → Prop where
  | null : IsShared .null
  | bool (value : Bool) : IsShared (.bool value)
  | int (value : Int) : IsShared (.int value)
  | str {value : Text} (h : IsBasic value) : IsShared (.str value)
  | arr {items : List Json} (h : ∀ item ∈ items, IsShared item) : IsShared (.arr items)
  | obj {members : List (Text × Json)} (hkeys : (Entries.keys members).Nodup)
    (hnames : ∀ entry ∈ members, IsName entry.1) (h : ∀ entry ∈ members, IsShared entry.2) :
    IsShared (.obj members)

theorem IsShared.isPlain {j : Json} (h : IsShared j) : j.IsPlain := by
  induction h with
  | null => exact .null
  | bool value => exact .bool value
  | int value => exact .int value
  | str => exact .str _
  | arr _ ih => exact .arr ih
  | obj hkeys _ _ ih => exact .obj hkeys ih

/-! ### Blanks -/

/-- Nothing is passed over before other characters. -/
theorem rest_skip {c : Cursor} (h : ∀ x ∈ c.rest.head?, x ∉ "\n #".toList) :
    c.skip.rest = c.rest := by
  obtain ⟨column, rest, fresh⟩ := c
  cases rest with
  | nil => rfl
  | cons x rest =>
    have hx : x ∉ "\n #".toList := h x rfl
    have hne : ∀ d ∈ "\n #".toList, (x == d) = false := fun d hd =>
      beq_false_of_ne fun heq => hx (heq ▸ hd)
    simp only [Cursor.skip, Cursor.skipFrom, hne '\n' (by decide), hne ' ' (by decide),
      hne '#' (by decide), Bool.false_eq_true, if_false]

theorem rest_skip_cons {c : Cursor} {x : Char} {t : Text} (hc : c.rest = x :: t)
    (hx : x ∉ "\n #".toList) : c.skip.rest = x :: t := by
  rw [rest_skip, hc]
  rw [hc]
  rintro y hy
  obtain rfl := Option.some.inj hy
  exact hx

theorem rest_skip_nil {c : Cursor} (hc : c.rest = []) : c.skip.rest = [] := by
  rw [rest_skip, hc]
  exact fun x hx => by rw [hc] at hx; cases hx

theorem startsValue_not_mem {x : Char} (h : StartsValue x) : x ∉ "\n #".toList := by
  have hnone : ("\n #".toList.all fun d => decide (¬ StartsValue d)) = true := by decide
  exact fun hmem => of_decide_eq_true (List.all_eq_true.1 hnone x hmem) h

/-! ### Values -/

/-- A value is read back in brackets, before anything that may follow it. -/
def Reads (j : Json) : Prop :=
  ∀ level fuel rest c, (writeAt (lineStyle true) level j).length < fuel → Stops rest →
    c.rest = writeAt (lineStyle true) level j ++ rest → Leaves (flowValue? fuel c) j rest

/-- A word is read as what it stands for. -/
theorem IsWord.flowValue? {t rest : Text} (h : IsWord t) (hstops : Stops rest) {c : Cursor}
    (hc : c.rest = t ++ rest) (fuel : Nat) :
    Leaves (flowValue? (fuel + 2) c) (scalar t) rest := by
  obtain ⟨x, more, ht, -, hmark, -⟩ := h.starts
  have hcons : c.rest = x :: (more ++ rest) := by rw [hc, ht, List.cons_append]
  refine ⟨⟨c.column + t.length, rest, false⟩, ?_, rfl⟩
  rw [Yaml.flowValue?, hcons]
  split
  · next heq => exact absurd (List.cons.inj heq).1 fun heq => hmark (heq ▸ by decide)
  · next heq => exact absurd (List.cons.inj heq).1 fun heq => hmark (heq ▸ by decide)
  · exact h.scalarAt?_eq hstops hc fuel

theorem reads_word {j : Json} {t : Text} (h : IsWord t) (hscalar : scalar t = j)
    (hwritten : ∀ level, writeAt (lineStyle true) level j = t) : Reads j := by
  intro level fuel rest c hfuel hstops hc
  rw [hwritten] at hfuel hc
  obtain ⟨x, more, ht, -⟩ := h.starts
  rw [ht, List.length_cons] at hfuel
  obtain ⟨fuel, rfl⟩ := Nat.exists_eq_add_of_le' (show 2 ≤ fuel by omega)
  exact hscalar ▸ h.flowValue? hstops hc fuel

theorem reads_str {t : Text} (h : IsBasic t) : Reads (.str t) := by
  intro level fuel rest c hfuel hstops hc
  rw [writeAt] at hfuel hc
  obtain ⟨fuel, rfl⟩ := Json.exists_fuel_of_lt hfuel
  obtain ⟨after, hread, hrest⟩ := scalarAt?_written h (Nat.le_of_lt_succ hfuel) hc
  refine ⟨after, ?_, hrest⟩
  have hcons : ∃ more, c.rest = '"' :: more := ⟨_, by rw [hc]; rfl⟩
  obtain ⟨more, hcons⟩ := hcons
  rw [flowValue?, hcons]
  exact hread

section
variable {c : Cursor} {fuel : Nat} {rest : Text} {item : Json}

theorem flowItems?_close (hc : c.rest = ']' :: rest) :
    Leaves (flowItems? (fuel + 1) c) [] rest := by
  refine ⟨c.past 1, ?_, by rw [Cursor.past, hc]; rfl⟩
  rw [flowItems?, hc]
  rfl

/-- The last item of a list is read, and the bracket after it. -/
theorem flowItems?_last {x : Char} {t : Text} (hc : c.rest = x :: t) (hx : x ≠ ']')
    (h : Leaves (flowValue? fuel c) item (']' :: rest)) :
    Leaves (flowItems? (fuel + 1) c) [item] rest := by
  obtain ⟨after, hread, hrest⟩ := h
  have hskip : after.skip.rest = ']' :: rest := rest_skip_cons hrest (by decide)
  refine ⟨after.skip.past 1, ?_, by rw [Cursor.past, hskip]; rfl⟩
  rw [flowItems?, hc]
  split
  · next heq => exact absurd (List.cons.inj heq).1 hx
  · have hcolon : ((']' :: rest).head? == some ':') = false := rfl
    simp only [hread, hskip, hcolon, Option.bind_eq_bind, Option.bind_some, Option.pure_def,
      Bool.false_and, Bool.false_eq_true, if_false]

/-- An item of a list is read, and the others after the comma. -/
theorem flowItems?_cons {x y : Char} {t more : Text} {items : List Json} {left : Text}
    (hc : c.rest = x :: t) (hx : x ≠ ']') (h : Leaves (flowValue? fuel c) item (',' :: rest))
    (hstart : rest = y :: more) (hy : y ∉ "\n #".toList)
    (hmore : ∀ next : Cursor, next.rest = rest → Leaves (flowItems? fuel next) items left) :
    Leaves (flowItems? (fuel + 1) c) (item :: items) left := by
  obtain ⟨after, hread, hrest⟩ := h
  have hskip : after.skip.rest = ',' :: rest := rest_skip_cons hrest (by decide)
  have hpast : (after.skip.past 1).rest = rest := by rw [Cursor.past, hskip]; rfl
  have hnext : (after.skip.past 1).skip.rest = rest := by
    rw [rest_skip_cons (hpast.trans hstart) hy, hstart]
  obtain ⟨last, hitems, hleft⟩ := hmore _ hnext
  refine ⟨last, ?_, hleft⟩
  rw [flowItems?, hc]
  split
  · next heq => exact absurd (List.cons.inj heq).1 hx
  · have hcolon : ((',' :: rest).head? == some ':') = false := rfl
    simp only [hread, hskip, hcolon, hitems, Option.bind_eq_bind, Option.bind_some, Option.pure_def,
      Bool.false_and, Bool.false_eq_true, if_false]

end

section
variable (level : Nat) {fuel : Nat} {c : Cursor} {rest : Text}

/-- What is joined starts with a value. -/
theorem exists_items_eq_cons {item : Json} (h : item.IsPlain) (more : List Json) :
    ∃ x t, Text.join [','] (writeItems (lineStyle true) level (item :: more)) = x :: t ∧
      StartsValue x := by
  obtain ⟨tail, htail⟩ := Json.exists_join_eq_append (writeAt (lineStyle true) level item)
    (writeItems (lineStyle true) level more)
  obtain ⟨x, t, ht, hx⟩ := h.exists_writeAt_eq_cons true level
  exact ⟨x, t ++ tail, by rw [writeItems, htail, ht, List.cons_append], hx⟩

/-- The items of a list are read back up to the closing bracket. -/
theorem flowItems?_written {items : List Json} (h : ∀ item ∈ items, item.IsPlain)
    (hreads : ∀ item ∈ items, Reads item) (hne : items ≠ [])
    (hfuel : (Text.join [','] (writeItems (lineStyle true) level items)).length + 1 < fuel)
    (hc : c.rest = Text.join [','] (writeItems (lineStyle true) level items) ++ ']' :: rest) :
    Leaves (flowItems? fuel c) items rest := by
  induction items generalizing fuel c with
  | nil => exact absurd rfl hne
  | cons item items ih =>
    obtain ⟨fuel, rfl⟩ := Json.exists_fuel_of_lt hfuel
    obtain ⟨x, t, ht, hx⟩ := exists_items_eq_cons level (h item List.mem_cons_self) items
    have hstart : c.rest = x :: (t ++ ']' :: rest) := by rw [hc, ht, List.cons_append]
    cases items with
    | nil =>
      have hstops : Stops (']' :: rest) := fun c hc => .inr (.inl (Option.some.inj hc).symm)
      rw [writeItems, writeItems, join_singleton] at hfuel hc
      exact flowItems?_last hstart (hx.ne (by decide))
        (hreads item List.mem_cons_self level fuel _ c (by omega) hstops hc)
    | cons next more =>
      have hstops : ∀ t, Stops (',' :: t) := fun t c hc => .inl (Option.some.inj hc).symm
      have htext : Text.join [','] (writeItems (lineStyle true) level (item :: next :: more)) =
          writeAt (lineStyle true) level item ++
            ',' :: Text.join [','] (writeItems (lineStyle true) level (next :: more)) := by
        rw [writeItems, writeItems, join_cons_cons]
      have hpos : 0 < (writeAt (lineStyle true) level item).length := by
        obtain ⟨y, u, hu, -⟩ := (h item List.mem_cons_self).exists_writeAt_eq_cons true level
        rw [hu]
        exact Nat.succ_pos _
      obtain ⟨y, u, hu, hy⟩ := exists_items_eq_cons level
        (h next (List.mem_cons_of_mem _ List.mem_cons_self)) more
      rw [htext, List.length_append, List.length_cons] at hfuel
      rw [htext, List.append_assoc, List.cons_append] at hc
      refine flowItems?_cons hstart (hx.ne (by decide))
        (hreads item List.mem_cons_self level fuel _ c (by omega) (hstops _) hc)
        (by rw [hu, List.cons_append]) (startsValue_not_mem hy) fun following hfollowing => ?_
      exact ih (fun item hi => h item (List.mem_cons_of_mem _ hi))
        (fun item hi => hreads item (List.mem_cons_of_mem _ hi)) (List.cons_ne_nil _ _)
        (by omega) hfollowing

theorem reads_arr {items : List Json} (h : ∀ item ∈ items, item.IsPlain)
    (hreads : ∀ item ∈ items, Reads item) : Reads (.arr items) := by
  intro level fuel rest c hfuel _ hc
  rw [Json.writeAt_arr, List.cons_append] at hfuel hc
  rw [List.length_cons, List.length_append, List.length_singleton] at hfuel
  obtain ⟨fuel, rfl⟩ := Json.exists_fuel_of_lt hfuel
  rw [List.cons_append, List.append_assoc, List.singleton_append] at hc
  have hpast : (c.past 1).rest = Text.join [','] (writeItems (lineStyle true) (level + 1) items) ++
      ']' :: rest := by
    rw [Cursor.past, hc]
    rfl
  have hitems : Leaves (flowItems? fuel (c.past 1).skip) items rest := by
    cases items with
    | nil =>
      obtain ⟨fuel, rfl⟩ := Json.exists_fuel_of_lt (show 0 < fuel by omega)
      exact flowItems?_close (rest_skip_cons hpast (by decide))
    | cons item more =>
      obtain ⟨x, t, ht, hx⟩ := exists_items_eq_cons (level + 1)
        (h item List.mem_cons_self) more
      refine flowItems?_written (level + 1) h hreads (List.cons_ne_nil _ _) (by omega) ?_
      rw [ht, List.cons_append] at hpast
      rw [rest_skip_cons hpast (startsValue_not_mem hx), ht, List.cons_append]
  rw [flowValue?, hc]
  exact hitems.map Json.arr

end

/-! ### Members -/

section
variable {c : Cursor} {fuel : Nat} {rest more : Text} {key : Text} {value : Json}

/-- A written name is near enough to the colon after it. -/
theorem mayKey_of_isName (h : IsName key) (hc : c.rest = writtenString true key ++ ':' :: more)
    {colon : Cursor} (hcolon : colon.rest = ':' :: more) : c.mayKey colon = true := by
  have hlength : c.rest.length - colon.rest.length = (writtenString true key).length := by
    rw [hc, hcolon, List.length_append, Nat.add_sub_cancel]
  have htake : c.rest.take (writtenString true key).length = writtenString true key := by
    rw [hc, List.take_left']
    rfl
  have hline : '\n' ∉ writtenString true key := fun hmem =>
    (Json.isPrinted_writtenString true key).not_isBreak hmem (.inl rfl)
  simp only [Cursor.mayKey, hlength, htake, h.near, decide_true, Bool.true_and, Bool.not_eq_true']
  exact Bool.eq_false_iff.2 fun hcontains => hline (List.contains_iff_mem.1 hcontains)

/-- The value after a colon is there. -/
theorem flowPair?_value {x : Char} {t : Text} (hc : c.rest = x :: t) (hx : StartsValue x)
    (h : Leaves (flowValue? fuel c) value rest) : Leaves (flowPair? (fuel + 1) c) value rest := by
  rw [flowPair?, hc]
  split
  · next heq => exact absurd (List.cons.inj heq).1 (hx.ne (by decide))
  · next heq => exact absurd (List.cons.inj heq).1 (hx.ne (by decide))
  · next heq => exact absurd (List.cons.inj heq).1 (hx.ne (by decide))
  · exact h

theorem flowMembers?_close (hc : c.rest = '\x7d' :: rest) :
    Leaves (flowMembers? (fuel + 1) c) [] rest := by
  refine ⟨c.past 1, ?_, by rw [Cursor.past, hc]; rfl⟩
  rw [flowMembers?, hc]
  rfl

/-- The members from a member on, by what follows it. -/
def membersFrom? (fuel : Nat) (key : Text) (value : Json) (after : Cursor) :
    Option (List (Text × Json) × Cursor) :=
  match after.skip.rest with
  | ',' :: _ => do
    let (members, last) ← flowMembers? fuel (after.skip.past 1).skip
    some ((key, value) :: members, last)
  | '\x7d' :: _ => some ([(key, value)], after.skip.past 1)
  | _ => none

/-- After the last member the object is closed. -/
theorem membersFrom?_close {after : Cursor} (h : after.rest = '\x7d' :: rest) :
    Leaves (membersFrom? fuel key value after) [(key, value)] rest := by
  have hskip : after.skip.rest = '\x7d' :: rest := rest_skip_cons h (by decide)
  refine ⟨after.skip.past 1, ?_, by rw [Cursor.past, hskip]; rfl⟩
  rw [membersFrom?, hskip]
  rfl

/-- After a comma the other members are read. -/
theorem membersFrom?_comma {after : Cursor} {members : List (Text × Json)} {left : Text}
    (h : after.rest = ',' :: rest) (hstart : rest = '"' :: more)
    (hmore : ∀ next : Cursor, next.rest = rest → Leaves (flowMembers? fuel next) members left) :
    Leaves (membersFrom? fuel key value after) ((key, value) :: members) left := by
  have hskip : after.skip.rest = ',' :: rest := rest_skip_cons h (by decide)
  have hpast : (after.skip.past 1).rest = rest := by
    rw [Cursor.past, hskip]
    rfl
  have hnext : (after.skip.past 1).skip.rest = rest := by
    rw [rest_skip_cons (hpast.trans hstart) (by decide), hstart]
  obtain ⟨last, hmembers, hleft⟩ := hmore _ hnext
  refine ⟨last, ?_, hleft⟩
  rw [membersFrom?, hskip]
  simp only [hmembers, Option.bind_eq_bind, Option.bind_some]

/-- One member is read, and what follows it decides how to go on. -/
theorem flowMembers?_member (hkey : IsName key) (hvalue : value.IsPlain) (hreads : Reads value)
    {level : Nat} (hfuel : (writtenMember true level key value).length < fuel) (hstops : Stops rest)
    (hc : c.rest = writtenMember true level key value ++ rest) :
    ∃ after : Cursor, flowMembers? (fuel + 1) c = membersFrom? fuel key value after ∧
      after.rest = rest := by
  rw [writtenMember, List.length_append, List.length_cons] at hfuel
  rw [writtenMember, List.append_assoc, List.cons_append] at hc
  obtain ⟨fuel, rfl⟩ := Json.exists_fuel_of_lt hfuel
  obtain ⟨x, t, ht, hx⟩ := hvalue.exists_writeAt_eq_cons true level
  obtain ⟨named, hnamed, hcolon⟩ := scalarAt?_written (c := c) hkey.basic
    (show (writtenString true key).length ≤ fuel + 1 by omega) hc
  have hskip : named.skip.rest = ':' :: (writeAt (lineStyle true) level value ++ rest) :=
    rest_skip_cons hcolon (by decide)
  have hnear : c.mayKey named.skip = true := mayKey_of_isName hkey hc hskip
  have hpast : (named.skip.past 1).rest = x :: (t ++ rest) := by
    rw [Cursor.past, hskip, ht]
    rfl
  have hnext : (named.skip.past 1).skip.rest = x :: (t ++ rest) :=
    rest_skip_cons hpast (startsValue_not_mem hx)
  obtain ⟨after, hread, hrest⟩ := flowPair?_value hnext hx
    (hreads level fuel rest _ (by omega) hstops (by rw [hnext, ht, List.cons_append]))
  refine ⟨after, ?_, hrest⟩
  obtain ⟨inner, hinner⟩ : ∃ inner, c.rest = '"' :: inner := ⟨_, by rw [hc]; rfl⟩
  have hmark : (named.skip.rest.head? == some ':') = true := by
    rw [hskip]
    rfl
  rw [flowMembers?, hinner]
  split
  · next heq => cases heq
  · simp only [hnamed, hmark, hnear, hread, Option.bind_eq_bind, Option.bind_some, Bool.and_self,
      if_true]
    rfl

/-- Members start with the mark of a name. -/
theorem exists_members_eq_cons (level : Nat) (key : Text) (value : Json)
    (members : List (Text × Json)) : ∃ t, Text.join [',']
      ((writeMembers (lineStyle true) level ((key, value) :: members)).map (·.2)) = '"' :: t := by
  obtain ⟨tail, htail⟩ := Json.exists_join_eq_append (writtenMember true level key value)
    ((writeMembers (lineStyle true) level members).map (·.2))
  rw [Json.map_writeMembers, htail]
  exact ⟨_, rfl⟩

/-- The members of an object are read back up to the closing brace. -/
theorem flowMembers?_written {members : List (Text × Json)} (level : Nat)
    (hnames : ∀ entry ∈ members, IsName entry.1) (h : ∀ entry ∈ members, entry.2.IsPlain)
    (hreads : ∀ entry ∈ members, Reads entry.2) (hne : members ≠ [])
    (hfuel : (Text.join [','] ((writeMembers (lineStyle true) level members).map (·.2))).length + 1 <
      fuel)
    (hc : c.rest = Text.join [','] ((writeMembers (lineStyle true) level members).map (·.2)) ++
      '\x7d' :: rest) : Leaves (flowMembers? fuel c) members rest := by
  induction members generalizing fuel c with
  | nil => exact absurd rfl hne
  | cons entry members ih =>
    obtain ⟨key, value⟩ := entry
    obtain ⟨fuel, rfl⟩ := Json.exists_fuel_of_lt hfuel
    have hkey : IsName key := hnames _ List.mem_cons_self
    have hvalue : value.IsPlain := h _ List.mem_cons_self
    have hread : Reads value := hreads _ List.mem_cons_self
    cases members with
    | nil =>
      have hstops : Stops ('\x7d' :: rest) := fun c hc => .inr (.inr (Option.some.inj hc).symm)
      rw [Json.map_writeMembers, writeMembers, List.map_nil, join_singleton] at hfuel hc
      obtain ⟨after, hmember, hafter⟩ :=
        flowMembers?_member hkey hvalue hread (Nat.lt_of_succ_lt_succ hfuel) hstops hc
      exact hmember ▸ membersFrom?_close hafter
    | cons next more =>
      obtain ⟨name, second⟩ := next
      have hstops : ∀ t, Stops (',' :: t) := fun t c hc => .inl (Option.some.inj hc).symm
      have htext : Text.join [',']
          ((writeMembers (lineStyle true) level ((key, value) :: (name, second) :: more)).map
            (·.2)) = writtenMember true level key value ++ ',' :: Text.join [',']
          ((writeMembers (lineStyle true) level ((name, second) :: more)).map (·.2)) := by
        rw [Json.map_writeMembers, Json.map_writeMembers, join_cons_cons]
      obtain ⟨t, ht⟩ := exists_members_eq_cons level name second more
      have hpos : 0 < (writtenMember true level key value).length := Nat.succ_pos _
      rw [htext, List.length_append, List.length_cons] at hfuel
      have hless : (writtenMember true level key value).length < fuel := by omega
      rw [htext, List.append_assoc, List.cons_append] at hc
      obtain ⟨after, hmember, hafter⟩ :=
        flowMembers?_member hkey hvalue hread hless (hstops _) hc
      refine hmember ▸ membersFrom?_comma hafter (by rw [ht, List.cons_append]) fun next hnext => ?_
      exact ih (fun entry he => hnames entry (List.mem_cons_of_mem _ he))
        (fun entry he => h entry (List.mem_cons_of_mem _ he))
        (fun entry he => hreads entry (List.mem_cons_of_mem _ he)) (List.cons_ne_nil _ _)
        (by omega) hnext

end

theorem reads_obj {members : List (Text × Json)} (hkeys : (Entries.keys members).Nodup)
    (hnames : ∀ entry ∈ members, IsName entry.1) (h : ∀ entry ∈ members, entry.2.IsPlain)
    (hreads : ∀ entry ∈ members, Reads entry.2) : Reads (.obj members) := by
  intro level fuel rest c hfuel _ hc
  rw [Json.writeAt_obj, List.cons_append] at hfuel hc
  rw [List.length_cons, List.length_append, List.length_singleton] at hfuel
  obtain ⟨fuel, rfl⟩ := Json.exists_fuel_of_lt hfuel
  rw [List.cons_append, List.append_assoc, List.singleton_append] at hc
  have hpast : (c.past 1).rest = Text.join [',']
      ((writeMembers (lineStyle true) (level + 1) members).map (·.2)) ++ '\x7d' :: rest := by
    rw [Cursor.past, hc]
    rfl
  have hmembers : Leaves (flowMembers? fuel (c.past 1).skip) members rest := by
    cases members with
    | nil =>
      obtain ⟨fuel, rfl⟩ := Json.exists_fuel_of_lt (show 0 < fuel by omega)
      exact flowMembers?_close (rest_skip_cons hpast (by decide))
    | cons entry more =>
      obtain ⟨t, ht⟩ := exists_members_eq_cons (level + 1) entry.1 entry.2 more
      refine flowMembers?_written (level + 1) hnames h hreads (List.cons_ne_nil _ _) (by omega) ?_
      rw [ht, List.cons_append] at hpast
      rw [rest_skip_cons hpast (by decide), ht, List.cons_append]
  rw [flowValue?, hc]
  have hvalue := hmembers.map fun members => Json.obj (Entries.ofPairs members)
  rw [Entries.ofPairs_eq_self hkeys] at hvalue
  exact hvalue

theorem IsShared.reads {j : Json} (h : IsShared j) : Reads j := by
  induction h with
  | null => exact reads_word isWord_null rfl fun _ => by rw [writeAt]
  | bool value =>
    refine reads_word (isWord_bool value) ?_ fun _ => by rw [writeAt]
    cases value <;> rfl
  | int n => exact reads_word (isWord_ofInt n) (scalar_ofInt n) fun _ => by rw [writeAt]
  | str h => exact reads_str h
  | arr h ih => exact reads_arr (fun item hi => (h item hi).isPlain) ih
  | obj hkeys hnames h ih =>
    exact reads_obj hkeys hnames (fun entry he => (h entry he).isPlain) ih

/-! ### Documents -/

theorem isReadable_of_isAscii {t : Text} (h : Text.IsAscii t) : t.all isReadable = true := by
  refine List.all_eq_true.2 fun c hc => ?_
  obtain ⟨hlow, hhigh⟩ := h c hc
  simp only [isReadable, Bool.or_eq_true, Bool.and_eq_true, decide_eq_true_eq]
  exact .inl (.inl (.inr ⟨hlow, hhigh⟩))

section
variable {c : Cursor} {x : Char} {t : Text} (hc : c.rest = x :: t)
include hc

theorem atMark_eq_false {mark : Char} (hx : x ≠ mark) : c.atMark mark = false := by
  rw [Cursor.atMark, hc]
  split
  · next heq =>
    obtain ⟨rfl, -⟩ := List.cons.inj heq
    rw [beq_false_of_ne hx, Bool.and_false, Bool.false_and, Bool.false_and, Bool.false_and]
  · rfl

theorem atEnd_eq_false (hdash : x ≠ '-') (hdot : x ≠ '.') : c.atEnd = false := by
  rw [Cursor.atEnd, atMark_eq_false hc hdash, atMark_eq_false hc hdot, hc]
  rfl

theorem atItem_eq_false (hdash : x ≠ '-') : c.atItem = false := by
  rw [Cursor.atItem, hc]
  split
  · next heq => exact absurd (List.cons.inj heq).1 hdash
  · rfl

end

/-- A value in braces is all that is left. -/
theorem block?_brace {c : Cursor} {t : Text} {value : Json} {fuel : Nat} (hc : c.rest = '\x7b' :: t)
    (h : Leaves (flowValue? fuel c) value []) :
    Leaves (block? true 0 (fuel + 1) c) value [] := by
  obtain ⟨after, hread, hrest⟩ := h
  refine ⟨after, ?_, hrest⟩
  have hskip : after.skip.rest = [] := rest_skip_nil hrest
  have hbrace : (c.rest.head? == some '[' || c.rest.head? == some '\x7b') = true := by
    rw [hc]
    rfl
  have hcolon : (after.skip.rest.head? == some ':') = false := by
    rw [hskip]
    rfl
  rw [block?]
  simp only [atItem_eq_false hc (by decide), hbrace, hread, hcolon, Bool.false_and,
    Bool.false_eq_true, if_false, if_true, Option.bind_eq_bind, Option.bind_some]

/-- A mapping that both notations can write is read back from its line. -/
theorem IsShared.document?_write {members : List (Text × Json)} (h : IsShared (.obj members)) :
    document? (Json.write (lineStyle true) (.obj members)) = some (.obj members) := by
  have hascii := h.isPlain.isAscii_writeAt 0
  rw [← Json.write] at hascii
  have hunify : Text.unifyNewlines (Json.write (lineStyle true) (.obj members)) =
      Json.write (lineStyle true) (.obj members) := by
    have happend := hascii.isPrinted.unifyNewlines_append []
    rwa [List.append_nil, Text.unifyNewlines, List.append_nil] at happend
  obtain ⟨t, ht⟩ : ∃ t, Json.write (lineStyle true) (.obj members) = '\x7b' :: t := by
    rw [Json.write, Json.writeAt_obj]
    exact ⟨_, rfl⟩
  obtain ⟨start, hdef⟩ : ∃ start, (Cursor.mk 0 (Json.write (lineStyle true) (.obj members))
    true).skip = start := ⟨_, rfl⟩
  have hstart : start.rest = '\x7b' :: t := hdef ▸ rest_skip_cons ht (by decide)
  have hvalue := h.reads 0 (8 * (Json.write (lineStyle true) (.obj members)).length + 15) [] start
    (by rw [← Json.write]; omega) Json.stops_nil
    (by rw [hstart, ← ht, List.append_nil, Json.write])
  obtain ⟨after, hread, hrest⟩ := block?_brace hstart hvalue
  have hover : isOver (8 * (Json.write (lineStyle true) (.obj members)).length + 16) after.skip =
      true := by
    rw [isOver, rest_skip_nil hrest]
    rfl
  have hmark : start.atMark '-' = false := atMark_eq_false hstart (by decide)
  have hend : start.atEnd = false := atEnd_eq_false hstart (by decide) (by decide)
  rw [document?, isReadable_of_isAscii hascii, hunify]
  simp only [hdef, hmark, hend, hread, hover, Bool.not_true, Bool.not_false, Bool.or_true,
    Bool.false_eq_true, if_false, if_true, Option.bind_eq_bind, Option.bind_some]

end LogicTrainer.Yaml
