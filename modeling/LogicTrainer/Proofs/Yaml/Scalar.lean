import LogicTrainer.Yaml.Reader
import LogicTrainer.Proofs.Json.RoundTrip

/-! Scalars of settings documents.

A whole number in digits stands for itself (`scalar_ofInt`), and in brackets it is a word that
ends where something else follows (`IsWord.scalarAt?_eq`). A string that was written for the
interchange format is read back between its marks, unless it has a character outside the basic
plane, which was written as two units (`scalarAt?_written`). -/
namespace LogicTrainer.Yaml
open Json (Stops StartsValue isDigit hexValue? isDigit_of_mem_ofNat ofNat_ne_nil
  ofNat_ne_zero_cons writtenString)

/-! ### Whole numbers -/

theorem hexValue?_of_isDigit {c : Char} (h : isDigit c = true) :
    hexValue? c = some (c.toNat - 48) := by
  rw [isDigit] at h
  simp only [hexValue?, h, if_true]

theorem ne_of_isDigit {c d : Char} (h : isDigit c = true) (hd : isDigit d = false) : c ≠ d := by
  rintro rfl
  exact Bool.false_ne_true (hd.symm.trans h)

/-- Digits are read with the value that they have behind others. -/
theorem foldl_digits {t : Text} (h : ∀ c ∈ t, isDigit c = true) (value : Nat) :
    t.foldl (fun n c => do
        let n ← n
        let d ← hexValue? c
        if d < 10 then some (10 * n + d) else none) (some value) =
      some (t.foldl (fun n c => 10 * n + (c.toNat - 48)) value) := by
  induction t generalizing value with
  | nil => rfl
  | cons c t ih =>
    have hc := h c List.mem_cons_self
    have hsmall : c.toNat - 48 < 10 := by
      simp only [isDigit, Bool.and_eq_true, decide_eq_true_eq] at hc
      omega
    simp only [List.foldl_cons, hexValue?_of_isDigit hc, Option.bind_eq_bind, Option.bind_some,
      hsmall, if_true]
    exact ih (fun c hmem => h c (List.mem_cons_of_mem _ hmem)) _

theorem digitsIn_ofNat (n : Nat) : digitsIn 10 (Text.ofNat n) = some n := by
  have hmark : ∀ c ∈ Text.ofNat n, (c != '_') = true := fun c hc =>
    bne_iff_ne.2 (ne_of_isDigit (isDigit_of_mem_ofNat hc) rfl)
  have hany : (Text.ofNat n).any (· != '_') = true := by
    obtain ⟨c, t, ht⟩ := List.exists_cons_of_ne_nil (ofNat_ne_nil n)
    exact List.any_eq_true.2 ⟨c, ht ▸ List.mem_cons_self, hmark c (ht ▸ List.mem_cons_self)⟩
  rw [digitsIn, if_pos hany, List.filter_eq_self.2 hmark,
    foldl_digits fun c => isDigit_of_mem_ofNat]
  exact congrArg some (Json.digitsValue_ofNat n)

/-- Without a colon there is one place. -/
theorem places_eq_singleton {t : Text} (h : ':' ∉ t) : places t = [t] := by
  induction t with
  | nil => rfl
  | cons c t ih =>
    have hc : (c == ':') = false := beq_false_of_ne fun hc => h (hc ▸ List.mem_cons_self)
    have ht : places t = [t] := ih fun hmem => h (List.mem_cons_of_mem _ hmem)
    rw [places] at ht ⊢
    rw [List.foldr_cons, ht, hc]
    rfl

theorem whole?_ofNat (n : Nat) : whole? (Text.ofNat n) = some n := by
  by_cases hn : n = 0
  · subst hn
    rfl
  · have hzero := ofNat_ne_zero_cons hn
    have hplaces : places (Text.ofNat n) = [Text.ofNat n] :=
      places_eq_singleton fun hmem => ne_of_isDigit (isDigit_of_mem_ofNat hmem) rfl rfl
    obtain ⟨c, t, ht⟩ := List.exists_cons_of_ne_nil (ofNat_ne_nil n)
    have hc : isDigit c = true := isDigit_of_mem_ofNat (ht ▸ List.mem_cons_self)
    have hdigits := digitsIn_ofNat n
    rw [ht] at hzero hplaces hdigits ⊢
    have hfirst : c ≠ '0' := fun heq => hzero t (by rw [heq])
    rw [whole?]
    · simp only [hc, hplaces, hdigits, Bool.not_true, Bool.false_eq_true, if_false]
    all_goals
      intros
      contradiction

/-- No word for nothing or for a truth value starts like a number. -/
theorem not_mem_words {t : Text} {c : Char} (hc : isDigit c = true ∨ c = '-') :
    c :: t ∉ nullWords ++ trueWords ++ falseWords := by
  have hwords : ((nullWords ++ trueWords ++ falseWords).all fun word =>
      word.head?.all fun d => !(isDigit d || d == '-')) = true := by decide
  intro hmem
  have hfirst : (!(isDigit c || c == '-')) = true := List.all_eq_true.1 hwords _ hmem
  rcases hc with hc | rfl
  · rw [hc] at hfirst
    cases hfirst
  · cases hfirst

/-- What starts like a number and is whole after its sign is that number. -/
theorem scalar_of_whole? {t rest : Text} {negative : Bool} {n : Nat}
    (hwords : t ∉ nullWords ++ trueWords ++ falseWords) (hsigned : signed t = (negative, rest))
    (h : whole? rest = some n) : scalar t = .int (withSign negative n) := by
  simp only [List.mem_append, not_or] at hwords
  obtain ⟨⟨hnull, htrue⟩, hfalse⟩ := hwords
  have hcontains : ∀ {words : List Text}, t ∉ words → words.contains t = false := fun hmem =>
    Bool.eq_false_iff.2 fun hcontains => hmem (List.contains_iff_mem.1 hcontains)
  simp only [scalar, hcontains hnull, hcontains htrue, hcontains hfalse, Bool.false_eq_true,
    if_false, hsigned, h]

/-- A number in digits stands for itself. -/
theorem scalar_ofInt (n : Int) : scalar (Text.ofInt n) = .int n := by
  cases n with
  | ofNat n =>
    obtain ⟨c, t, ht⟩ := List.exists_cons_of_ne_nil (ofNat_ne_nil n)
    have hc : isDigit c = true := isDigit_of_mem_ofNat (ht ▸ List.mem_cons_self)
    have hsigned : signed (Text.ofNat n) = (false, Text.ofNat n) := by
      rw [ht, signed]
      · exact fun _ heq => ne_of_isDigit hc rfl (List.cons.inj heq).1
      · exact fun _ heq => ne_of_isDigit hc rfl (List.cons.inj heq).1
    have hwords : Text.ofNat n ∉ nullWords ++ trueWords ++ falseWords :=
      ht ▸ not_mem_words (.inl hc)
    exact scalar_of_whole? hwords hsigned (whole?_ofNat n)
  | negSucc n => exact scalar_of_whole? (not_mem_words (.inr rfl)) rfl (whole?_ofNat (n + 1))

/-! ### Words -/

theorem not_mem_of_isDigit {c : Char} (h : isDigit c = true) {marks : Text}
    (hmarks : (marks.all fun d => !isDigit d) = true) : c ∉ marks := by
  intro hmem
  have hc := List.all_eq_true.1 hmarks c hmem
  rw [h] at hc
  cases hc

/-- A character that goes on with a word in brackets. -/
def IsWordChar (c : Char) : Prop := c ∉ "\n\t #:?,[]\x7b\x7d".toList

instance (c : Char) : Decidable (IsWordChar c) := inferInstanceAs (Decidable (¬ _))

theorem isWordChar_of_isDigit {c : Char} (h : isDigit c = true) : IsWordChar c :=
  not_mem_of_isDigit h (by decide)

theorem plainRun_word {t rest : Text} (h : ∀ c ∈ t, IsWordChar c) (hstops : Stops rest) :
    plainRun true false (t ++ rest) = (t, rest) := by
  induction t with
  | nil =>
    cases rest with
    | nil => rfl
    | cons c rest => obtain rfl | rfl | rfl := hstops c rfl <;> rfl
  | cons c t ih =>
    have hc : IsWordChar c := h c List.mem_cons_self
    have hne : ∀ d ∈ "\n\t #:?,[]\x7b\x7d".toList, (c == d) = false := fun d hd =>
      beq_false_of_ne fun heq => hc (heq ▸ hd)
    have hmark : isFlowMark c = false := Bool.eq_false_iff.2 fun hmark =>
      hc (List.mem_of_mem_drop (i := 6) (List.contains_iff_mem.1 hmark))
    rw [List.cons_append, plainRun]
    simp only [hne '\n' (by decide), hne '\t' (by decide), hne '#' (by decide), hne ':' (by decide),
      hne '?' (by decide), hne ' ' (by decide), hmark, Bool.and_false, Bool.false_and, Bool.or_self,
      Bool.false_eq_true, if_false, ih fun c hmem => h c (List.mem_cons_of_mem _ hmem)]

/-- A word that a value can be. -/
structure IsWord (t : Text) : Prop where
  chars : ∀ c ∈ t, IsWordChar c
  starts : ∃ x more, t = x :: more ∧ StartsValue x ∧ x ∉ "\"[\x7b".toList ∧
    ∀ rest, startsPlain true x (more ++ rest) = true

theorem plainText_word {t rest : Text} (h : ∀ c ∈ t, IsWordChar c) (hstops : Stops rest)
    {c : Cursor} (hc : c.rest = t ++ rest) (fuel : Nat) :
    plainText true 0 (fuel + 1) c = (t, ⟨c.column + t.length, rest, false⟩) := by
  have htrim : (t.reverse.dropWhile (· == ' ')).reverse = t := by
    have hblank : ∀ d ∈ t.reverse, ¬ (d == ' ') = true := fun d hd hblank =>
      h d (List.mem_reverse.1 hd) (beq_iff_eq.1 hblank ▸ by decide)
    cases hlast : t.reverse with
    | nil => rw [List.reverse_eq_nil_iff.1 hlast]; rfl
    | cons d more =>
      rw [hlast] at hblank
      rw [List.dropWhile_cons, if_neg (hblank d List.mem_cons_self), ← hlast, List.reverse_reverse]
  rw [plainText, hc, plainRun_word h hstops]
  simp only [htrim]
  cases rest with
  | nil => rfl
  | cons x rest => obtain rfl | rfl | rfl := hstops x rfl <;> rfl

/-- A word is read as what it stands for. -/
theorem IsWord.scalarAt?_eq {t rest : Text} (h : IsWord t) (hstops : Stops rest) {c : Cursor}
    (hc : c.rest = t ++ rest) (fuel : Nat) :
    scalarAt? true 0 (fuel + 1) c =
      some (scalar t, ⟨c.column + t.length, rest, false⟩) := by
  obtain ⟨x, more, ht, hx, hmark, hplain⟩ := h.starts
  have hcons : c.rest = x :: (more ++ rest) := by rw [hc, ht, List.cons_append]
  have hquote : x ≠ '"' := fun heq => hmark (heq ▸ by decide)
  rw [scalarAt?, hcons]
  simp only [beq_false_of_ne hquote, beq_false_of_ne (hx.ne (by decide : ¬ StartsValue '\x27')),
    hplain rest, Bool.or_self, Bool.false_eq_true, if_false, if_true,
    plainText_word h.chars hstops hc fuel]

theorem isWordChar_of_all {t : Text} (h : (t.all fun c => decide (IsWordChar c)) = true) :
    ∀ c ∈ t, IsWordChar c := fun c hc => of_decide_eq_true (List.all_eq_true.1 h c hc)

theorem isWord_null : IsWord "null".toList :=
  ⟨isWordChar_of_all (by decide), _, _, rfl, by decide, by decide, fun _ => rfl⟩

theorem isWord_bool (value : Bool) :
    IsWord (if value then "true".toList else "false".toList) := by
  cases value with
  | false => exact ⟨isWordChar_of_all (by decide), _, _, rfl, by decide, by decide, fun _ => rfl⟩
  | true => exact ⟨isWordChar_of_all (by decide), _, _, rfl, by decide, by decide, fun _ => rfl⟩

theorem startsPlain_of_isDigit {x : Char} (h : isDigit x = true) (rest : Text) :
    startsPlain true x rest = true := by
  rw [startsPlain, Bool.or_eq_true, Bool.not_eq_true']
  exact .inl (Bool.eq_false_iff.2 fun hmem =>
    not_mem_of_isDigit h (by decide) (List.contains_iff_mem.1 hmem))

theorem isWord_ofInt (n : Int) : IsWord (Text.ofInt n) := by
  have hchars : ∀ m, ∀ c ∈ Text.ofNat m, IsWordChar c := fun m c hc =>
    isWordChar_of_isDigit (isDigit_of_mem_ofNat hc)
  have hfirst : ∀ m, ∃ x more, Text.ofNat m = x :: more ∧ isDigit x = true := fun m => by
    obtain ⟨x, more, hx⟩ := List.exists_cons_of_ne_nil (ofNat_ne_nil m)
    exact ⟨x, more, hx, isDigit_of_mem_ofNat (hx ▸ List.mem_cons_self)⟩
  cases n with
  | ofNat m =>
    obtain ⟨x, more, hx, hdigit⟩ := hfirst m
    refine ⟨hchars m, x, more, hx, .inl hdigit, ?_, fun rest => ?_⟩
    · exact not_mem_of_isDigit hdigit (by decide)
    · exact startsPlain_of_isDigit hdigit _
  | negSucc m =>
    obtain ⟨x, more, hx, hdigit⟩ := hfirst (m + 1)
    have hne : ∀ d : Char, isDigit d = false → (x == d) = false := fun d hd =>
      beq_false_of_ne (ne_of_isDigit hdigit hd)
    refine ⟨fun c hc => ?_, '-', x :: more, by rw [Text.ofInt, hx], by decide, by decide,
      fun rest => ?_⟩
    · rcases List.mem_cons.1 hc with rfl | hc
      · decide
      · exact hchars _ c hc
    · have hends : Cursor.endsWord (x :: (more ++ rest)) = false := by
        simp only [Cursor.endsWord, hne ' ' (by decide), hne '\n' (by decide), hne '\t' (by decide),
          Bool.or_self]
      rw [List.cons_append, startsPlain, hends]
      rfl

/-! ### Strings -/

/-- Every character is of the basic plane, so none is written as two units. -/
def IsBasic (t : Text) : Prop := ∀ c ∈ t, c.toNat < 0x10000

instance (t : Text) : Decidable (IsBasic t) :=
  List.decidableBAll (fun c : Char => c.toNat < 0x10000) t

/-- A value was read, and this text is left. -/
def Leaves {α : Type} (result : Option (α × Cursor)) (value : α) (rest : Text) : Prop :=
  ∃ after, result = some (value, after) ∧ after.rest = rest

theorem Leaves.map {α β : Type} {result : Option (α × Cursor)} {value : α} {rest : Text}
    (h : Leaves result value rest) (φ : α → β) :
    Leaves (result.map fun (value, after) => (φ value, after)) (φ value) rest := by
  obtain ⟨after, rfl, hrest⟩ := h
  exact ⟨after, rfl, hrest⟩

/-- How a character of the basic plane is written: as a letter after a backslash, as a unit, or
as itself. -/
theorem writtenChar_cases {c : Char} (h : c.toNat < 0x10000) :
    (∃ e, Json.writtenChar true c = ['\\', e] ∧ escape? e = some c ∧ escapeWidth? e = none ∧
      e ≠ '\n') ∨
    Json.writtenChar true c = '\\' :: 'u' :: Text.hex 4 c.toNat ∨
    (Json.writtenChar true c = [c] ∧ c ≠ '"' ∧ c ≠ '\\' ∧ 0x20 ≤ c.toNat) := by
  have hcode : ∀ n, (c.toNat == n) = true → Char.ofNat n = c := by
    intro n hn
    rw [← beq_iff_eq.1 hn, Char.ofNat_toNat]
  have hescaped : Json.escapedChar c = '\\' :: 'u' :: Text.hex 4 c.toNat := by
    simp only [Json.escapedChar, h, if_true, Json.escapedUnit]
  unfold Json.writtenChar
  split
  · next hc => exact .inl ⟨'"', rfl, congrArg some (beq_iff_eq.1 hc).symm, rfl, by decide⟩
  · next hmark =>
    split
    · next hc => exact .inl ⟨'\\', rfl, congrArg some (beq_iff_eq.1 hc).symm, rfl, by decide⟩
    · next hslash =>
      split
      · next hc => exact .inl ⟨'n', rfl, congrArg some (beq_iff_eq.1 hc).symm, rfl, by decide⟩
      split
      · next hc => exact .inl ⟨'r', rfl, congrArg some (beq_iff_eq.1 hc).symm, rfl, by decide⟩
      split
      · next hc => exact .inl ⟨'t', rfl, congrArg some (beq_iff_eq.1 hc).symm, rfl, by decide⟩
      split
      · next hc => exact .inl ⟨'b', rfl, congrArg some (hcode 8 hc), rfl, by decide⟩
      split
      · next hc => exact .inl ⟨'f', rfl, congrArg some (hcode 12 hc), rfl, by decide⟩
      split
      · exact .inr (.inl hescaped)
      · next hlow =>
        split
        · exact .inr (.inl hescaped)
        · exact .inr (.inr ⟨rfl, fun hc => hmark (beq_iff_eq.2 hc),
            fun hc => hslash (beq_iff_eq.2 hc), Nat.le_of_not_lt hlow⟩)

section
variable {c : Cursor} {fuel : Nat} {t more rest : Text}

/-- The closing mark ends a string. -/
theorem quotedText?_mark (hc : c.rest = '"' :: rest) :
    Leaves (quotedText? '"' (fuel + 1) c) [] rest := by
  refine ⟨c.past 1, ?_, by simp [Cursor.past, hc]⟩
  rw [quotedText?, hc]
  rfl

/-- A backslash is followed by a letter, or by a letter and digits. -/
theorem quotedText?_backslash {e : Char} (hc : c.rest = '\\' :: e :: more) (he : e ≠ '\n') :
    quotedText? '"' (fuel + 1) c = (
      match escapeWidth? e with
      | some width => do
        let digits := more.take width
        if digits.length < width then none
        else do
          let code ← digits.foldlM (fun n d => (hexValue? d).map (16 * n + ·)) 0
          let (text, after) ← quotedText? '"' fuel (c.past (2 + width))
          some (Char.ofNat code :: text, after)
      | none => do
        let decoded ← escape? e
        let (text, after) ← quotedText? '"' fuel (c.past 2)
        some (decoded :: text, after)) := by
  have hmark : ('\\' == '"') = false := by decide
  rw [quotedText?, hc]
  cases hwidth : escapeWidth? e <;>
    simp only [hmark, hwidth, beq_self_eq_true, Bool.and_self, Bool.false_eq_true, if_false, if_true]

theorem quotedText?_letter {d e : Char} (hc : c.rest = '\\' :: e :: more)
    (hd : escape? e = some d) (hwidth : escapeWidth? e = none) (he : e ≠ '\n')
    (h : Leaves (quotedText? '"' fuel (c.past 2)) t rest) :
    Leaves (quotedText? '"' (fuel + 1) c) (d :: t) rest := by
  obtain ⟨after, hread, hrest⟩ := h
  refine ⟨after, ?_, hrest⟩
  rw [quotedText?_backslash hc he, hwidth, hd, hread]
  rfl

theorem quotedText?_unit {n : Nat} (hn : n < 0x10000)
    (hc : c.rest = '\\' :: 'u' :: (Text.hex 4 n ++ more))
    (h : Leaves (quotedText? '"' fuel (c.past 6)) t rest) :
    Leaves (quotedText? '"' (fuel + 1) c) (Char.ofNat n :: t) rest := by
  obtain ⟨after, hread, hrest⟩ := h
  refine ⟨after, ?_, hrest⟩
  have hdigits : (Text.hex 4 n ++ more).take 4 = Text.hex 4 n := by
    rw [Json.hex_four hn]
    rfl
  have hlength : ¬ (Text.hex 4 n).length < 4 := by
    rw [Json.hex_four hn]
    exact Nat.lt_irrefl 4
  have hcode : (Text.hex 4 n).foldlM (fun n d => (hexValue? d).map (16 * n + ·)) 0 = some n := by
    rw [Json.hex_four hn]
    simp only [List.foldlM_cons, List.foldlM_nil, Option.bind_eq_bind, Option.map_some,
      Option.bind_some, Json.hexValue?_digitChar (n / 4096) (by omega),
      Json.hexValue?_digitChar (n / 256 % 16) (by omega),
      Json.hexValue?_digitChar (n / 16 % 16) (by omega),
      Json.hexValue?_digitChar (n % 16) (by omega), Option.pure_def, Option.some.injEq]
    omega
  have hwidth : escapeWidth? 'u' = some 4 := rfl
  rw [quotedText?_backslash hc (by decide), hwidth]
  simp only [hdigits, hlength, if_false, hcode, hread, Option.bind_eq_bind, Option.bind_some]

theorem quotedText?_plain {d : Char} (hc : c.rest = d :: more) (hmark : d ≠ '"') (hslash : d ≠ '\\')
    (hlow : 0x20 < d.toNat) (h : Leaves (quotedText? '"' fuel (c.past 1)) t rest) :
    Leaves (quotedText? '"' (fuel + 1) c) (d :: t) rest := by
  obtain ⟨after, hread, hrest⟩ := h
  refine ⟨after, ?_, hrest⟩
  have hgap : ∀ e : Char, e.toNat ≤ 0x20 → (d == e) = false := fun e he =>
    beq_false_of_ne fun hde => by rw [hde] at hlow; omega
  rw [quotedText?, hc]
  simp only [beq_false_of_ne hmark, beq_false_of_ne hslash, hgap ' ' (by decide),
    hgap '\t' (by decide), hgap '\n' (by decide), Bool.false_and, Bool.or_self, Bool.false_eq_true,
    if_false, hread, Option.bind_eq_bind, Option.bind_some]

theorem takeWhile_blanks (count : Nat) (h : ∀ d ∈ more.head?, 0x20 < d.toNat) :
    (List.replicate count ' ' ++ more).takeWhile (fun y => y == ' ' || y == '\t') =
      List.replicate count ' ' := by
  rw [List.takeWhile_append_of_pos fun d hd => by rw [List.eq_of_mem_replicate hd]; rfl]
  cases more with
  | nil => exact List.append_nil _
  | cons d more =>
    rw [List.takeWhile_cons_of_neg, List.append_nil]
    intro hgap
    simp only [Bool.or_eq_true, beq_iff_eq] at hgap
    have := h d rfl
    rcases hgap with rfl | rfl <;> exact absurd this (by decide)

theorem dropWhile_blanks (count : Nat) (h : ∀ d ∈ more.head?, 0x20 < d.toNat) :
    (List.replicate count ' ' ++ more).dropWhile (fun y => y == ' ' || y == '\t') = more := by
  have hwhole := List.takeWhile_append_dropWhile (p := fun y => y == ' ' || y == '\t')
    (l := List.replicate count ' ' ++ more)
  rw [takeWhile_blanks count h] at hwhole
  exact List.append_cancel_left hwhole

/-- Blanks inside a string are passed over together. -/
theorem quotedText?_blanks {count : Nat} (hcount : 0 < count)
    (hc : c.rest = List.replicate count ' ' ++ more)
    (hmore : ∀ d ∈ more.head?, 0x20 < d.toNat)
    (h : Leaves (quotedText? '"' fuel (c.past count)) t rest) :
    Leaves (quotedText? '"' (fuel + 1) c) (List.replicate count ' ' ++ t) rest := by
  obtain ⟨after, hread, hrest⟩ := h
  refine ⟨after, ?_, hrest⟩
  have htake := takeWhile_blanks count hmore
  have hdrop := dropWhile_blanks count hmore
  obtain ⟨less, rfl⟩ := Nat.exists_eq_succ_of_ne_zero (Nat.ne_of_gt hcount)
  have hmark : (' ' == '"') = false := by decide
  have hslash : (' ' == '\\') = false := by decide
  have hcons : List.replicate less.succ ' ' ++ more = ' ' :: (List.replicate less ' ' ++ more) := rfl
  rw [quotedText?, hc, hcons]
  simp only [hmark, hslash, beq_self_eq_true, Bool.true_or, Bool.false_and, Bool.false_eq_true,
    if_false, if_true]
  rw [← hcons, htake, hdrop]
  split
  · exact absurd (hmore '\n' rfl) (by decide)
  · have hcount : max (List.replicate less.succ ' ').length 1 = less.succ := by
      rw [List.length_replicate]
      omega
    rw [hcount, hread]
    rfl

theorem lt_of_ne_blank {d : Char} (h : d ≠ ' ') (hlow : 0x20 ≤ d.toNat) : 0x20 < d.toNat :=
  Nat.lt_of_le_of_ne hlow fun heq => h (Char.toNat_inj.1 heq.symm)

/-- A text is the blanks that it starts with and the rest. -/
theorem exists_blanks (t : Text) :
    ∃ count more, t = List.replicate count ' ' ++ more ∧ ∀ d ∈ more.head?, d ≠ ' ' := by
  refine ⟨(t.takeWhile (· == ' ')).length, t.dropWhile (· == ' '), ?_, fun d hd => ?_⟩
  · have hblanks : t.takeWhile (· == ' ') =
        List.replicate (t.takeWhile (· == ' ')).length ' ' :=
      List.eq_replicate_of_mem fun d hd =>
        beq_iff_eq.1 (List.all_eq_true.1 List.all_takeWhile d hd)
    rw [← hblanks, List.takeWhile_append_dropWhile]
  · have hnot := List.head?_dropWhile_not (· == ' ') t
    rw [hd] at hnot
    rintro rfl
    cases hnot

theorem flatMap_blanks (count : Nat) :
    (List.replicate count ' ').flatMap (Json.writtenChar true) = List.replicate count ' ' := by
  rw [List.flatMap_replicate]
  have hblank : Json.writtenChar true ' ' = [' '] := rfl
  rw [hblank, List.flatten_replicate_singleton]

/-- What is written for no blank starts with no blank. -/
theorem lt_of_head?_written (ht : IsBasic t) (hfirst : ∀ d ∈ t.head?, d ≠ ' ') {e : Char}
    (he : e ∈ (t.flatMap (Json.writtenChar true) ++ '"' :: rest).head?) : 0x20 < e.toNat := by
  cases t with
  | nil =>
    obtain rfl := Option.some.inj he
    decide
  | cons d t =>
    rw [List.flatMap_cons, List.append_assoc] at he
    obtain ⟨l, hwritten, -⟩ | hwritten | ⟨hwritten, -, -, hlow⟩ :=
      writtenChar_cases (ht d List.mem_cons_self)
    all_goals
      rw [hwritten] at he
      obtain rfl := Option.some.inj he
    · decide
    · decide
    · exact lt_of_ne_blank (hfirst d rfl) hlow

/-- A written string is read back up to its closing mark. -/
theorem quotedText?_written (ht : IsBasic t) (hfuel : t.length < fuel)
    (hc : c.rest = t.flatMap (Json.writtenChar true) ++ '"' :: rest) :
    Leaves (quotedText? '"' fuel c) t rest := by
  induction hlength : t.length using Nat.strongRecOn generalizing t c fuel with
  | ind length ih =>
    obtain ⟨fuel, rfl⟩ := Json.exists_fuel_of_lt hfuel
    cases t with
    | nil => exact quotedText?_mark hc
    | cons d t =>
      rw [List.length_cons] at hfuel hlength
      have hbasic : IsBasic t := fun e he => ht e (List.mem_cons_of_mem _ he)
      have htail : ∀ {c : Cursor}, c.rest = t.flatMap (Json.writtenChar true) ++ '"' :: rest →
          Leaves (quotedText? '"' fuel c) t rest := fun hc =>
        ih t.length (by omega) hbasic (by omega) hc rfl
      rw [List.flatMap_cons, List.append_assoc] at hc
      obtain ⟨e, hwritten, hd, hwidth, he⟩ | hwritten | ⟨hwritten, hmark, hslash, hlow⟩ :=
        writtenChar_cases (ht d List.mem_cons_self)
      · rw [hwritten] at hc
        exact quotedText?_letter hc hd hwidth he (htail (by rw [Cursor.past, hc]; rfl))
      · have hfour : (Text.hex 4 d.toNat).length = 4 := by
          rw [Json.hex_four (ht d List.mem_cons_self)]
          rfl
        rw [hwritten] at hc
        rw [← Char.ofNat_toNat d]
        refine quotedText?_unit (ht d List.mem_cons_self) hc (htail ?_)
        rw [Cursor.past, hc]
        show (Text.hex 4 d.toNat ++ _).drop 4 = _
        rw [List.drop_left' hfour]
      · by_cases hblank : d = ' '
        · subst hblank
          obtain ⟨count, u, rfl, hu⟩ := exists_blanks t
          have hwhole : c.rest = List.replicate (count + 1) ' ' ++
              (u.flatMap (Json.writtenChar true) ++ '"' :: rest) := by
            rw [hc, hwritten, List.flatMap_append, flatMap_blanks, List.append_assoc]
            rfl
          have hu' : IsBasic u := fun e he => hbasic e (List.mem_append_right _ he)
          rw [List.length_append, List.length_replicate] at hfuel hlength
          refine quotedText?_blanks (Nat.succ_pos count) hwhole
            (fun e he => lt_of_head?_written hu' hu he) ?_
          refine ih u.length (by omega) hu' (by omega) ?_ rfl
          rw [Cursor.past, hwhole, List.drop_left' List.length_replicate]
        · rw [hwritten] at hc
          exact quotedText?_plain hc hmark hslash (lt_of_ne_blank hblank hlow)
            (htail (by rw [Cursor.past, hc]; rfl))

end

theorem scalarAt?_written {t rest : Text} (ht : IsBasic t) {fuel : Nat}
    (hfuel : (writtenString true t).length ≤ fuel) {c : Cursor}
    (hc : c.rest = writtenString true t ++ rest) :
    Leaves (scalarAt? true 0 fuel c) (.str t) rest := by
  have hlength := Json.length_le_written true t
  have hcons : c.rest = '"' :: (t.flatMap (Json.writtenChar true) ++ '"' :: rest) := by
    rw [hc, writtenString]
    simp
  rw [writtenString, List.length_append, List.length_cons, List.length_singleton] at hfuel
  have hread : Leaves (quotedText? '"' fuel (c.past 1)) t rest :=
    quotedText?_written ht (by omega) (by rw [Cursor.past, hcons]; rfl)
  obtain ⟨after, hread, hrest⟩ := hread
  refine ⟨after, ?_, hrest⟩
  rw [scalarAt?, hcons]
  simp only [beq_self_eq_true, Bool.true_or, if_true, hread, Option.map_some]

end LogicTrainer.Yaml
