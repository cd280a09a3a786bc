import LogicTrainer.Json.Reader
import LogicTrainer.Json.Writer
import LogicTrainer.Text.Blank

/-! Reading back what is written: numbers and strings.

Digits end where something else follows, so a number is read back before what may stand after a
value (`Stops`). A character of a string is written as itself, as a letter after a backslash,
or as one or two units in hexadecimal, and is read back in each case (`readString?_writtenChar`).
No written character is a control character, so what is written has no line breaks. -/
namespace LogicTrainer.Json

/-! ### Whole numbers -/

theorem isDigit_of_mem_ofNat {n : Nat} {c : Char} (h : c ∈ Text.ofNat n) : isDigit c = true := by
  have hdigit := Nat.isDigit_of_mem_toDigits (by decide) (by decide) h
  simp only [Char.isDigit, ge_iff_le, Bool.and_eq_true, decide_eq_true_eq] at hdigit
  obtain ⟨hlow, hhigh⟩ := hdigit
  have hlow : 48 ≤ c.toNat := hlow
  have hhigh : c.toNat ≤ 57 := hhigh
  simp [isDigit, hlow, hhigh]

theorem digitsValue_ofNat (n : Nat) : digitsValue (Text.ofNat n) = n :=
  Nat.ofDigitChars_ten_toDigits

theorem ofNat_ne_nil (n : Nat) : Text.ofNat n ≠ [] := Nat.toDigits_ne_nil

/-- Only zero starts with a zero. -/
theorem ofNat_ne_zero_cons {n : Nat} (h : n ≠ 0) (rest : Text) : Text.ofNat n ≠ '0' :: rest := by
  induction n using Nat.strongRecOn generalizing rest with
  | ind n ih =>
    rw [Text.ofNat]
    by_cases hn : n < 10
    · rw [Nat.toDigits_of_lt_base hn]
      intro heq
      exact h (Nat.digitChar_eq_zero.1 (List.cons.inj heq).1)
    · rw [Nat.toDigits_of_base_le (by decide) (by omega)]
      intro heq
      obtain ⟨hnil, -⟩ | ⟨front, hfront, -⟩ := List.append_eq_cons_iff.1 heq
      · exact ofNat_ne_nil _ hnil
      · exact ih (n / 10) (by omega) (by omega) _ hfront

theorem isBlank_of_isDigit {c : Char} (h : isDigit c = true) : isBlank c = false := by
  simp only [isDigit, Bool.and_eq_true, decide_eq_true_eq] at h
  simp [isBlank]
  omega

/-- The white space between the parts of a value is blank. -/
theorem isSpace_eq_false {c : Char} (h : isBlank c = false) : isSpace c = false := by
  rw [Bool.eq_false_iff] at h ⊢
  intro hspace
  simp only [isSpace, Bool.or_eq_true, beq_iff_eq] at hspace
  obtain ((rfl | rfl) | rfl) | rfl := hspace <;> exact h rfl

/-- What may follow a value: the end, a comma, or a closing bracket or brace. -/
def Stops (rest : Text) : Prop := ∀ c ∈ rest.head?, c = ',' ∨ c = ']' ∨ c = '\x7d'

theorem stops_nil : Stops [] := fun c h => (by cases h)

section
variable {rest : Text} (h : Stops rest)
include h

theorem Stops.takeWhile_isDigit : rest.takeWhile isDigit = [] := by
  cases rest with
  | nil => rfl
  | cons c rest => obtain rfl | rfl | rfl := h c rfl <;> rfl

theorem Stops.dropWhile_isDigit : rest.dropWhile isDigit = rest := by
  cases rest with
  | nil => rfl
  | cons c rest => obtain rfl | rfl | rfl := h c rfl <;> rfl

theorem Stops.skipSpace_eq : skipSpace rest = rest := by
  cases rest with
  | nil => rfl
  | cons c rest => obtain rfl | rfl | rfl := h c rfl <;> rfl

theorem readWhole?_ofNat (n : Nat) :
    readWhole? (Text.ofNat n ++ rest) = some (Text.ofNat n, rest) := by
  by_cases hn : n = 0
  · subst hn
    rfl
  · have htake : (Text.ofNat n ++ rest).takeWhile isDigit = Text.ofNat n := by
      rw [List.takeWhile_append_of_pos fun c => isDigit_of_mem_ofNat, h.takeWhile_isDigit,
        List.append_nil]
    have hdrop : (Text.ofNat n ++ rest).dropWhile isDigit = rest := by
      rw [List.dropWhile_append_of_pos fun c => isDigit_of_mem_ofNat, h.dropWhile_isDigit]
    unfold readWhole?
    split
    · next heq =>
      obtain ⟨hnil, -⟩ | ⟨front, hfront, -⟩ := List.append_eq_cons_iff.1 heq
      · exact absurd hnil (ofNat_ne_nil n)
      · exact absurd hfront (ofNat_ne_zero_cons hn front)
    · rw [htake, hdrop]
      split
      · next hnil => exact absurd hnil (ofNat_ne_nil n)
      · rfl

/-- A whole number is read back after its sign. -/
theorem readNumber?_ofNat (negative : Bool) (n : Nat) :
    readNumber? negative (Text.ofNat n ++ rest) =
      some (.int (if negative then -(n : Int) else n), rest) := by
  have hfraction : readFraction rest = (none, rest) := by
    cases rest with
    | nil => rfl
    | cons c rest => obtain rfl | rfl | rfl := h c rfl <;> rfl
  have hpower : readPower rest = (none, rest) := by
    cases rest with
    | nil => rfl
    | cons c rest => obtain rfl | rfl | rfl := h c rfl <;> rfl
  simp only [readNumber?, readWhole?_ofNat h, Option.bind_eq_bind, Option.bind_some, hfraction,
    hpower, digitsValue_ofNat]
  rfl

end

/-! ### Strings -/

/-- There is fuel for a step where there is more than is asked for. -/
theorem exists_fuel_of_lt {needed fuel : Nat} (h : needed < fuel) : ∃ less, fuel = less + 1 :=
  Nat.exists_eq_succ_of_ne_zero (Nat.ne_of_gt (Nat.zero_lt_of_lt h))

theorem hexValue?_digitChar : ∀ d < 16, hexValue? (Nat.digitChar d) = some d := by decide

/-- The last digit stands after those of the rest. -/
theorem hex_succ {width : Nat} (h : width ≠ 0) (n : Nat) : Text.hex (width + 1) n =
    Text.hex width (n / 16) ++ [Nat.digitChar (n % 16)] := by
  simp only [Text.hex]
  by_cases hn : n < 16
  · obtain ⟨m, rfl⟩ := Nat.exists_eq_succ_of_ne_zero h
    rw [Nat.toDigits_of_lt_base hn, Nat.div_eq_of_lt hn, Nat.mod_eq_of_lt hn]
    simp [List.replicate_succ']
  · rw [Nat.toDigits_of_base_le (by decide) (by omega)]
    simp

/-- The four digits of a unit. -/
theorem hex_four {n : Nat} (h : n < 0x10000) : Text.hex 4 n =
    [Nat.digitChar (n / 4096), Nat.digitChar (n / 256 % 16), Nat.digitChar (n / 16 % 16),
      Nat.digitChar (n % 16)] := by
  have hfirst : Text.hex 1 (n / 16 / 16 / 16) = [Nat.digitChar (n / 16 / 16 / 16)] := by
    rw [Text.hex, Nat.toDigits_of_lt_base (by omega)]
    rfl
  rw [hex_succ (by decide), hex_succ (by decide), hex_succ (by decide), hfirst]
  simp only [Nat.div_div_eq_div_mul, List.cons_append, List.nil_append]

theorem readUnit?_hex {n : Nat} (h : n < 0x10000) (rest : Text) :
    readUnit? (Text.hex 4 n ++ rest) = some (n, rest) := by
  rw [hex_four h]
  simp only [List.cons_append, List.nil_append, readUnit?,
    hexValue?_digitChar (n / 4096) (by omega), hexValue?_digitChar (n / 256 % 16) (by omega),
    hexValue?_digitChar (n / 16 % 16) (by omega), hexValue?_digitChar (n % 16) (by omega),
    Option.bind_eq_bind, Option.bind_some, Option.pure_def, Option.some.injEq, Prod.mk.injEq,
    and_true]
  omega

/-- Two units that are a pair of surrogates are read as one character. -/
theorem readEscapedUnits?_pair {high low : Nat} (hhigh : 0xd800 ≤ high ∧ high ≤ 0xdbff)
    (hlow : 0xdc00 ≤ low ∧ low ≤ 0xdfff) (rest : Text) :
    readEscapedUnits? (Text.hex 4 high ++ '\\' :: 'u' :: (Text.hex 4 low ++ rest)) =
      some (Char.ofNat (0x10000 + (high - 0xd800) * 0x400 + (low - 0xdc00)), rest) := by
  have hfirst : high < 0x10000 := by omega
  have hsecond : low < 0x10000 := by omega
  simp only [readEscapedUnits?, readUnit?_hex hfirst, readUnit?_hex hsecond, Option.bind_eq_bind,
    Option.bind_some]
  rw [if_pos (by simp; omega), if_pos (by simp; omega)]

/-- An escaped character is read back after the first backslash and letter. -/
theorem exists_escapedChar (c : Char) : ∃ units, escapedChar c = '\\' :: 'u' :: units ∧
    ∀ rest, readEscapedUnits? (units ++ rest) = some (c, rest) := by
  have hvalid : c.toNat < 0xd800 ∨ (0xdfff < c.toNat ∧ c.toNat < 0x110000) := c.valid
  simp only [escapedChar, escapedUnit]
  split
  · next hn =>
    refine ⟨_, rfl, fun rest => ?_⟩
    simp only [readEscapedUnits?, readUnit?_hex hn, Option.bind_eq_bind, Option.bind_some]
    rw [if_neg (by simp; omega), if_neg (by simp; omega), Char.ofNat_toNat]
  · next hn =>
    refine ⟨Text.hex 4 _ ++ '\\' :: 'u' :: Text.hex 4 _, by rw [List.cons_append, List.cons_append],
      fun rest => ?_⟩
    have hchar : 0x10000 + (0xd800 + (c.toNat - 0x10000) / 0x400 - 0xd800) * 0x400 +
        (0xdc00 + (c.toNat - 0x10000) % 0x400 - 0xdc00) = c.toNat := by omega
    rw [List.append_assoc, List.cons_append, List.cons_append,
      readEscapedUnits?_pair ⟨by omega, by omega⟩ ⟨by omega, by omega⟩, hchar, Char.ofNat_toNat]

section
variable (ascii : Bool) (fuel : Nat) (rest : Text)

theorem readString?_escapeLetter {e d : Char} (hu : e ≠ 'u') (hd : escapeLetter? e = some d) :
    readString? (fuel + 1) ('\\' :: e :: rest) =
      (readString? fuel rest).map fun (t, rest) => (d :: t, rest) := by
  have hslash : ('\\' == '"') = false := by decide
  simp only [readString?, hslash, beq_self_eq_true, Bool.false_eq_true, if_false, if_true, hd,
    Option.bind_eq_bind, Option.bind_some]
  cases readString? fuel rest <;> rfl

theorem readString?_escapedChar (c : Char) : readString? (fuel + 1) (escapedChar c ++ rest) =
    (readString? fuel rest).map fun (t, rest) => (c :: t, rest) := by
  obtain ⟨units, hunits, hread⟩ := exists_escapedChar c
  have hslash : ('\\' == '"') = false := by decide
  rw [hunits]
  simp only [List.cons_append, readString?, hslash, beq_self_eq_true, Bool.false_eq_true, if_false,
    if_true, hread, Option.bind_eq_bind, Option.bind_some]
  cases readString? fuel rest <;> rfl

theorem readString?_plain {c : Char} (hmark : c ≠ '"') (hslash : c ≠ '\\') (hc : ¬ c.toNat < 0x20) :
    readString? (fuel + 1) (c :: rest) =
      (readString? fuel rest).map fun (t, rest) => (c :: t, rest) := by
  have hmark : (c == '"') = false := beq_false_of_ne hmark
  have hslash : (c == '\\') = false := beq_false_of_ne hslash
  simp only [readString?, hmark, hslash, Bool.false_eq_true, if_false, hc]
  cases readString? fuel rest <;> rfl

/-- A written character is read back, and the rest of the string after it. -/
theorem readString?_writtenChar (c : Char) :
    readString? (fuel + 1) (writtenChar ascii c ++ rest) =
      (readString? fuel rest).map fun (t, rest) => (c :: t, rest) := by
  have hletter : ∀ {e d : Char}, e ≠ 'u' → escapeLetter? e = some d → c = d →
      readString? (fuel + 1) (['\\', e] ++ rest) =
        (readString? fuel rest).map fun (t, rest) => (c :: t, rest) := by
    rintro e d hu hd rfl
    exact readString?_escapeLetter fuel rest hu hd
  have hcode : ∀ n, (c.toNat == n) = true → c = Char.ofNat n := by
    intro n hn
    rw [← beq_iff_eq.1 hn, Char.ofNat_toNat]
  unfold writtenChar
  split
  · next h => exact hletter (by decide) rfl (beq_iff_eq.1 h)
  · next hmark =>
    split
    · next h => exact hletter (by decide) rfl (beq_iff_eq.1 h)
    · next hslash =>
      split
      · next h => exact hletter (by decide) rfl (beq_iff_eq.1 h)
      split
      · next h => exact hletter (by decide) rfl (beq_iff_eq.1 h)
      split
      · next h => exact hletter (by decide) rfl (beq_iff_eq.1 h)
      split
      · next h => exact hletter (by decide) rfl (hcode 8 h)
      split
      · next h => exact hletter (by decide) rfl (hcode 12 h)
      split
      · exact readString?_escapedChar fuel rest c
      · next hc =>
        split
        · exact readString?_escapedChar fuel rest c
        · exact readString?_plain fuel rest (fun h => hmark (by rw [h]; rfl))
            (fun h => hslash (by rw [h]; rfl)) hc

/-- A written string is read back after its opening mark. -/
theorem readString?_written {t : Text} {fuel : Nat} (h : t.length < fuel) :
    readString? fuel (t.flatMap (writtenChar ascii) ++ '"' :: rest) = some (t, rest) := by
  induction t generalizing fuel with
  | nil =>
    obtain ⟨fuel, rfl⟩ := exists_fuel_of_lt h
    rfl
  | cons c t ih =>
    obtain ⟨fuel, rfl⟩ := exists_fuel_of_lt h
    rw [List.flatMap_cons, List.append_assoc, readString?_writtenChar,
      ih (Nat.lt_of_succ_lt_succ h)]
    rfl

theorem writtenChar_ne_nil (c : Char) : writtenChar ascii c ≠ [] := by
  obtain ⟨units, hunits, -⟩ := exists_escapedChar c
  unfold writtenChar
  repeat' split
  all_goals simp [hunits]

theorem length_le_written (t : Text) : t.length ≤ (t.flatMap (writtenChar ascii)).length := by
  induction t with
  | nil => exact Nat.le_refl _
  | cons c t ih =>
    have hpos := List.length_pos_iff.2 (writtenChar_ne_nil ascii c)
    rw [List.flatMap_cons, List.length_append, List.length_cons]
    omega

/-- After its opening mark, a written string is read back with the fuel for its length. -/
theorem exists_writtenString (t : Text) : ∃ inner, writtenString ascii t ++ rest = '"' :: inner ∧
    readString? (inner.length + 1) inner = some (t, rest) := by
  refine ⟨t.flatMap (writtenChar ascii) ++ '"' :: rest, by simp [writtenString],
    readString?_written ascii rest ?_⟩
  have hlength := length_le_written ascii t
  rw [List.length_append]
  omega

end

end LogicTrainer.Json
