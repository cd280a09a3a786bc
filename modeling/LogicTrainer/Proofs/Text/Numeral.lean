import LogicTrainer.Text.Numeral
import LogicTrainer.Proofs.Json.Scalars

/-! Trimmed texts and numerals.

What was trimmed has no character to trim at either end, and is trimmed no further
(`trim_trim`). A whole number that is written in digits is read back (`integer?_ofInt`). -/
namespace LogicTrainer

namespace Text
variable {drop : Char → Bool}

/-! ### Trimming -/

theorem mem_of_mem_trim {t : Text} {c : Char} (h : c ∈ t.trim drop) : c ∈ t := by
  rw [trim, List.mem_reverse] at h
  have h := List.dropWhile_subset drop h
  rw [List.mem_reverse] at h
  exact List.dropWhile_subset drop h

/-- Nothing is removed where both ends stay. -/
theorem trim_eq_self {t : Text} (hfirst : ∀ c ∈ t.head?, drop c = false)
    (hlast : ∀ c ∈ t.getLast?, drop c = false) : t.trim drop = t := by
  have hkeep : ∀ u : Text, (∀ c ∈ u.head?, drop c = false) → u.dropWhile drop = u := by
    intro u hu
    cases u with
    | nil => rfl
    | cons c u => exact List.dropWhile_cons_of_neg (by rw [hu c rfl]; exact Bool.false_ne_true)
  rw [trim, hkeep t hfirst, hkeep t.reverse (by rwa [List.head?_reverse]), List.reverse_reverse]

theorem head?_trim {t : Text} {c : Char} (h : c ∈ (t.trim drop).head?) : drop c = false := by
  have hwhole := List.takeWhile_append_dropWhile (p := drop) (l := (t.dropWhile drop).reverse)
  have hcut := congrArg List.reverse hwhole
  rw [List.reverse_append, List.reverse_reverse] at hcut
  have hfirst := List.head?_dropWhile_not drop t
  rw [← hcut] at hfirst
  obtain ⟨rest, hrest⟩ := List.head?_eq_some_iff.1 h
  rw [trim] at hrest
  rw [hrest] at hfirst
  simpa using hfirst

theorem getLast?_trim {t : Text} {c : Char} (h : c ∈ (t.trim drop).getLast?) : drop c = false := by
  rw [trim, List.getLast?_reverse] at h
  have hfirst := List.head?_dropWhile_not drop (t.dropWhile drop).reverse
  rw [h] at hfirst
  simpa using hfirst

theorem trim_trim (t : Text) : (t.trim drop).trim drop = t.trim drop :=
  trim_eq_self (fun _ => head?_trim) (fun _ => getLast?_trim)

theorem stripped_stripped (t : Text) : t.stripped.stripped = t.stripped := trim_trim t

end Text

/-! ### Numerals -/

theorem digitValue?_of_isDigit {c : Char} (h : Json.isDigit c = true) :
    digitValue? c = some (c.toNat - 48) := by
  simp only [Json.isDigit, Bool.and_eq_true, decide_eq_true_eq] at h
  simp only [digitValue?]
  rw [if_pos (by omega), if_pos (by simp [h])]

/-- Digits are read with the value that they have behind others. -/
theorem readDigits_of_digits {t : Text} (h : ∀ c ∈ t, Json.isDigit c = true) {fresh : Bool}
    (hfresh : fresh = true → t ≠ []) (value : Nat) :
    readDigits fresh value t = some (t.foldl (fun n c => 10 * n + (c.toNat - 48)) value) := by
  induction t generalizing fresh value with
  | nil =>
    cases fresh with
    | true => exact absurd rfl (hfresh rfl)
    | false => rfl
  | cons c t ih =>
    rw [readDigits, digitValue?_of_isDigit (h c List.mem_cons_self)]
    exact ih (fun c hc => h c (List.mem_cons_of_mem _ hc)) (fun hfalse => by cases hfalse) _

theorem readDigits_ofNat (n : Nat) : readDigits true 0 (Text.ofNat n) = some n := by
  rw [readDigits_of_digits (fun c => Json.isDigit_of_mem_ofNat) fun _ => Json.ofNat_ne_nil n]
  exact congrArg some (Json.digitsValue_ofNat n)

namespace Text

theorem signedDigits?_ofNat (n : Nat) : signedDigits? (ofNat n) = some (n : Int) := by
  unfold signedDigits?
  split
  · next rest hrest =>
    have := Json.isDigit_of_mem_ofNat (n := n) (hrest ▸ List.mem_cons_self)
    exact absurd this (by decide)
  · next rest hrest =>
    have := Json.isDigit_of_mem_ofNat (n := n) (hrest ▸ List.mem_cons_self)
    exact absurd this (by decide)
  · rw [readDigits_ofNat]
    rfl

theorem signedDigits?_ofInt (n : Int) : signedDigits? (ofInt n) = some n := by
  cases n with
  | ofNat n => exact signedDigits?_ofNat n
  | negSucc n =>
    rw [ofInt, signedDigits?, readDigits_ofNat]
    rfl

theorem isNumeralBlank_of_mem_ofInt {n : Int} {c : Char} (h : c ∈ ofInt n) :
    isNumeralBlank c = false := by
  have hdigit : ∀ m, c ∈ ofNat m → isNumeralBlank c = false := fun m hm => by
    rw [isNumeralBlank, Json.isBlank_of_isDigit (Json.isDigit_of_mem_ofNat hm), Bool.false_and]
  cases n with
  | ofNat n => exact hdigit n h
  | negSucc n =>
    rcases List.mem_cons.1 h with rfl | h
    · decide
    · exact hdigit _ h

/-- A number in digits is read back. -/
theorem integer?_ofInt (n : Int) : (ofInt n).integer? = some n := by
  have hends : (ofInt n).trim isNumeralBlank = ofInt n :=
    trim_eq_self (fun _ hc => isNumeralBlank_of_mem_ofInt (List.mem_of_mem_head? hc))
      (fun _ hc => isNumeralBlank_of_mem_ofInt (List.mem_of_getLast? hc))
  rw [integer?, hends, signedDigits?_ofInt]

end Text
end LogicTrainer
