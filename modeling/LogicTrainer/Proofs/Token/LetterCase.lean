import LogicTrainer.Proofs.Formula.Renaming
import LogicTrainer.Proofs.Text.Capital
import LogicTrainer.Proofs.Token.Lexing

/-! Letters in either case.

Whatever the lexer looks for is no letter: no glyph is one, no blank, and no character of a
spelling. So writing the ASCII letters of a text in upper case changes the words among its tokens and
nothing else (`ofFormula_asciiUpper`), and it does not change the capitals of a text
(`upper_asciiUpper`). Texts that differ in the case of ASCII letters are the same in upper case
(`asciiUpper_switched`). -/
namespace LogicTrainer

/-- An ASCII letter in the other case. Other characters stay. -/
def switchCase (c : Char) : Char := if c.isUpper then c.toLower else c.toUpper

/-- A text with its ASCII letters at some places in the other case. -/
def Text.switched (places : Nat → Bool) (t : Text) : Text :=
  t.mapIdx fun i c => if places i then switchCase c else c

/-- A text with its ASCII letters in upper case. -/
def Text.asciiUpper (t : Text) : Text := t.map Char.toUpper

example : Text.switched (· != 1) "(p|ſ)=>T∧q".toList = "(p|ſ)=>t∧Q".toList := by decide +kernel

/-! ### Characters -/

theorem toUpper_of_not_isAlpha {c : Char} (h : c.isAlpha = false) : c.toUpper = c :=
  Char.toUpper_eq_of_not_isLower fun hlower => by simp [Char.isAlpha, hlower] at h

/-- What is the same for all letters does not change in upper case. -/
theorem apply_toUpper {α : Type} {p : Char → α} {a : α} (h : ∀ c, c.isAlpha = true → p c = a)
    (c : Char) : p c.toUpper = p c := by
  by_cases hc : c.isLower = true
  · have hletter : c.isAlpha = true := by simp [Char.isAlpha, hc]
    rw [h c hletter, h c.toUpper (by rw [Char.isAlpha_toUpper_eq_isAlpha, hletter])]
  · rw [Char.toUpper_eq_of_not_isLower hc]

theorem toUpper_switchCase (c : Char) : (switchCase c).toUpper = c.toUpper := by
  unfold switchCase
  split <;> simp

/-- Upper case is a capital form. -/
theorem capital_toUpper (c : Char) : capital c.toUpper = capital c := by
  by_cases hc : c.isLower = true
  · have hrange : 97 ≤ c.toNat ∧ c.toNat ≤ 122 := by
      simpa [Char.isLower, UInt32.le_iff_toNat_le, ← Char.toNat_val] using hc
    -- a capital is its own capital, so it is enough that the upper case is the capital
    have hcapital : capital c = [c.toUpper] := by
      rw [capital, if_pos (by omega), if_pos (by simpa using hrange), Char.toUpper_eq_of_isLower hc]
    rw [capital_idempotent (c := c) (by rw [hcapital]; exact List.mem_singleton.2 rfl), hcapital]
  · rw [Char.toUpper_eq_of_not_isLower hc]

/-- To show something of all letters, it is enough to show it of those among the first characters. -/
theorem isAlpha_induction {motive : Char → Prop}
    (ascii : ∀ n < 128, (Char.ofNat n).isAlpha = true → motive (Char.ofNat n)) (c : Char)
    (h : c.isAlpha = true) : motive c := by
  have hrange : (65 ≤ c.toNat ∧ c.toNat ≤ 90) ∨ (97 ≤ c.toNat ∧ c.toNat ≤ 122) := by
    simpa [Char.isAlpha, Char.isUpper, Char.isLower, UInt32.le_iff_toNat_le, ← Char.toNat_val]
      using h
  have hc := ascii c.toNat (by omega)
  rw [Char.ofNat_toNat] at hc
  exact hc h

theorem isBlank_toUpper (c : Char) : isBlank c.toUpper = isBlank c :=
  apply_toUpper (a := false) (isAlpha_induction (by decide +kernel)) c

theorem ofGlyph?_of_isAlpha : ∀ c : Char, c.isAlpha = true → Token.ofGlyph? c = none :=
  isAlpha_induction (by decide +kernel)

theorem isGlyph_toUpper (c : Char) : Token.isGlyph c.toUpper = Token.isGlyph c := by
  rw [Token.isGlyph, Token.isGlyph, apply_toUpper ofGlyph?_of_isAlpha]

/-! ### Texts -/

namespace Text

theorem asciiUpper_switched (places : Nat → Bool) (t : Text) :
    (t.switched places).asciiUpper = t.asciiUpper := by
  refine List.ext_getElem? fun i => ?_
  rw [asciiUpper, switched, asciiUpper, List.getElem?_map, List.getElem?_mapIdx, List.getElem?_map,
    Option.map_map]
  refine Option.map_congr fun c _ => ?_
  show (if places i then switchCase c else c).toUpper = c.toUpper
  split
  · exact toUpper_switchCase c
  · rfl

theorem upper_asciiUpper (t : Text) : t.asciiUpper.upper = t.upper := by
  rw [upper, asciiUpper, List.flatMap_map, upper]
  exact List.flatMap_congr fun c _ => capital_toUpper c

theorem squeezed_asciiUpper (t : Text) : t.asciiUpper.squeezed = t.squeezed.asciiUpper := by
  rw [squeezed, asciiUpper, List.filter_map, squeezed, asciiUpper]
  simp only [Function.comp_def, isBlank_toUpper]

end Text

/-! ### Spellings -/

/-- No character of a spelling is a letter, and no glyph is one. -/
theorem not_isAlpha_of_mem_spellings {spelling : Text × Char} (h : spelling ∈ spellings) :
    (∀ d ∈ spelling.1, d.isAlpha = false) ∧ spelling.2.isAlpha = false := by
  have hall : (spellings.all fun spelling =>
      (spelling.2 :: spelling.1).all fun d => !d.isAlpha) = true := by decide
  simpa [and_comm] using List.all_eq_true.1 hall spelling h

section
variable {old : Text} (hold : ∀ d ∈ old, d.isAlpha = false)
include hold

theorem isPrefixOf_asciiUpper (t : Text) : old.isPrefixOf t.asciiUpper = old.isPrefixOf t := by
  induction old generalizing t with
  | nil => cases t <;> rfl
  | cons d old ih =>
    cases t with
    | nil => rfl
    | cons c rest =>
      have hd : d.isAlpha = false := hold d List.mem_cons_self
      have hc : (d == c.toUpper) = (d == c) := apply_toUpper (p := (d == ·)) (a := false)
        (fun e he => beq_eq_false_iff_ne.2 fun h => by rw [h, he] at hd; cases hd) c
      show (d == c.toUpper && old.isPrefixOf (Text.asciiUpper rest)) = (d == c && old.isPrefixOf rest)
      rw [hc, ih fun e he => hold e (List.mem_cons_of_mem _ he)]

theorem respellFrom_asciiUpper {new : Char} (hnew : new.isAlpha = false) (skip : Nat) (t : Text) :
    respellFrom old new skip t.asciiUpper = (respellFrom old new skip t).asciiUpper := by
  fun_induction respellFrom old new skip t with
  | case1 skip => cases skip <;> rfl
  | case2 skip c rest ih => exact ih
  | case3 c rest hpre ih =>
    have hpre' : old.isPrefixOf (c.toUpper :: Text.asciiUpper rest) = true :=
      (isPrefixOf_asciiUpper hold (c :: rest)).trans hpre
    show respellFrom old new 0 (c.toUpper :: Text.asciiUpper rest) = new.toUpper :: _
    rw [respellFrom, if_pos hpre', toUpper_of_not_isAlpha hnew, ih]
    rfl
  | case4 c rest hpre ih =>
    have hpre' : ¬ old.isPrefixOf (c.toUpper :: Text.asciiUpper rest) = true := fun h =>
      hpre ((isPrefixOf_asciiUpper hold (c :: rest)).symm.trans h)
    show respellFrom old new 0 (c.toUpper :: Text.asciiUpper rest) = c.toUpper :: _
    rw [respellFrom, if_neg hpre', ih]
    rfl

end

theorem Text.glyphs_asciiUpper (t : Text) : t.asciiUpper.glyphs = t.glyphs.asciiUpper := by
  have hall : ∀ table ⊆ spellings, ∀ t : Text,
      table.foldl respell t.asciiUpper = (table.foldl respell t).asciiUpper := by
    intro table
    induction table with
    | nil => exact fun _ _ => rfl
    | cons spelling table ih =>
      intro hsub t
      obtain ⟨hold, hnew⟩ := not_isAlpha_of_mem_spellings (hsub List.mem_cons_self)
      rw [List.foldl_cons, List.foldl_cons, respell, respellFrom_asciiUpper hold hnew]
      exact ih (fun s hs => hsub (List.mem_cons_of_mem _ hs)) _
  exact hall spellings (List.Subset.refl _) t

theorem Text.compact_asciiUpper (t : Text) : t.asciiUpper.compact = t.compact.asciiUpper := by
  rw [compact, glyphs_asciiUpper, squeezed_asciiUpper, compact]

/-! ### Tokens -/

namespace Token

theorem fragments_asciiUpper (t : Text) :
    fragments t.asciiUpper = (fragments t).map Text.asciiUpper := by
  induction t with
  | nil => rfl
  | cons c rest ih =>
    show fragments (c.toUpper :: Text.asciiUpper rest) = _
    rw [fragments, fragments, isGlyph_toUpper, ih]
    split
    · rfl
    · rcases fragments rest with _ | ⟨_ | ⟨d, piece⟩, pieces⟩
      · rfl
      · rfl
      · show (if isGlyph d.toUpper then _ else _) = List.map _ (if isGlyph d then _ else _)
        rw [isGlyph_toUpper]
        split <;> rfl

theorem ofText_of_isAlpha : ∀ c : Char, c.isAlpha = true → ofText [c] = .word [c] :=
  isAlpha_induction (by decide +kernel)

theorem ofText_asciiUpper (t : Text) : ofText t.asciiUpper = (ofText t).rename Text.asciiUpper := by
  match t with
  | [] => rfl
  | [c] =>
    show ofText [c.toUpper] = _
    cases hc : c.isAlpha with
    | true =>
      rw [ofText_of_isAlpha c hc, ofText_of_isAlpha _ ((Char.isAlpha_toUpper_eq_isAlpha c).trans hc)]
      rfl
    | false =>
      have hself : Text.asciiUpper [c] = [c] := by
        rw [Text.asciiUpper, List.map_singleton, toUpper_of_not_isAlpha hc]
      have htext := text_ofText [c]
      rw [toUpper_of_not_isAlpha hc]
      cases ht : ofText [c] with
      | word w =>
        obtain rfl : w = [c] := by rwa [ht] at htext
        rw [rename, hself]
      | neg | conn | lparen | rparen | bit => rfl
  | c :: d :: rest =>
    have hword : ∀ c d rest, ofText (c :: d :: rest) = .word (c :: d :: rest) := by simp [ofText]
    exact (hword ..).trans (congrArg (rename Text.asciiUpper) (hword ..).symm)

/-- Upper case changes words and no other tokens. -/
theorem ofFormula_asciiUpper (t : Text) :
    ofFormula t.asciiUpper = (ofFormula t).map (rename Text.asciiUpper) := by
  rw [ofFormula, Text.compact_asciiUpper, lex, fragments_asciiUpper, ofFormula, lex, List.map_map,
    List.map_map]
  exact List.map_congr_left fun piece _ => ofText_asciiUpper piece

end Token

/-- Upper case is a renaming. -/
theorem renames_asciiUpper : Renames Text.asciiUpper where
  isAtom_eq t := by rw [Atom.isAtom, Atom.isAtom, Text.upper_asciiUpper]
  bit_eq := by decide

end LogicTrainer
