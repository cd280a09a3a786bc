import LogicTrainer.Proofs.Formula.StrictForm
import LogicTrainer.Proofs.Formula.Variables

/-! Reading goes by the shape of tokens.

How a token list is read does not depend on what its words are, but for which of them are atoms. So
every step of reading commutes with putting other words for words: the parentheses around the whole
(`stripOuter_rename`), the place of the split (`findSplit_rename`), and the formula or the reason
why there is none (`parse_rename`). If the words also have the same capitals, the tokens name the
same variables (`variables_rename`) and the formula has the same values (`value_rename`). -/
namespace LogicTrainer

/-- A renaming leaves atoms atoms and other words other words, and bits as they are written. -/
structure Renames (ψ : Text → Text) : Prop where
  isAtom_eq : ∀ t, Atom.isAtom (ψ t) = Atom.isAtom t
  bit_eq : ∀ b, ψ (Atom.bit b) = Atom.bit b

namespace Token

/-- A token with another text for a word. -/
def rename (ψ : Text → Text) : Token → Token
  | .word t => .word (ψ t)
  | t => t

/-- A split with other texts for words. -/
def Split.rename (ψ : Text → Text) (s : Split) : Split :=
  ⟨s.left.map (Token.rename ψ), s.op, s.right.map (Token.rename ψ)⟩

section
variable (ψ : Text → Text)

theorem rename_eq_iff {t u : Token} (h : ∀ w, u ≠ .word w) : t.rename ψ = u ↔ t = u := by
  cases t with
  | word w => exact ⟨fun hu => absurd hu.symm (h _), fun hu => absurd hu.symm (h _)⟩
  | neg | conn | lparen | rparen | bit => exact Iff.rfl

theorem balancedFrom_rename (depth : Nat) (ts : List Token) :
    balancedFrom depth (ts.map (rename ψ)) = balancedFrom depth ts := by
  induction ts generalizing depth with
  | nil => rfl
  | cons t rest ih =>
    rw [List.map_cons]
    match t, depth with
    | .lparen, depth => exact (balancedFrom_lparen _ _).trans ((ih _).trans (balancedFrom_lparen _ _).symm)
    | .rparen, 0 => rfl
    | .rparen, depth + 1 => exact ih depth
    | .neg, depth | .conn _, depth | .bit _, depth | .word _, depth =>
      rw [balancedFrom_of_not_paren rfl, balancedFrom_of_not_paren rfl, ih]

theorem isBalanced_rename (ts : List Token) : isBalanced (ts.map (rename ψ)) = isBalanced ts :=
  balancedFrom_rename ψ 0 ts

/-- The same parentheses are dropped. -/
theorem stripOuter_rename (ts : List Token) :
    stripOuter (ts.map (rename ψ)) = (stripOuter ts).map (rename ψ) := by
  fun_induction stripOuter ts with
  | case1 rest h ih =>
    obtain ⟨hlast, hb⟩ := h
    obtain ⟨a, rfl⟩ := List.getLast?_eq_some_iff.1 hlast
    rw [List.dropLast_concat] at hb ih ⊢
    rw [← ih]
    rw [List.map_cons, List.map_append]
    exact stripOuter_group ((isBalanced_rename ψ a).trans hb)
  | case2 rest h =>
    have hlast : (rest.map (rename ψ)).getLast? = some .rparen ↔ rest.getLast? = some .rparen := by
      rw [List.getLast?_map, Option.map_eq_some_iff]
      simp [rename_eq_iff]
    have hrest : ¬ ((rest.map (rename ψ)).getLast? = some .rparen ∧
        isBalanced (rest.map (rename ψ)).dropLast = true) := by
      rwa [hlast, ← List.map_dropLast, isBalanced_rename]
    show stripOuter (.lparen :: rest.map (rename ψ)) = .lparen :: rest.map (rename ψ)
    rw [stripOuter, if_neg hrest]
  | case3 ts h =>
    -- the list does not start with a parenthesis, and then its image does not either
    refine stripOuter.eq_2 _ fun us hus => ?_
    cases ts with
    | nil => cases hus
    | cons t rest =>
      obtain ⟨ht, -⟩ := List.cons.inj hus
      obtain rfl := (rename_eq_iff ψ (by simp)).1 ht
      exact h rest rfl

theorem looser_map_rename (op : Connective) (best : Option Split) :
    looser op (best.map (Split.rename ψ)) = looser op best := by
  cases best <;> rfl

theorem map_after_rename (t : Token) (best : Option Split) :
    (best.map (Split.rename ψ)).map (·.after (t.rename ψ)) =
      (best.map (·.after t)).map (Split.rename ψ) := by
  rw [Option.map_map, Option.map_map]
  rfl

theorem scan_rename (ts : List Token) : scan (ts.map (rename ψ)) =
    ((scan ts).1, (scan ts).2.map (Split.rename ψ)) := by
  induction ts with
  | nil => rfl
  | cons t rest ih =>
    have hafter := map_after_rename ψ t (scan rest).2
    rw [List.map_cons]
    cases t with
    | conn op =>
      show scan (.conn op :: rest.map (rename ψ)) = _
      rw [scan_conn, scan_conn, ih, looser_map_rename]
      split
      · rfl
      · exact congrArg (Prod.mk _) hafter
    | neg | lparen | rparen | bit | word =>
      simp only [scan, rename, ih]
      exact congrArg (Prod.mk _) hafter

/-- A list is split at the same place. -/
theorem findSplit_rename (ts : List Token) :
    findSplit (ts.map (rename ψ)) = (findSplit ts).map (Split.rename ψ) :=
  congrArg Prod.snd (scan_rename ψ ts)

end

/-- Words with the same capitals name the same variables. -/
theorem variables_rename {ψ : Text → Text} (h : ∀ t, (ψ t).upper = t.upper) (ts : List Token) :
    Token.variables (ts.map (rename ψ)) = Token.variables ts := by
  have hname : ∀ t : Token, Atom.asVariable? (t.rename ψ).text = Atom.asVariable? t.text := by
    intro t
    cases t with
    | word w =>
      show Atom.asVariable? (ψ w) = Atom.asVariable? w
      rw [Atom.asVariable?, Atom.asVariable?, h]
    | neg | conn | lparen | rparen | bit => rfl
  simp only [Token.variables, List.any_map, Function.comp_def, hname]

section
variable {ψ : Text → Text} (h : Renames ψ) (t : Token)
include h

theorem isAtom_rename : (t.rename ψ).isAtom = t.isAtom := by
  cases t with
  | word w => exact h.isAtom_eq w
  | neg | conn | lparen | rparen | bit => rfl

theorem text_rename (ht : t.isAtom = true) : (t.rename ψ).text = ψ t.text := by
  cases t with
  | bit b => exact (h.bit_eq b).symm
  | word w => rfl
  | neg | conn | lparen | rparen => cases ht

end
end Token

namespace Formula
open Token

/-- A formula with other names at its leaves. -/
def rename (ψ : Text → Text) : Formula → Formula
  | .atom name => .atom (ψ name)
  | .neg operand => .neg (operand.rename ψ)
  | .binary op left right => .binary op (left.rename ψ) (right.rename ψ)

section
variable {ψ : Text → Text}

theorem parseBalanced_rename (h : Renames ψ) (room : Nat) (ts : List Token) :
    parseBalanced room (ts.map (Token.rename ψ)) = (parseBalanced room ts).map (rename ψ) := by
  induction room generalizing ts with
  | zero => rfl
  | succ room ih =>
    -- both sides take the same branch: the branch goes by the stripped list and its split
    have hstrip := stripOuter_rename ψ ts
    match hts : stripOuter ts with
    | [] =>
      rw [hts] at hstrip
      simp only [parseBalanced, parseLevel, hts, hstrip]
      rfl
    | [t] =>
      rw [hts] at hstrip
      simp only [parseBalanced, parseLevel, hts, hstrip, List.map_cons, List.map_nil, isAtom_rename h]
      split
      · next ht => exact congrArg (fun name => Except.ok (atom name)) (text_rename h t ht)
      · rfl
    | t :: u :: rest =>
      rw [hts] at hstrip
      have hsplit := findSplit_rename ψ (t :: u :: rest)
      cases hs : findSplit (t :: u :: rest) with
      | some s =>
        rw [hs] at hsplit
        rw [parseBalanced_of_split hts hs, parseBalanced_of_split hstrip hsplit]
        simp only [Split.rename, ih]
        cases parseBalanced room s.left with
        | error e => rfl
        | ok left => cases parseBalanced room s.right <;> rfl
      | none =>
        rw [hs] at hsplit
        by_cases ht : t = .neg
        · subst ht
          rw [parseBalanced_of_neg hts hs, parseBalanced_of_neg hstrip hsplit]
          have hrest : parseBalanced room ((u :: rest).map (Token.rename ψ)) = _ := ih (u :: rest)
          rw [List.map_cons] at hrest
          rw [hrest]
          cases parseBalanced room (u :: rest) <;> rfl
        · have ht' : t.rename ψ ≠ .neg := fun hneg => ht ((rename_eq_iff ψ (by simp)).1 hneg)
          rw [parseBalanced_of_malformed hts hs ht, parseBalanced_of_malformed hstrip hsplit ht']
          rfl

/-- With other words, the formula has other names, or there is none for the same reason. -/
theorem parse_rename (h : Renames ψ) (maxDepth : Int) (ts : List Token) :
    parse maxDepth (ts.map (Token.rename ψ)) = (parse maxDepth ts).map (rename ψ) := by
  rw [parse, parse, isBalanced_rename, parseBalanced_rename h]
  split <;> rfl

theorem leaves_rename (f : Formula) : (f.rename ψ).leaves = f.leaves.map ψ := by
  induction f with
  | atom name => rfl
  | neg f ih => exact ih
  | binary op f g ihf ihg => rw [rename, leaves, leaves, List.map_append, ihf, ihg]

theorem IsProper.rename (h : Renames ψ) {f : Formula} (hf : f.IsProper) : (f.rename ψ).IsProper := by
  intro name hn
  rw [leaves_rename] at hn
  obtain ⟨old, hold, rfl⟩ := List.mem_map.1 hn
  rw [h.isAtom_eq]
  exact hf old hold

/-- Names with the same capitals have the same values. -/
theorem value_rename (h : Renames ψ) (hupper : ∀ t, (ψ t).upper = t.upper) {f : Formula}
    (hf : f.IsProper) (values : Text → Bool) : (f.rename ψ).value values = f.value values := by
  induction f with
  | atom name =>
    show atomValue values (ψ name) = atomValue values name
    have hmark : (atom (ψ name)).isErrorMark = false :=
      IsProper.not_isErrorMark (f := atom (ψ name)) (hf.rename h)
    rw [atomValue, atomValue, hmark, hf.not_isErrorMark, Atom.literal?, Atom.literal?, hupper]
  | neg f ih =>
    show (!(f.rename ψ).value values) = !f.value values
    rw [ih hf.operand]
  | binary op f g ihf ihg =>
    show op.apply ((f.rename ψ).value values) ((g.rename ψ).value values) = _
    rw [ihf hf.left, ihg hf.right]
    rfl

end

end Formula
end LogicTrainer
