import LogicTrainer.Proofs.Except
import Mathlib
import LogicTrainer.Proofs.Formula.Splitting
import LogicTrainer.Formula.Grammar

/-! Reading is spelling.

The parser is not written along the grammar: it drops the parentheses around the whole,
splits at the loosest connective, and looks for a negation only where nothing splits. Still
it reads exactly what the grammar spells (`parseBalanced_eq_ok_iff`, `parse_eq_ok_iff`). The
two meet at the outer connectives: a derivation with a connective at its root is split where
the parser splits (`Derives.isLoosest`), and a spelling whose outer connectives all bind
tightly enough is derived at a tight level (`Spells.chain`).

The main statement is `parse_accepts_grammar`. -/
namespace LogicTrainer

namespace Token

/-! ### Token strings -/

/-- The token of a glyph is written as the glyph, and is no atom; nor is the glyph. -/
theorem of_ofGlyph? {c : Char} {t : Token} (h : ofGlyph? c = some t) :
    t.text = [c] ∧ t.isAtom = false ∧ Atom.isAtom [c] = false := by
  unfold ofGlyph? at h
  split at h
  · next hc =>
    cases h
    obtain rfl := eq_of_beq hc
    exact ⟨rfl, rfl, by decide +kernel⟩
  split at h
  · next hc =>
    cases h
    obtain rfl := eq_of_beq hc
    exact ⟨rfl, rfl, by decide⟩
  split at h
  · next hc =>
    cases h
    obtain rfl := eq_of_beq hc
    exact ⟨rfl, rfl, by decide⟩
  obtain ⟨op, hop, rfl⟩ := Option.map_eq_some_iff.1 h
  have hg : (op.glyph == c) = true := List.find?_some (p := fun op : Connective => op.glyph == c) hop
  obtain rfl := eq_of_beq hg
  refine ⟨rfl, rfl, ?_⟩
  cases op <;> decide +kernel

/-- A token is written as the text that it was made of. -/
theorem text_ofText (x : Text) : (ofText x).text = x := by
  unfold ofText
  split
  · rfl
  · rfl
  · next c _ _ =>
    cases h : ofGlyph? c with
    | none => rfl
    | some t => exact (of_ofGlyph? h).1
  · rfl

/-- A token may stand at a leaf exactly if its text may. -/
theorem isAtom_ofText (x : Text) : (ofText x).isAtom = Atom.isAtom x := by
  unfold ofText
  split
  · decide
  · decide
  · next c _ _ =>
    cases h : ofGlyph? c with
    | none => rfl
    | some t =>
      obtain ⟨_, ht, hc⟩ := of_ofGlyph? h
      exact ht.trans hc.symm
  · rfl

theorem isAtom_text {t : Token} (h : t.isAtom = true) : Atom.isAtom t.text = true := by
  match t with
  | .bit true | .bit false => decide
  | .word w => exact h

/-! ### Parentheses around the whole -/

theorem length_stripOuter_le (ts : List Token) : (stripOuter ts).length ≤ ts.length := by
  fun_induction stripOuter ts with
  | case1 rest _ ih =>
    rw [List.length_dropLast] at ih
    rw [List.length_cons]
    omega
  | case2 | case3 => exact Nat.le_refl _

theorem stripOuter_group {a : List Token} (h : isBalanced a = true) :
    stripOuter (.lparen :: a ++ [.rparen]) = stripOuter a := by
  rw [List.cons_append, stripOuter]
  simp [h]

/-- A list is either a balanced one in parentheses, or is left as it is. -/
theorem group_or_stripped (ts : List Token) :
    (∃ a, isBalanced a = true ∧ ts = .lparen :: a ++ [.rparen]) ∨ stripOuter ts = ts := by
  unfold stripOuter
  split
  · next rest =>
    split
    · next h =>
      obtain ⟨hlast, hb⟩ := h
      obtain ⟨a, rfl⟩ := List.getLast?_eq_some_iff.1 hlast
      rw [List.dropLast_concat] at hb
      exact .inl ⟨a, hb, rfl⟩
    · exact .inr rfl
  · exact .inr rfl

/-- To show something of all lists, it is enough to show it of those that are left as they
are, and to carry it over a pair of parentheses around a balanced list. -/
theorem stripOuter_induction {motive : List Token → Prop}
    (group : ∀ a, isBalanced a = true → motive a → motive (.lparen :: a ++ [.rparen]))
    (bare : ∀ ts, stripOuter ts = ts → motive ts) (ts : List Token) : motive ts := by
  induction hn : ts.length using Nat.strongRecOn generalizing ts with
  | ind n ih =>
    rcases group_or_stripped ts with ⟨a, hb, rfl⟩ | h
    · exact group a hb (ih a.length (by
        rw [← hn]
        simp only [List.length_append, List.length_cons]
        omega) a rfl)
    · exact bare ts h

theorem isBalanced_stripOuter {ts : List Token} (h : isBalanced ts = true) :
    isBalanced (stripOuter ts) = true := by
  induction ts using stripOuter_induction with
  | group a hb ih =>
    rw [stripOuter_group hb]
    exact ih hb
  | bare ts hs => rwa [hs]

/-- What is left has no parentheses around the whole. -/
theorem stripOuter_ne_group (ts : List Token) {a : List Token} (h : isBalanced a = true) :
    stripOuter ts ≠ .lparen :: a ++ [.rparen] := by
  induction ts using stripOuter_induction with
  | group b hb ih => rwa [stripOuter_group hb]
  | bare ts hs =>
    rw [hs]
    rintro rfl
    have hlen := congrArg List.length hs
    rw [stripOuter_group h] at hlen
    have := length_stripOuter_le a
    simp at hlen
    omega

end Token

/-- The connectives that may stand outside all parentheses at a level have this rank at
least. -/
def Level.rank : Level → Nat
  | .chain op => op.rank
  | .negation => 5
  | .atom => 5

/-- The right operands of a connective bind tighter than it, by one. -/
theorem Connective.rank_tighter (op : Connective) : op.tighter.rank = op.rank + 1 := by
  cases op <;> rfl

namespace Formula
open Token

/-! ### Derivations and outer connectives -/

theorem Derives.outer_rank {level : Level} {ts : List Token} {f : Formula}
    (h : Derives level ts f) : ∀ op ∈ outer ts, level.rank ≤ op.rank := by
  induction h with
  | @join op left right f g hl hr ihl ihr =>
    intro op' hop
    rw [outer_append hl.isBalanced, List.mem_append] at hop
    rcases hop with hop | hop
    · exact ihl op' hop
    · have hop : op' ∈ op :: outer right := hop
      rcases List.mem_cons.1 hop with rfl | hop
      · exact Nat.le_refl _
      · have := ihr op' hop
        rw [Connective.rank_tighter] at this
        exact Nat.le_of_succ_le this
  | @tighter op ts f _ ih =>
    intro op' hop
    have := ih op' hop
    rw [Connective.rank_tighter] at this
    exact Nat.le_of_succ_le this
  | negate _ ih => exact ih
  | basic _ ih => exact ih
  | @leaf t ht =>
    cases t with
    | bit | word => exact fun _ hop => absurd hop List.not_mem_nil
    | neg | conn | lparen | rparen => exact absurd ht (by simp [Token.isAtom])
  | group h _ =>
    intro op hop
    rw [outer_group h.isBalanced] at hop
    exact absurd hop List.not_mem_nil

/-- A derivation with a connective at its root is split where the parser splits. -/
theorem Derives.isLoosest {op : Connective} {left right : List Token} {f g : Formula}
    (hl : Derives (.chain op) left f) (hr : Derives op.tighter right g) :
    IsLoosest 0 (left ++ .conn op :: right) ⟨left, op, right⟩ where
  whole := rfl
  left_balanced := hl.isBalanced
  right_balanced := hr.isBalanced
  left_tight := hl.outer_rank
  right_tighter op' hop := by
    have := hr.outer_rank op' hop
    rwa [Connective.rank_tighter] at this

/-- What is derived at any level spells a formula. -/
theorem Derives.spells {level : Level} {ts : List Token} {f : Formula} (h : Derives level ts f) :
    Spells ts f := by
  match level with
  | .chain .iff => exact h
  | .chain .implies => exact .tighter h
  | .chain .or => exact .tighter (.tighter h)
  | .chain .and => exact .tighter (.tighter (.tighter h))
  | .negation => exact .tighter (.tighter (.tighter (.tighter h)))
  | .atom => exact .tighter (.tighter (.tighter (.tighter (.basic h))))

/-- Without a connective outside all parentheses a derivation goes on at the next level. -/
theorem Derives.tighten {op : Connective} {ts : List Token} {f : Formula}
    (h : Derives (.chain op) ts f) (ho : op ∉ outer ts) : Derives op.tighter ts f := by
  cases h with
  | @join _ left right f g hl hr =>
    rw [outer_append hl.isBalanced] at ho
    exact absurd (List.mem_append_right _ List.mem_cons_self) ho
  | tighter h => exact h

/-- What spells a formula and has no outer connective looser than a given one is derived at
the level of that one. -/
theorem Spells.chain {ts : List Token} {f : Formula} (h : Spells ts f) (op : Connective)
    (ho : ∀ op' ∈ outer ts, op.rank ≤ op'.rank) : Derives (.chain op) ts f := by
  have hnot : ∀ op', op'.rank < op.rank → op' ∉ outer ts :=
    fun op' hlt hop => absurd (ho op' hop) (by omega)
  cases op with
  | iff => exact h
  | implies => exact Derives.tighten h (hnot .iff (by decide))
  | or =>
    exact Derives.tighten (Derives.tighten h (hnot .iff (by decide))) (hnot .implies (by decide))
  | and =>
    exact Derives.tighten (Derives.tighten (Derives.tighten h (hnot .iff (by decide)))
      (hnot .implies (by decide))) (hnot .or (by decide))

/-- What spells a formula and has only outer connectives tighter than a given one is derived
as a right operand of that one. -/
theorem Spells.tighter {ts : List Token} {f : Formula} (h : Spells ts f) (op : Connective)
    (ho : ∀ op' ∈ outer ts, op.rank < op'.rank) : Derives op.tighter ts f :=
  Derives.tighten (h.chain op fun op' hop => Nat.le_of_lt (ho op' hop))
    fun hop => Nat.lt_irrefl _ (ho op hop)

/-- Without any outer connective a spelling is a negation or basic. -/
theorem Spells.negation {ts : List Token} {f : Formula} (h : Spells ts f) (ho : outer ts = []) :
    Derives .negation ts f :=
  h.tighter .and fun op' hop => by rw [ho] at hop; exact absurd hop List.not_mem_nil

/-- A derivation has a connective at its root, or is a negation or basic. -/
theorem Derives.root {level : Level} {ts : List Token} {f : Formula} (h : Derives level ts f) :
    (∃ op left right g k, ts = left ++ .conn op :: right ∧ f = .binary op g k ∧
      Derives (.chain op) left g ∧ Derives op.tighter right k) ∨ Derives .negation ts f := by
  induction h with
  | @join op left right g k hl hr => exact .inl ⟨op, left, right, g, k, rfl, rfl, hl, hr⟩
  | tighter _ ih => exact ih
  | negate h => exact .inr (.negate h)
  | basic h => exact .inr (.basic h)
  | leaf ht => exact .inr (.basic (.leaf ht))
  | group h => exact .inr (.basic (.group h))

/-- Parentheses around the whole may be dropped from what spells a formula. -/
theorem Spells.of_group {a : List Token} {f : Formula} (hb : isBalanced a = true)
    (h : Spells (.lparen :: a ++ [.rparen]) f) : Spells a f := by
  have hn : Derives .negation (.lparen :: (a ++ [.rparen])) f := h.negation (outer_group hb)
  cases hn with
  | basic hn =>
    generalize hts : .lparen :: (a ++ [.rparen]) = ts at hn
    cases hn with
    | leaf => simp at hts
    | @group b _ hg =>
      have : a = b := by simpa using hts
      exact this ▸ hg

theorem spells_stripOuter_iff {ts : List Token} {f : Formula} :
    Spells (stripOuter ts) f ↔ Spells ts f := by
  induction ts using stripOuter_induction with
  | group a hb ih =>
    rw [stripOuter_group hb, ih]
    exact ⟨fun h => (Derives.group h).spells, Spells.of_group hb⟩
  | bare ts hs => rw [hs]

/-! ### The parser -/

section
variable {room : Nat} {ts rest : List Token} {t u : Token}

/-- Only what is left without the parentheses around the whole is read. -/
theorem parseBalanced_congr {us : List Token} (h : stripOuter ts = stripOuter us) :
    parseBalanced room ts = parseBalanced room us := by
  cases room with
  | zero => rfl
  | succ room => rw [parseBalanced, parseBalanced, parseLevel, parseLevel, h]

theorem parseBalanced_of_split (hts : stripOuter ts = t :: u :: rest) {s : Split}
    (hs : findSplit (t :: u :: rest) = some s) :
    parseBalanced (room + 1) ts = parseBalanced room s.left >>= fun left =>
      parseBalanced room s.right >>= fun right => pure (.binary s.op left right) := by
  rw [parseBalanced, parseLevel, hts]
  simp only [hs]

theorem parseBalanced_of_neg (hts : stripOuter ts = .neg :: u :: rest)
    (hs : findSplit (.neg :: u :: rest) = none) :
    parseBalanced (room + 1) ts = parseBalanced room (u :: rest) >>= fun f => pure (.neg f) := by
  rw [parseBalanced, parseLevel, hts]
  simp only [hs, if_true]

theorem parseBalanced_of_malformed (hts : stripOuter ts = t :: u :: rest)
    (hs : findSplit (t :: u :: rest) = none) (ht : t ≠ .neg) :
    parseBalanced (room + 1) ts = .error .malformed := by
  rw [parseBalanced, parseLevel, hts]
  simp only [hs, if_neg ht]

end

/-- What is read is spelled, and is no deeper than there is room. -/
theorem spells_of_parseBalanced {room : Nat} {ts : List Token} {f : Formula}
    (hb : isBalanced ts = true) (h : parseBalanced room ts = .ok f) :
    Spells ts f ∧ f.depth < room := by
  induction room generalizing ts f with
  | zero => cases h
  | succ room ih =>
    have hb := isBalanced_stripOuter hb
    rw [← spells_stripOuter_iff]
    rw [parseBalanced, parseLevel] at h
    split at h
    · cases h
    · next t ht =>
      split at h
      · next ha =>
        cases h
        rw [ht]
        exact ⟨(Derives.leaf ha).spells, Nat.succ_pos _⟩
      · cases h
    · next t rest _ ht =>
      rw [ht] at hb ⊢
      split at h
      · next s hs =>
        obtain ⟨g, hg, h⟩ := bind_eq_ok.1 h
        obtain ⟨k, hk, h⟩ := bind_eq_ok.1 h
        cases h
        have hl := (findSplit_eq_some_iff hb).1 hs
        obtain ⟨hsg, hdg⟩ := ih hl.left_balanced hg
        obtain ⟨hsk, hdk⟩ := ih hl.right_balanced hk
        refine ⟨?_, by simp only [depth]; omega⟩
        rw [hl.whole]
        exact (Derives.join (hsg.chain s.op hl.left_tight) (hsk.tighter s.op hl.right_tighter)).spells
      · next hs =>
        have ho := (findSplit_eq_none_iff hb).1 hs
        split at h
        · next hneg =>
          subst hneg
          obtain ⟨g, hg, h⟩ := bind_eq_ok.1 h
          cases h
          have hrest : isBalanced rest = true := (balancedFrom_of_not_paren rfl 0 rest).symm.trans hb
          obtain ⟨hsg, hdg⟩ := ih hrest hg
          exact ⟨(Derives.negate (hsg.negation ho)).spells, Nat.succ_lt_succ hdg⟩
        · cases h

/-- What is spelled is read, if there is room for it. -/
theorem parseBalanced_of_spells {room : Nat} {ts : List Token} {f : Formula} (h : Spells ts f)
    (hd : f.depth < room) : parseBalanced room ts = .ok f := by
  induction room generalizing ts f with
  | zero => exact absurd hd (Nat.not_lt_zero _)
  | succ room ih =>
    have hu := spells_stripOuter_iff.2 h
    have hb := hu.isBalanced
    rw [parseBalanced, parseLevel]
    rcases hu.root with ⟨op, left, right, g, k, hts, rfl, hl, hr⟩ | hn
    · have hsplit := (findSplit_eq_some_iff hb).2 (hts ▸ hl.isLoosest hr)
      simp only [depth] at hd
      have hg := ih hl.spells (by omega)
      have hk := ih hr.spells (by omega)
      obtain ⟨t, left, rfl⟩ := List.exists_cons_of_ne_nil hl.ne_nil
      split
      · next hnil => simp [hnil] at hts
      · next t' hone => simp [hone] at hts
      · next t' rest _ hts' =>
        rw [← hts', hsplit]
        exact bind_eq_ok.2 ⟨g, hg, bind_eq_ok.2 ⟨k, hk, rfl⟩⟩
    · have hnone : findSplit (stripOuter ts) = none :=
        (findSplit_eq_none_iff hb).2 (List.eq_nil_iff_forall_not_mem.2 fun op hop => by
          have := hn.outer_rank op hop
          cases op <;> exact absurd this (by decide))
      generalize hts : stripOuter ts = u at hn hnone
      cases hn with
      | @negate rest g hg =>
        obtain ⟨t, rest, rfl⟩ := List.exists_cons_of_ne_nil hg.ne_nil
        have hread := ih hg.spells (Nat.lt_of_succ_lt_succ hd)
        simp only [hnone, if_true]
        exact bind_eq_ok.2 ⟨g, hread, rfl⟩
      | basic ha =>
        cases ha with
        | leaf ht => simp only [ht, if_true]
        | group hg => exact absurd hts (stripOuter_ne_group ts hg.isBalanced)

/-- The parser reads what the grammar spells, up to the depth that is allowed. -/
theorem parse_eq_ok_iff {maxDepth : Int} {ts : List Token} {f : Formula} :
    parse maxDepth ts = .ok f ↔ Spells ts f ∧ (f.depth : Int) ≤ maxDepth := by
  unfold parse
  constructor
  · intro h
    split at h
    · next hb =>
      obtain ⟨hs, hd⟩ := spells_of_parseBalanced hb h
      exact ⟨hs, by omega⟩
    · cases h
  · rintro ⟨hs, hd⟩
    rw [if_pos hs.isBalanced]
    exact parseBalanced_of_spells hs (by omega)

/-- A token list spells one formula at most. -/
theorem Spells.unique {ts : List Token} {f g : Formula} (hf : Spells ts f) (hg : Spells ts g) :
    f = g := by
  have hf := parse_eq_ok_iff.2 ⟨hf, Int.ofNat_le.2 (Nat.le_max_left f.depth g.depth)⟩
  have hg := parse_eq_ok_iff.2 ⟨hg, Int.ofNat_le.2 (Nat.le_max_right f.depth g.depth)⟩
  exact Except.ok.inj (hf.symm.trans hg)

/-- The names at the leaves are the texts of atoms in the list. -/
theorem Derives.mem_leaves {level : Level} {ts : List Token} {f : Formula}
    (h : Derives level ts f) {name : Text} (hn : name ∈ f.leaves) :
    ∃ t ∈ ts, t.isAtom = true ∧ t.text = name := by
  induction h with
  | join _ _ ihl ihr =>
    rcases List.mem_append.1 hn with hn | hn
    · obtain ⟨t, ht, h⟩ := ihl hn
      exact ⟨t, List.mem_append_left _ ht, h⟩
    · obtain ⟨t, ht, h⟩ := ihr hn
      exact ⟨t, List.mem_append_right _ (List.mem_cons_of_mem _ ht), h⟩
  | tighter _ ih | basic _ ih => exact ih hn
  | negate _ ih =>
    obtain ⟨t, ht, h⟩ := ih hn
    exact ⟨t, List.mem_cons_of_mem _ ht, h⟩
  | @leaf t ht => exact ⟨t, List.mem_cons_self, ht, (List.mem_singleton.1 hn).symm⟩
  | group _ ih =>
    obtain ⟨t, ht, h⟩ := ih hn
    exact ⟨t, List.mem_append_left _ (List.mem_cons_of_mem _ ht), h⟩

/-- A formula of which every leaf is an atom. -/
def IsProper (f : Formula) : Prop := ∀ name ∈ f.leaves, Atom.isAtom name = true

theorem Derives.isProper {level : Level} {ts : List Token} {f : Formula}
    (h : Derives level ts f) : f.IsProper := by
  intro name hn
  obtain ⟨t, _, ht, rfl⟩ := h.mem_leaves hn
  exact isAtom_text ht

/-- The mark of an error is no proper formula. -/
theorem IsProper.not_isErrorMark {f : Formula} (h : f.IsProper) : f.isErrorMark = false := by
  cases he : f.isErrorMark with
  | false => rfl
  | true =>
    have he : f = errorMark := eq_of_beq he
    exact absurd (h ['E', 'R', 'R'] (by rw [he]; exact List.mem_singleton.2 rfl)) (by decide)

/-- A list is read as a formula if and only if it spells that formula and the formula is no deeper
than allowed. So there is one formula at most, its leaves are atoms of the list, and the mark of an
error is returned exactly if there is none. -/
theorem parse_accepts_grammar (texts : List Text) (maxDepth : Int) :
    (∀ f, parse maxDepth (texts.map Token.ofText) = .ok f ↔
      Spells (texts.map Token.ofText) f ∧ (f.depth : Int) ≤ maxDepth) ∧
    (∀ f g, Spells (texts.map Token.ofText) f → Spells (texts.map Token.ofText) g → f = g) ∧
    (∀ f, parse maxDepth (texts.map Token.ofText) = .ok f →
      ∀ name ∈ f.leaves, name ∈ texts ∧ Atom.isAtom name = true) ∧
    ((orErrorMark (parse maxDepth (texts.map Token.ofText))).isErrorMark = true ↔
      ¬ ∃ f, parse maxDepth (texts.map Token.ofText) = .ok f) := by
  refine ⟨fun f => parse_eq_ok_iff, fun f g => Spells.unique, fun f h name hn => ?_, ?_⟩
  · obtain ⟨t, ht, ha, rfl⟩ := (parse_eq_ok_iff.1 h).1.mem_leaves hn
    obtain ⟨x, hx, rfl⟩ := List.mem_map.1 ht
    exact ⟨(Token.text_ofText x).symm ▸ hx, isAtom_text ha⟩
  · cases h : parse maxDepth (texts.map Token.ofText) with
    | error e => exact ⟨fun _ hf => (by obtain ⟨_, hf⟩ := hf; cases hf), fun _ => rfl⟩
    | ok f =>
      have hf : f.isErrorMark = false := (parse_eq_ok_iff.1 h).1.isProper.not_isErrorMark
      exact ⟨fun he => absurd (hf.symm.trans he) (by decide), fun hn => absurd ⟨f, rfl⟩ hn⟩

/-- Two implications group to the left: this is read, spelled, and has `q` at a leaf. -/
theorem parse_accepts_grammar_chain :
    let texts : List Text := [['P'], ['⇒'], ['¬'], ['q'], ['⇒'], ['0']]
    let f := binary .implies (binary .implies (atom ['P']) (neg (atom ['q']))) (atom ['0'])
    parse 3 (texts.map Token.ofText) = .ok f ∧ Spells (texts.map Token.ofText) f ∧
      Atom.isAtom ['q'] = true := by
  intro texts f
  have h : parse 3 (texts.map Token.ofText) = .ok f := by cbv
  obtain ⟨hread, hunique, hleaves, _⟩ := parse_accepts_grammar texts 3
  have hs : Spells (texts.map Token.ofText) f := ((hread f).1 h).1
  exact ⟨h, hunique f f hs hs ▸ hs, (hleaves f h ['q'] (by decide)).2⟩

end Formula
end LogicTrainer
