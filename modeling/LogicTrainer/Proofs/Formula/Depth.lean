import LogicTrainer.Proofs.Formula.Reading

/-! The depth that is allowed.

A list is answered at once, or it is read in two parts or behind a negation, with room for one
operator less (`parseBalanced_cases`). Only a list that is met without any room is too deep. So
more room changes no other answer (`parseBalanced_mono`): whatever stopped the reading stops it
again before anything that was not looked at. And each operator that is passed is one that the
parts do not have, so a list is never too deep for as many as it holds
(`parseBalanced_ne_tooDeep`).

The main statement is `allowing_more_only_reads_more`. -/
namespace LogicTrainer.Formula
open Token

/-! ### What a list asks for -/

/-- A list has an answer whatever the room, or is read in two parts, or behind a negation. -/
theorem parseBalanced_cases (ts : List Token) :
    (∃ answer, answer ≠ .error .tooDeep ∧ ∀ room, parseBalanced (room + 1) ts = answer) ∨
      (∃ s, findSplit (stripOuter ts) = some s ∧ ∀ room,
        parseBalanced (room + 1) ts = parseBalanced room s.left >>= fun left =>
          parseBalanced room s.right >>= fun right => pure (.binary s.op left right)) ∨
      ∃ rest, stripOuter ts = .neg :: rest ∧ ∀ room,
        parseBalanced (room + 1) ts = parseBalanced room rest >>= fun f => pure (.neg f) := by
  cases hts : stripOuter ts with
  | nil =>
    refine .inl ⟨.error .emptyOperand, by simp, fun room => ?_⟩
    rw [parseBalanced, parseLevel, hts]
  | cons t rest =>
    cases rest with
    | nil =>
      refine .inl ⟨if t.isAtom then .ok (.atom t.text) else .error .unrecognizedToken, ?_,
        fun room => by rw [parseBalanced, parseLevel, hts]⟩
      split <;> simp
    | cons u rest =>
      cases hs : findSplit (t :: u :: rest) with
      | some s => exact .inr (.inl ⟨s, rfl, fun room => parseBalanced_of_split hts hs⟩)
      | none =>
        by_cases ht : t = .neg
        · subst ht
          exact .inr (.inr ⟨u :: rest, rfl, fun room => parseBalanced_of_neg hts hs⟩)
        · exact .inl ⟨.error .malformed, by simp, fun room => parseBalanced_of_malformed hts hs ht⟩

/-! ### More room -/

section
variable {α β : Type} {e : ParseFailure} {x y : Except ParseFailure α}
  {g k : α → Except ParseFailure β}

/-- A computation in two steps does not fail in a way in which neither step does. -/
theorem bind_ne_error (hx : x ≠ .error e) (hg : ∀ a, g a ≠ .error e) : x >>= g ≠ .error e := by
  cases x with
  | error e' => exact fun h => hx (by cases h; rfl)
  | ok a => exact hg a

/-- Steps that can be told apart only by one failure make up computations that can be told apart
only by this failure. -/
theorem bind_eq_of_ne_error (hne : x >>= g ≠ .error e) (hx : x ≠ .error e → y = x)
    (hg : ∀ a, g a ≠ .error e → k a = g a) : y >>= k = x >>= g := by
  cases x with
  | error e' =>
    have hfirst : y = .error e' := hx fun h => hne (by cases h; rfl)
    rw [hfirst]
    rfl
  | ok a =>
    have hfirst : y = .ok a := hx (by simp)
    rw [hfirst]
    exact hg a hne

end

/-- More room changes no answer but that there is too little. -/
theorem parseBalanced_mono {room more : Nat} (h : room ≤ more) {ts : List Token}
    (hne : parseBalanced room ts ≠ .error .tooDeep) :
    parseBalanced more ts = parseBalanced room ts := by
  induction room generalizing ts more with
  | zero => exact absurd rfl hne
  | succ room ih =>
    obtain ⟨more, rfl⟩ := Nat.exists_eq_add_of_lt (Nat.lt_of_lt_of_le (Nat.succ_pos room) h)
    rw [Nat.zero_add] at h ⊢
    have hle := Nat.le_of_succ_le_succ h
    rcases parseBalanced_cases ts with ⟨answer, -, hread⟩ | ⟨s, -, hread⟩ | ⟨rest, -, hread⟩
    · rw [hread, hread]
    · rw [hread] at hne
      rw [hread, hread]
      exact bind_eq_of_ne_error hne (ih hle) fun left hleft =>
        bind_eq_of_ne_error hleft (ih hle) fun _ _ => rfl
    · rw [hread] at hne
      rw [hread, hread]
      exact bind_eq_of_ne_error hne (ih hle) fun _ _ => rfl

/-! ### Enough room -/

/-- Parentheses around the whole hold no operator. -/
theorem connectives_stripOuter (ts : List Token) :
    Token.connectives (stripOuter ts) = Token.connectives ts := by
  induction ts using stripOuter_induction with
  | group a hb ih =>
    rw [stripOuter_group hb, ih, connectives_append, Token.connectives, Token.connectives,
      List.countP_cons_of_neg (by decide)]
    rfl
  | bare ts hs => rw [hs]

/-- A list is never too deep for as many operators as it holds. -/
theorem parseBalanced_ne_tooDeep {room : Nat} {ts : List Token} (hb : isBalanced ts = true)
    (h : Token.connectives ts < room) : parseBalanced room ts ≠ .error .tooDeep := by
  induction room generalizing ts with
  | zero => exact absurd h (Nat.not_lt_zero _)
  | succ room ih =>
    have hb := isBalanced_stripOuter hb
    rw [← connectives_stripOuter] at h
    rcases parseBalanced_cases ts with ⟨answer, hne, hread⟩ | ⟨s, hs, hread⟩ | ⟨rest, hts, hread⟩
    · rwa [hread]
    · have hsplit := (findSplit_eq_some_iff hb).1 hs
      have hcount : Token.connectives (.conn s.op :: s.right) = Token.connectives s.right + 1 :=
        List.countP_cons_of_pos rfl
      rw [hsplit.whole, connectives_append, hcount] at h
      rw [hread]
      exact bind_ne_error (ih hsplit.left_balanced (by omega)) fun _ =>
        bind_ne_error (ih hsplit.right_balanced (by omega)) fun _ he => by cases he
    · rw [hts] at hb h
      have hrest : isBalanced rest = true := (balancedFrom_of_not_paren rfl 0 rest).symm.trans hb
      have hcount : Token.connectives (.neg :: rest) = Token.connectives rest + 1 :=
        List.countP_cons_of_pos rfl
      rw [hread]
      exact bind_ne_error (ih hrest (by omega)) fun _ he => by cases he

/-! ### Reading -/

section
variable {d : Int} {ts : List Token}

theorem parse_mono {more : Int} (h : d ≤ more) (hne : parse d ts ≠ .error .tooDeep) :
    parse more ts = parse d ts := by
  unfold parse at hne ⊢
  split
  · next hb =>
    rw [if_pos hb] at hne
    exact parseBalanced_mono (by omega) hne
  · rfl

theorem parse_ne_tooDeep (h : (Token.connectives ts : Int) ≤ d) : parse d ts ≠ .error .tooDeep := by
  unfold parse
  split
  · next hb => exact parseBalanced_ne_tooDeep hb (by omega)
  · simp

/-- With less room a formula is read if it is no deeper than that, and else is too deep. -/
theorem parse_of_parse {more : Int} (h : d ≤ more) {f : Formula} (hf : parse more ts = .ok f) :
    parse d ts = if (f.depth : Int) ≤ d then .ok f else .error .tooDeep := by
  have hs := (parse_eq_ok_iff.1 hf).1
  split
  · next hd => exact parse_eq_ok_iff.2 ⟨hs, hd⟩
  · next hd =>
    refine Decidable.of_not_not fun hne => hd ?_
    rw [parse_mono h hne] at hf
    exact (parse_eq_ok_iff.1 hf).2

/-- What spells a formula is read if the formula is no deeper than allowed, and else is too deep. -/
theorem parse_of_spells {f : Formula} (h : Spells ts f) :
    parse d ts = if (f.depth : Int) ≤ d then .ok f else .error .tooDeep :=
  parse_of_parse (Int.le_max_left d f.depth) (parse_eq_ok_iff.2 ⟨h, Int.le_max_right d f.depth⟩)

end

/-- Where reading does not find a list too deep, it answers the same when more is allowed. What is
read with more is read with less as far as it is no deeper, and a list is never too deep where as
many operators are allowed as it holds. -/
theorem allowing_more_only_reads_more (ts : List Token) {d more : Int} (h : d ≤ more) :
    (parse d ts ≠ .error .tooDeep → parse more ts = parse d ts) ∧
    (∀ f, parse more ts = .ok f →
      parse d ts = if (f.depth : Int) ≤ d then .ok f else .error .tooDeep) ∧
    ((Token.connectives ts : Int) ≤ d → parse d ts ≠ .error .tooDeep) ∧
    ((ts.length : Int) ≤ d → parse d ts ≠ .error .tooDeep) := by
  refine ⟨parse_mono h, fun f => parse_of_parse h, parse_ne_tooDeep, fun hlen => ?_⟩
  have hcount : Token.connectives ts ≤ ts.length := List.countP_le_length
  exact parse_ne_tooDeep (by omega)

/-- Two negations are too deep for one operator and not for two; a list that ends in a negation
is malformed for as many as it holds, although it is too deep for one. -/
theorem allowing_more_only_reads_more_negations :
    let ts : List Token := [.neg, .neg, .word ['P']]
    let us : List Token := [.neg, .neg, .word ['P'], .neg]
    parse 1 ts = .error .tooDeep ∧ parse 2 ts = .ok (neg (neg (atom ['P']))) ∧
      parse 9 ts = .ok (neg (neg (atom ['P']))) ∧ parse 1 us = .error .tooDeep ∧
      parse 3 us = .error .malformed ∧ parse 9 us = .error .malformed ∧
      parse 4 us ≠ .error .tooDeep := by
  intro ts us
  have hts : parse 2 ts = .ok (neg (neg (atom ['P']))) := by cbv
  have hus : parse 3 us = .error .malformed := by cbv
  obtain ⟨-, hless, -, -⟩ := allowing_more_only_reads_more ts (show (1 : Int) ≤ 2 by decide)
  obtain ⟨hmore, -, -, -⟩ := allowing_more_only_reads_more ts (show (2 : Int) ≤ 9 by decide)
  obtain ⟨hsame, -, henough, -⟩ := allowing_more_only_reads_more us (show (3 : Int) ≤ 9 by decide)
  obtain ⟨-, -, -, hlength⟩ := allowing_more_only_reads_more us (show (4 : Int) ≤ 9 by decide)
  refine ⟨hless _ hts, hts, ?_, by cbv, hus, ?_, hlength (by decide)⟩
  · rw [hmore (by rw [hts]; simp), hts]
  · rw [hsame (henough (by decide)), hus]

end LogicTrainer.Formula
