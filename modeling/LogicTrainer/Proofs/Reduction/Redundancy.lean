import LogicTrainer.Proofs.Reduction.Contraction

/-! Parentheses around a bit mean nothing.

A list is read as the same formula, or is no formula for the same reason, whether or not the
parentheses around its bits are collapsed. One pair is enough to look at, wherever it stands. It
moves all that is behind it, but changes nothing that the parser looks at: balance, the connectives
outside of parentheses, and so the place where a list is split (`Collapses.exists_isLoosest`); what
is left without the parentheses around the whole, up to the pair itself (`Collapses.stripOuter`);
and whether a list without a split starts with a negation. The parts of the list then differ in
that pair at most, and by induction on the room they are read alike
(`parseBalanced_eq_of_collapses`).

The main statement is `collapsing_keeps_reading`. -/
namespace LogicTrainer.Reduction
open Token Formula

namespace Collapses
variable {ts us : List Token}

/-! ### Balance and outer connectives -/

theorem balancedFrom_eq (h : Collapses ts us) (depth : Nat) :
    balancedFrom depth ts = balancedFrom depth us := by
  obtain ⟨before, after, b⟩ := h
  induction before generalizing depth with
  | nil =>
    rw [List.nil_append, balancedFrom_lparen]
    cases depth <;> rfl
  | cons t before ih =>
    rw [List.cons_append, List.cons_append]
    match t, depth with
    | .lparen, _ => rw [balancedFrom_lparen, balancedFrom_lparen, ih]
    | .rparen, 0 => rfl
    | .rparen, _ + 1 => exact ih _
    | .neg, d | .conn _, d | .bit _, d | .word _, d =>
      rw [balancedFrom_of_not_paren rfl, balancedFrom_of_not_paren rfl, ih]

theorem outerFrom_eq (h : Collapses ts us) (depth : Nat) :
    outerFrom depth ts = outerFrom depth us := by
  obtain ⟨before, after, b⟩ := h
  induction before generalizing depth with
  | nil =>
    rw [List.nil_append, outerFrom_lparen]
    cases depth <;> rfl
  | cons t before ih =>
    rw [List.cons_append, List.cons_append]
    match t with
    | .lparen => rw [outerFrom_lparen, outerFrom_lparen, ih]
    | .rparen => rw [outerFrom_rparen, outerFrom_rparen, ih]
    | .conn op => rw [outerFrom_conn, outerFrom_conn, ih]
    | .neg | .bit _ | .word _ =>
      rw [outerFrom_of_plain rfl (by simp), outerFrom_of_plain rfl (by simp), ih]

theorem isBalanced_eq (h : Collapses ts us) : isBalanced ts = isBalanced us := h.balancedFrom_eq 0

theorem outer_eq (h : Collapses ts us) : outer ts = outer us := h.outerFrom_eq 0

/-! ### The split -/

/-- Around a connective the parentheses are lost on one side. -/
theorem side {left right : List Token} {op : Connective}
    (h : Collapses (left ++ .conn op :: right) us) :
    (∃ left', Collapses left left' ∧ us = left' ++ .conn op :: right) ∨
      ∃ right', Collapses right right' ∧ us = left ++ .conn op :: right' := by
  generalize hts : left ++ .conn op :: right = ts at h
  obtain ⟨before, after, b⟩ := h
  have hts : left ++ .conn op :: right = before ++ ([.lparen, .bit b, .rparen] ++ after) := hts
  rcases side_of_not_mem (by simp) hts with ⟨a, rfl, rfl⟩ | ⟨a, rfl, rfl⟩
  · exact .inl ⟨_, .here before a b, by simp⟩
  · exact .inr ⟨_, .here a after b, by simp⟩

/-- The split stays at its connective. -/
theorem exists_isLoosest (h : Collapses ts us) {s : Split} (hs : IsLoosest 0 ts s) :
    ∃ s', IsLoosest 0 us s' ∧ s'.op = s.op ∧ Relation.ReflGen Collapses s.left s'.left ∧
      Relation.ReflGen Collapses s.right s'.right := by
  obtain ⟨left, op, right⟩ := s
  obtain ⟨rfl, hl, hr, htight, htighter⟩ := hs
  rcases h.side with ⟨left', hleft, rfl⟩ | ⟨right', hright, rfl⟩
  · refine ⟨⟨left', op, right⟩, ⟨rfl, ?_, hr, ?_, htighter⟩, rfl, .single hleft, .refl⟩
    · exact (hleft.balancedFrom_eq 0).symm.trans hl
    · intro d hd
      exact htight d ((hleft.outerFrom_eq 0).symm ▸ hd :)
  · refine ⟨⟨left, op, right'⟩, ⟨rfl, hl, ?_, htight, ?_⟩, rfl, .refl, .single hright⟩
    · exact hright.isBalanced_eq.symm.trans hr
    · intro d hd
      exact htighter d (hright.outer_eq.symm ▸ hd)

/-! ### Parentheses around the whole -/

/-- What ends with a bit behind an open parenthesis is not balanced. -/
theorem not_balancedFrom_of_open (before : List Token) (b : Bool) (depth : Nat) :
    balancedFrom depth (before ++ [.lparen, .bit b]) = false := by
  induction before generalizing depth with
  | nil =>
    rw [List.nil_append, balancedFrom_lparen]
    rfl
  | cons t before ih =>
    rw [List.cons_append]
    match t, depth with
    | .lparen, _ => rw [balancedFrom_lparen, ih]
    | .rparen, 0 => rfl
    | .rparen, _ + 1 => exact ih _
    | .neg, d | .conn _, d | .bit _, d | .word _, d => rw [balancedFrom_of_not_paren rfl, ih]

/-- In a balanced list in parentheses, these are lost or others between them. -/
theorem of_group {a : List Token} (hb : isBalanced a = true)
    (h : Collapses (.lparen :: a ++ [.rparen]) us) :
    us = a ∨ ∃ a', Collapses a a' ∧ us = .lparen :: a' ++ [.rparen] := by
  generalize hts : .lparen :: a ++ [.rparen] = ts at h
  obtain ⟨before, after, b⟩ := h
  cases before with
  | nil =>
    have hts : a ++ [.rparen] = .bit b :: .rparen :: after := (List.cons.inj hts).2
    match a with
    | [] => cases hts
    | [_] =>
      cases hts
      exact .inl rfl
    | _ :: _ :: a =>
      cases hts
      cases hb
  | cons t before =>
    obtain ⟨rfl, hts⟩ := List.cons.inj hts
    rcases List.eq_nil_or_concat after with rfl | ⟨after, t, rfl⟩
    · -- the last parenthesis would have its partner inside, and the first none
      have hts : a ++ [.rparen] = (before ++ [.lparen, .bit b]) ++ [.rparen] := by
        simpa using hts
      obtain ⟨rfl, -⟩ := List.append_inj' hts rfl
      rw [isBalanced, not_balancedFrom_of_open] at hb
      cases hb
    · have hts : a ++ [.rparen] = (before ++ .lparen :: .bit b :: .rparen :: after) ++ [t] := by
        simpa using hts
      obtain ⟨rfl, ht⟩ := List.append_inj' hts rfl
      cases ht
      exact .inr ⟨_, .here before after b, by simp⟩

/-- A balanced list in parentheses was one before. -/
theorem exists_group {a : List Token} (hb : isBalanced a = true)
    (h : Collapses ts (.lparen :: a ++ [.rparen])) :
    ∃ a', isBalanced a' = true ∧ ts = .lparen :: a' ++ [.rparen] := by
  generalize hus : .lparen :: a ++ [.rparen] = us at h
  obtain ⟨before, after, b⟩ := h
  have hus : .lparen :: a ++ [.rparen] = before ++ ([.bit b] ++ after) := hus
  obtain ⟨x, y, rfl, rfl, rfl⟩ := side_of_parens (by simp) (by simp) (by simp) hus
  exact ⟨_, (Collapses.here x y b).isBalanced_eq.trans hb, by simp⟩

theorem stripOuter (h : Collapses ts us) :
    Relation.ReflGen Collapses (stripOuter ts) (stripOuter us) := by
  induction ts using stripOuter_induction generalizing us with
  | group a hb ih =>
    rw [stripOuter_group hb]
    rcases h.of_group hb with rfl | ⟨a', ha, rfl⟩
    · exact .refl
    · rw [stripOuter_group (ha.isBalanced_eq.symm.trans hb)]
      exact ih ha
  | bare ts hs =>
    rcases group_or_stripped us with ⟨a, hb, rfl⟩ | hus
    · obtain ⟨a', hb', rfl⟩ := h.exists_group hb
      exact absurd hs (stripOuter_ne_group _ hb')
    · rw [hs, hus]
      exact .single h

/-! ### The first tokens -/

/-- If a bit in parentheses is not all there is, two tokens or more are left, and no negation comes
to the front. -/
theorem exists_cons_cons (h : Collapses ts us) (hts : ∀ b, ts ≠ [.lparen, .bit b, .rparen]) :
    ∃ t u rest t' u' rest', ts = t :: u :: rest ∧ us = t' :: u' :: rest' ∧
      (t ≠ .neg → t' ≠ .neg) := by
  obtain ⟨before, after, b⟩ := h
  match before, after with
  | [], [] => exact absurd rfl (hts b)
  | [], _ :: _ => exact ⟨_, _, _, _, _, _, rfl, rfl, fun _ => by simp⟩
  | [_], _ => exact ⟨_, _, _, _, _, _, rfl, rfl, id⟩
  | _ :: _ :: _, _ => exact ⟨_, _, _, _, _, _, rfl, rfl, id⟩

theorem of_neg {rest : List Token} (h : Collapses (.neg :: rest) us) :
    ∃ rest', us = .neg :: rest' ∧ Collapses rest rest' := by
  generalize hts : Token.neg :: rest = ts at h
  obtain ⟨before, after, b⟩ := h
  cases before with
  | nil => cases hts
  | cons t before =>
    obtain ⟨rfl, rfl⟩ := List.cons.inj hts
    exact ⟨_, rfl, .here before after b⟩

end Collapses

/-! ### Reading -/

/-- Balanced lists that differ in one pair of parentheses around a bit are read alike. -/
theorem parseBalanced_eq_of_collapses {room : Nat} {ts us : List Token} (hb : isBalanced ts = true)
    (h : Relation.ReflGen Collapses ts us) : parseBalanced room ts = parseBalanced room us := by
  induction room generalizing ts us with
  | zero => rfl
  | succ room ih =>
    have hb := isBalanced_stripOuter hb
    have hne := fun b => stripOuter_ne_group ts (a := [.bit b]) rfl
    have hstrip : Relation.ReflGen Collapses (stripOuter ts) (stripOuter us) := by
      cases h with
      | refl => exact .refl
      | single h => exact h.stripOuter
    generalize hts : stripOuter ts = x at hb hne hstrip
    generalize hus : stripOuter us = y at hstrip
    cases hstrip with
    | refl => exact parseBalanced_congr (hts.trans hus.symm)
    | single hxy =>
      have hb' : isBalanced y = true := hxy.isBalanced_eq.symm.trans hb
      obtain ⟨t, u, rest, t', u', rest', rfl, rfl, hneg⟩ := hxy.exists_cons_cons hne
      cases hs : findSplit (t :: u :: rest) with
      | some s =>
        have hloose := (findSplit_eq_some_iff hb).1 hs
        obtain ⟨⟨left, op, right⟩, hloose', rfl, hleft, hright⟩ := hxy.exists_isLoosest hloose
        have hs' := (findSplit_eq_some_iff hb').2 hloose'
        rw [parseBalanced_of_split hts hs, parseBalanced_of_split hus hs',
          ih hloose.left_balanced hleft, ih hloose.right_balanced hright]
      | none =>
        have hs' : findSplit (t' :: u' :: rest') = none := by
          rw [findSplit_eq_none_iff hb', ← hxy.outer_eq, ← findSplit_eq_none_iff hb, hs]
        by_cases ht : t = .neg
        · subst ht
          obtain ⟨_, hy, hrest⟩ := hxy.of_neg
          cases hy
          have hb : isBalanced (u :: rest) = true :=
            (balancedFrom_of_not_paren rfl 0 _).symm.trans hb
          rw [parseBalanced_of_neg hts hs, parseBalanced_of_neg hus hs', ih hb (.single hrest)]
        · rw [parseBalanced_of_malformed hts hs ht, parseBalanced_of_malformed hus hs' (hneg ht)]

/-- Where one bit loses its parentheses, what is read stays. -/
theorem Collapses.parse_eq {ts us : List Token} (h : Collapses ts us) (maxDepth : Int) :
    parse maxDepth ts = parse maxDepth us := by
  rw [parse, parse, h.isBalanced_eq]
  split
  · next hb => exact parseBalanced_eq_of_collapses (h.isBalanced_eq.trans hb) (.single h)
  · rfl

/-- Whatever depth is allowed, a collapsed list is read as the same formula, or fails for the same
reason. -/
theorem collapsing_keeps_reading (maxDepth : Int) (ts : List Token) :
    parse maxDepth (collapse ts) = parse maxDepth ts := by
  have hall : ∀ us, Relation.ReflTransGen Collapses ts us →
      parse maxDepth us = parse maxDepth ts := by
    intro us h
    induction h with
    | refl => rfl
    | tail _ hstep ih => rw [← hstep.parse_eq, ih]
  exact hall _ (reaches_collapse ts)

end LogicTrainer.Reduction
