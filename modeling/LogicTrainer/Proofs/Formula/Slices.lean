import LogicTrainer.Proofs.Formula.Reading

/-! Splitting slices of a list.

The parser works on slices of one token list, and all that it asks of a slice can be read off the
heights of the list: how many more parentheses are open behind a place than at the start. A slice is
balanced exactly if the height is the same at both ends and nowhere lower between them
(`isBalanced_extract_iff`). So a connective of a balanced slice is outside all its parentheses
exactly if it is as high as the ends (`outside_iff`): at a greater height the last rise before it
and the first fall behind it are partners around it (`exists_opening`, `exists_closing`).

The main statement is `slices_split_at_their_root`. -/
namespace LogicTrainer.Token

/-! ### Heights -/

/-- How many more parentheses are open behind a token than before it. -/
def rise : Token → Int
  | .lparen => 1
  | .rparen => -1
  | _ => 0

/-- How many more parentheses open than close among the first tokens of a list. -/
def height (ts : List Token) (n : Nat) : Int := ((ts.take n).map rise).sum

theorem height_zero (ts : List Token) : height ts 0 = 0 := rfl

theorem height_cons (t : Token) (ts : List Token) (n : Nat) :
    height (t :: ts) (n + 1) = rise t + height ts n := by
  rw [height, List.take_succ_cons, List.map_cons, List.sum_cons, height]

theorem height_add (ts : List Token) (a n : Nat) :
    height ts (a + n) = height ts a + height (ts.drop a) n := by
  rw [height, List.take_add, List.map_append, List.sum_append, height, height]

theorem height_succ {ts : List Token} {i : Nat} {t : Token} (h : ts[i]? = some t) :
    height ts (i + 1) = height ts i + rise t := by
  rw [height, List.take_add_one, h, List.map_append, List.sum_append, height]
  simp

theorem height_succ_of_none {ts : List Token} {i : Nat} (h : ts[i]? = none) :
    height ts (i + 1) = height ts i := by
  rw [height, List.take_add_one, h, Option.toList_none, List.append_nil, height]

theorem rise_of_not_paren {t : Token} (h : t.isParen = false) : rise t = 0 := by
  cases t <;> first | rfl | exact absurd h (by decide)

/-- The height grows at an opening parenthesis only, and by one. -/
theorem opens_of_height_lt {ts : List Token} {i : Nat} (h : height ts i < height ts (i + 1)) :
    ts[i]? = some .lparen ∧ height ts (i + 1) = height ts i + 1 := by
  cases ht : ts[i]? with
  | none =>
    rw [height_succ_of_none ht] at h
    omega
  | some t =>
    have hsucc := height_succ ht
    cases t with
    | lparen => exact ⟨rfl, hsucc⟩
    | neg | conn | rparen | bit | word =>
      simp only [rise] at hsucc
      omega

/-- The height drops at a closing parenthesis only, and by one. -/
theorem closes_of_height_lt {ts : List Token} {i : Nat} (h : height ts (i + 1) < height ts i) :
    ts[i]? = some .rparen ∧ height ts i = height ts (i + 1) + 1 := by
  cases ht : ts[i]? with
  | none =>
    rw [height_succ_of_none ht] at h
    omega
  | some t =>
    have hsucc := height_succ ht
    cases t with
    | rparen =>
      simp only [rise] at hsucc
      exact ⟨rfl, by omega⟩
    | neg | conn | lparen | bit | word =>
      simp only [rise] at hsucc
      omega

/-- With `d` parentheses open before, a list is balanced if the height never falls below what they
allow and falls just so far in the end. -/
theorem balancedFrom_iff {d : Nat} {ts : List Token} : balancedFrom d ts = true ↔
    d + height ts ts.length = 0 ∧ ∀ n ≤ ts.length, 0 ≤ d + height ts n := by
  induction ts generalizing d with
  | nil =>
    have hnil : ∀ n, height [] n = 0 := fun n => by rw [height, List.take_nil]; rfl
    simp [balancedFrom, hnil]
  | cons t ts ih =>
    have hlater : (∀ n ≤ (t :: ts).length, 0 ≤ (d : Int) + height (t :: ts) n) ↔
        ∀ n ≤ ts.length, 0 ≤ d + (rise t + height ts n) := by
      constructor
      · intro h n hn
        rw [← height_cons]
        exact h (n + 1) (Nat.succ_le_succ hn)
      · rintro h (_ | n) hn
        · rw [height_zero]
          omega
        · rw [height_cons]
          exact h n (Nat.le_of_succ_le_succ hn)
    rw [hlater, List.length_cons, height_cons]
    cases t with
    | lparen =>
      rw [balancedFrom_lparen, ih]
      simp only [rise, ← Int.add_assoc, Int.natCast_add, Int.cast_ofNat_Int]
    | rparen =>
      cases d with
      | zero =>
        -- the height is below zero right behind the parenthesis
        refine iff_of_false Bool.false_ne_true fun h => ?_
        have := h.2 0 (Nat.zero_le _)
        simp [height_zero, rise] at this
      | succ d =>
        rw [balancedFrom_rparen_succ, ih]
        have hsum : ∀ x : Int, ((d + 1 : Nat) : Int) + (rise .rparen + x) = d + x := fun x => by
          simp only [rise]
          omega
        simp only [hsum]
    | neg | conn | bit | word =>
      rw [balancedFrom_of_not_paren rfl, ih, rise_of_not_paren rfl]
      simp only [Int.zero_add]

/-! ### Slices -/

theorem length_extract {ts : List Token} {lo hi : Nat} (hhi : hi ≤ ts.length) :
    (ts.extract lo hi).length = hi - lo := by
  rw [List.length_take, List.length_drop]
  omega

theorem height_extract (ts : List Token) {lo hi n : Nat} (h : lo + n ≤ hi) :
    height (ts.extract lo hi) n = height ts (lo + n) - height ts lo := by
  rw [height_add, height, List.take_take, Nat.min_eq_left (by omega), ← height]
  omega

/-- A slice is balanced if the height is the same at both ends and nowhere lower between them. -/
theorem isBalanced_extract_iff {ts : List Token} {lo hi : Nat} (hlo : lo ≤ hi)
    (hhi : hi ≤ ts.length) : isBalanced (ts.extract lo hi) = true ↔
      height ts hi = height ts lo ∧ ∀ n, lo ≤ n → n ≤ hi → height ts lo ≤ height ts n := by
  rw [isBalanced, balancedFrom_iff, length_extract hhi, height_extract ts (by omega),
    Nat.add_sub_cancel' hlo]
  refine and_congr (by omega) ⟨fun h n hn hn' => ?_, fun h n hn => ?_⟩
  · have := h (n - lo) (by omega)
    rw [height_extract ts (by omega), Nat.add_sub_cancel' hn] at this
    omega
  · have := h (lo + n) (by omega) (by omega)
    rw [height_extract ts (by omega)]
    omega

/-- A slice is what is before one of its places, the token there, and what is behind it. -/
theorem extract_eq_append_cons {ts : List Token} {lo i hi : Nat} {t : Token} (hlo : lo ≤ i)
    (hhi : i < hi) (ht : ts[i]? = some t) :
    ts.extract lo hi = ts.extract lo i ++ t :: ts.extract (i + 1) hi := by
  obtain ⟨hlt, ht⟩ := List.getElem?_eq_some_iff.1 ht
  have hdrop : ts.drop i = t :: ts.drop (i + 1) := by rw [List.drop_eq_getElem_cons hlt, ht]
  have hsum : hi - lo = (i - lo) + ((hi - (i + 1)) + 1) := by omega
  rw [List.extract, hsum, List.take_add, List.drop_drop, Nat.add_sub_cancel' hlo, hdrop,
    List.take_succ_cons]

/-- The parts of a slice around one of its tokens are slices. -/
theorem of_extract_eq_append_cons {ts left right : List Token} {lo hi : Nat} {t : Token}
    (hhi : hi ≤ ts.length) (h : ts.extract lo hi = left ++ t :: right) :
    ∃ i, lo ≤ i ∧ i < hi ∧ ts[i]? = some t ∧ left = ts.extract lo i ∧
      right = ts.extract (i + 1) hi := by
  have hlen := congrArg List.length h
  rw [length_extract hhi, List.length_append, List.length_cons] at hlen
  have hlt : lo + left.length < ts.length := by omega
  have hcut : ts.extract lo hi = ts.extract lo (lo + left.length) ++
      ts[lo + left.length] :: ts.extract (lo + left.length + 1) hi :=
    extract_eq_append_cons (Nat.le_add_right lo left.length) (by omega)
      (List.getElem?_eq_getElem hlt)
  have hleft : left.length = (ts.extract lo (lo + left.length)).length := by
    rw [length_extract (by omega)]
    omega
  obtain ⟨hl, hr⟩ := List.append_inj (h.symm.trans hcut) hleft
  obtain ⟨rfl, hright⟩ := List.cons.inj hr
  exact ⟨_, Nat.le_add_right _ _, by omega, List.getElem?_eq_getElem hlt, hl, hright⟩

/-! ### Partners -/

/-- The parentheses at two places are partners: one opens, the other closes, and what stands between
them is balanced. -/
structure Partners (ts : List Token) (o c : Nat) : Prop where
  lt : o < c
  opens : ts[o]? = some .lparen
  closes : ts[c]? = some .rparen
  between : isBalanced (ts.extract (o + 1) c) = true

/-- A binary connective of a slice outside all its parentheses: no partners in the slice stand on
two sides of it. -/
structure OuterAt (ts : List Token) (lo hi i : Nat) (op : Connective) : Prop where
  lo_le : lo ≤ i
  lt_hi : i < hi
  token : ts[i]? = some (.conn op)
  outside : ∀ o c, lo ≤ o → c < hi → Partners ts o c → ¬ (o < i ∧ i < c)

/-- The connective at which a slice is to be split: none outside all parentheses binds looser, and
those that bind alike stand to its left. -/
structure IsRoot (ts : List Token) (lo hi i : Nat) (op : Connective) : Prop where
  outer : OuterAt ts lo hi i op
  loosest : ∀ j op', OuterAt ts lo hi j op' → op.rank ≤ op'.rank
  rightmost : ∀ j op', OuterAt ts lo hi j op' → op'.rank = op.rank → j ≤ i

theorem Partners.lt_length {ts : List Token} {o c : Nat} (h : Partners ts o c) : c < ts.length :=
  (List.getElem?_eq_some_iff.1 h.closes).1

/-- Between partners the height is nowhere lower than behind the first. -/
theorem Partners.height_le {ts : List Token} {o c n : Nat} (h : Partners ts o c) (ho : o < n)
    (hc : n ≤ c) : height ts o + 1 ≤ height ts n := by
  have hlt : o + 1 ≤ c := h.lt
  have hbetween := (isBalanced_extract_iff hlt (Nat.le_of_lt h.lt_length)).1 h.between
  have hrise : height ts (o + 1) = height ts o + 1 := height_succ h.opens
  have := hbetween.2 n ho hc
  omega

theorem Partners.extract_eq {ts : List Token} {o c : Nat} (h : Partners ts o c) :
    ts.extract o (c + 1) = .lparen :: ts.extract (o + 1) c ++ [.rparen] := by
  have hopen := extract_eq_append_cons (Nat.le_refl o) (Nat.lt_succ_of_lt h.lt) h.opens
  have hclose := extract_eq_append_cons h.lt (Nat.lt_succ_self c) h.closes
  have hnil : ∀ i, ts.extract i i = [] := fun i => by
    rw [List.extract, Nat.sub_self, List.take_zero]
  rw [hnil, List.nil_append, hclose, hnil] at hopen
  exact hopen

/-- A slice with a balanced list in parentheses has partners at its ends. -/
theorem partners_of_extract_eq {ts a : List Token} {o c : Nat} (hc : c < ts.length)
    (hb : isBalanced a = true) (h : ts.extract o (c + 1) = .lparen :: a ++ [.rparen]) :
    Partners ts o c ∧ a = ts.extract (o + 1) c := by
  have hlen := congrArg List.length h
  rw [length_extract hc, List.length_append, List.length_cons, List.length_singleton] at hlen
  have hcons : ts.extract o (c + 1) = [] ++ .lparen :: (a ++ [.rparen]) := h
  obtain ⟨i, hlo, hic, hopen, hnil, hrest⟩ := of_extract_eq_append_cons hc hcons
  have hlen' := congrArg List.length hnil
  rw [length_extract (by omega), List.length_nil] at hlen'
  obtain rfl : i = o := by omega
  obtain ⟨j, hj, hjc, hclose, ha, hnil⟩ := of_extract_eq_append_cons hc hrest.symm
  have hlen'' := congrArg List.length hnil
  rw [length_extract hc, List.length_nil] at hlen''
  obtain rfl : j = c := by omega
  exact ⟨⟨by omega, hopen, hclose, ha ▸ hb⟩, ha⟩

/-! ### Outside all parentheses -/

/-- Before a place that is higher than an earlier one, a parenthesis between the two opens and stays
open up to it. -/
theorem exists_opening {ts : List Token} {lo i : Nat} {level : Int} (hle : lo ≤ i)
    (hlo : height ts lo < level) (hi : level ≤ height ts i) :
    ∃ o, lo ≤ o ∧ o < i ∧ ts[o]? = some .lparen ∧ height ts (o + 1) = level ∧
      ∀ n, o < n → n ≤ i → level ≤ height ts n := by
  induction i, hle using Nat.le_induction with
  | base => omega
  | succ i hle ih =>
    by_cases hlevel : level ≤ height ts i
    · obtain ⟨o, ho, hoi, hopen, hheight, hmore⟩ := ih hlevel
      refine ⟨o, ho, by omega, hopen, hheight, fun n hn hni => ?_⟩
      rcases Nat.le_succ_iff.1 hni with hni | rfl
      · exact hmore n hn hni
      · exact hi
    · obtain ⟨hopen, hheight⟩ := opens_of_height_lt ((lt_of_not_ge hlevel).trans_le hi)
      refine ⟨i, hle, Nat.lt_succ_self i, hopen, by omega, fun n hn hni => ?_⟩
      obtain rfl : n = i + 1 := by omega
      exact hi

/-- Behind a place that is higher than a later one, a parenthesis between the two closes what was
open at it. -/
theorem exists_closing {ts : List Token} {i hi : Nat} {level : Int} (hle : i ≤ hi)
    (hlow : height ts hi < level) (hhigh : level ≤ height ts i) :
    ∃ c, i ≤ c ∧ c < hi ∧ ts[c]? = some .rparen ∧ height ts c = level ∧
      ∀ n, i ≤ n → n ≤ c → level ≤ height ts n := by
  induction hk : hi - i generalizing i with
  | zero =>
    obtain rfl : i = hi := by omega
    omega
  | succ k ih =>
    by_cases hlevel : level ≤ height ts (i + 1)
    · obtain ⟨c, hc, hchi, hclose, hheight, hmore⟩ := ih (by omega) hlevel (by omega)
      refine ⟨c, by omega, hchi, hclose, hheight, fun n hn hnc => ?_⟩
      rcases Nat.eq_or_lt_of_le hn with rfl | hn
      · exact hhigh
      · exact hmore n hn hnc
    · obtain ⟨hclose, hheight⟩ := closes_of_height_lt ((lt_of_not_ge hlevel).trans_le hhigh)
      refine ⟨i, Nat.le_refl i, by omega, hclose, by omega, fun n hn hni => ?_⟩
      obtain rfl : n = i := by omega
      exact hhigh

/-- A connective of a balanced slice is outside all its parentheses exactly if it is as high as the
ends. -/
theorem outside_iff {ts : List Token} {lo i hi : Nat} {op : Connective}
    (hlo : lo ≤ i) (hhi : i < hi) (hlen : hi ≤ ts.length)
    (hb : isBalanced (ts.extract lo hi) = true) (ht : ts[i]? = some (.conn op)) :
    OuterAt ts lo hi i op ↔ height ts i = height ts lo := by
  obtain ⟨hends, hbetween⟩ := (isBalanced_extract_iff (by omega) hlen).1 hb
  have hnext : height ts (i + 1) = height ts i + 0 := height_succ ht
  constructor
  · intro h
    by_contra hne
    have hhigh : height ts lo < height ts i :=
      lt_of_le_of_ne (hbetween i hlo (Nat.le_of_lt hhi)) (Ne.symm hne)
    obtain ⟨o, ho, hoi, hopen, hoheight, homore⟩ := exists_opening hlo hhigh (le_refl _)
    have hsame : height ts i ≤ height ts (i + 1) := by omega
    obtain ⟨c, hc, hchi, hclose, hcheight, hcmore⟩ := exists_closing hhi (hends ▸ hhigh) hsame
    refine h.outside o c ho hchi ⟨by omega, hopen, hclose, ?_⟩ ⟨hoi, hc⟩
    refine (isBalanced_extract_iff (by omega) (by omega)).2 ⟨by omega, fun n hn hnc => ?_⟩
    rcases Nat.lt_or_ge i n with hni | hni
    · have := hcmore n hni hnc
      omega
    · have := homore n hn hni
      omega
  · intro h
    refine ⟨hlo, hhi, ht, fun o c ho hc hp hbetween' => ?_⟩
    have hup := hp.height_le hbetween'.1 (Nat.le_of_lt hbetween'.2)
    have := hbetween o ho (by omega)
    omega

/-! ### The root of a slice -/

section
variable {ts : List Token} {lo hi : Nat} (hlo : lo ≤ hi) (hhi : hi ≤ ts.length)
  (hb : isBalanced (ts.extract lo hi) = true)
include hlo hhi hb

/-- What is before a place as high as the ends is balanced. -/
theorem isBalanced_before {i : Nat} (hloi : lo ≤ i) (hihi : i ≤ hi)
    (hheight : height ts i = height ts lo) : isBalanced (ts.extract lo i) = true := by
  have hbetween := ((isBalanced_extract_iff hlo hhi).1 hb).2
  exact (isBalanced_extract_iff hloi (by omega)).2
    ⟨hheight, fun n hn hni => hbetween n hn (by omega)⟩

/-- What is behind a token as high as the ends is balanced up to any place as high as they are. -/
theorem isBalanced_between {i j : Nat} {t : Token} (hloi : lo ≤ i) (hij : i < j) (hj : j ≤ hi)
    (ht : ts[i]? = some t) (hp : t.isParen = false) (hheight : height ts i = height ts lo)
    (hheight' : height ts j = height ts lo) : isBalanced (ts.extract (i + 1) j) = true := by
  have hbetween := ((isBalanced_extract_iff hlo hhi).1 hb).2
  have hnext : height ts (i + 1) = height ts i + rise t := height_succ ht
  rw [rise_of_not_paren hp] at hnext
  have hle : i + 1 ≤ j := hij
  refine (isBalanced_extract_iff hle (by omega)).2 ⟨by omega, fun n hn hnj => ?_⟩
  have := hbetween n (by omega) (by omega)
  omega

/-- A connective outside all parentheses is one of those to the left of a split or of those to the
right, or that at which it is. -/
theorem IsLoosest.rank_of_outerAt {s : Split} (hs : IsLoosest 0 (ts.extract lo hi) s) {i j : Nat}
    {op : Connective} (hi' : OuterAt ts lo hi i s.op) (hleft : s.left = ts.extract lo i)
    (hright : s.right = ts.extract (i + 1) hi) (hj : OuterAt ts lo hi j op) :
    s.op.rank ≤ op.rank ∧ (i < j → s.op.rank < op.rank) := by
  have hiheight := (outside_iff hi'.lo_le hi'.lt_hi hhi hb hi'.token).1 hi'
  have hjheight := (outside_iff hj.lo_le hj.lt_hi hhi hb hj.token).1 hj
  rcases Nat.lt_trichotomy j i with hji | rfl | hij
  · have hjleft := isBalanced_before hlo hhi hb hj.lo_le (Nat.le_of_lt hj.lt_hi) hjheight
    have hmem : op ∈ outer s.left := by
      rw [hleft, extract_eq_append_cons hj.lo_le hji hj.token, outer_append hjleft]
      exact List.mem_append_right _ List.mem_cons_self
    exact ⟨hs.left_tight op hmem, fun hij => absurd hij (by omega)⟩
  · obtain rfl : op = s.op := by simpa using hj.token.symm.trans hi'.token
    exact ⟨Nat.le_refl _, fun h => absurd h (Nat.lt_irrefl _)⟩
  · have hmid := isBalanced_between hlo hhi hb hi'.lo_le hij (Nat.le_of_lt hj.lt_hi) hi'.token rfl
      hiheight hjheight
    have hmem : op ∈ outer s.right := by
      rw [hright, extract_eq_append_cons hij hj.lt_hi hj.token, outer_append hmid]
      exact List.mem_append_right _ List.mem_cons_self
    have hlt := hs.right_tighter op hmem
    exact ⟨Nat.le_of_lt hlt, fun _ => hlt⟩

/-- The connective between the two parts of a split is the root. -/
theorem IsLoosest.isRoot {s : Split} (hs : IsLoosest 0 (ts.extract lo hi) s) :
    ∃ i, IsRoot ts lo hi i s.op ∧ s.left = ts.extract lo i ∧ s.right = ts.extract (i + 1) hi := by
  obtain ⟨i, hloi, hihi, ht, hleft, hright⟩ := of_extract_eq_append_cons hhi hs.whole
  have hleftb : isBalanced (ts.extract lo i) = true := hleft ▸ hs.left_balanced
  have hheight := ((isBalanced_extract_iff hloi (by omega)).1 hleftb).1
  have houter := (outside_iff hloi hihi hhi hb ht).2 hheight
  refine ⟨i, ⟨houter, fun j op hj => ?_, fun j op hj hsame => ?_⟩, hleft, hright⟩
  · exact (hs.rank_of_outerAt hlo hhi hb houter hleft hright hj).1
  · by_contra hij
    have := (hs.rank_of_outerAt hlo hhi hb houter hleft hright hj).2 (by omega)
    omega

/-- A balanced slice has no split exactly if none of its connectives is outside all parentheses. -/
theorem findSplit_extract_eq_none_iff :
    findSplit (ts.extract lo hi) = none ↔ ∀ i op, ¬ OuterAt ts lo hi i op := by
  constructor
  · intro hnone i op hi'
    have hheight := (outside_iff hi'.lo_le hi'.lt_hi hhi hb hi'.token).1 hi'
    have hleft := isBalanced_before hlo hhi hb hi'.lo_le (Nat.le_of_lt hi'.lt_hi) hheight
    have hnil := (findSplit_eq_none_iff hb).1 hnone
    rw [extract_eq_append_cons hi'.lo_le hi'.lt_hi hi'.token, outer_append hleft] at hnil
    exact absurd (List.append_eq_nil_iff.1 hnil).2 (List.cons_ne_nil _ _)
  · intro hno
    cases hs : findSplit (ts.extract lo hi) with
    | none => rfl
    | some s =>
      obtain ⟨i, hroot, -⟩ := ((findSplit_eq_some_iff hb).1 hs).isRoot hlo hhi hb
      exact absurd hroot.outer (hno i s.op)

end

/-! ### Parentheses around a slice -/

/-- What is stripped of a slice is one pair of partners after another, from the ends inwards, until
the ends are no partners. -/
theorem exists_stripOuter_extract {ts : List Token} {lo hi : Nat} (hlo : lo ≤ hi)
    (hhi : hi ≤ ts.length) :
    ∃ k, lo + k ≤ hi - k ∧ stripOuter (ts.extract lo hi) = ts.extract (lo + k) (hi - k) ∧
      (∀ j < k, Partners ts (lo + j) (hi - 1 - j)) ∧ ¬ Partners ts (lo + k) (hi - k - 1) := by
  induction hn : hi - lo using Nat.strongRecOn generalizing lo hi with
  | ind n ih =>
    by_cases hp : Partners ts lo (hi - 1)
    · have hlt := hp.lt
      obtain ⟨k, hk, hstrip, hdropped, hends⟩ := ih (hi - 1 - (lo + 1)) (by omega)
        (show lo + 1 ≤ hi - 1 from hlt) (by omega) rfl
      have hgroup := hp.extract_eq
      rw [Nat.sub_add_cancel (by omega)] at hgroup
      refine ⟨k + 1, by omega, ?_, fun j hj => ?_, ?_⟩
      · rw [hgroup, stripOuter_group hp.between, hstrip, show lo + (k + 1) = lo + 1 + k by omega,
          show hi - (k + 1) = hi - 1 - k by omega]
      · cases j with
        | zero => exact hp
        | succ j =>
          have := hdropped j (by omega)
          rwa [show lo + (j + 1) = lo + 1 + j by omega,
            show hi - 1 - (j + 1) = hi - 1 - 1 - j by omega]
      · rwa [show lo + (k + 1) = lo + 1 + k by omega, show hi - (k + 1) = hi - 1 - k by omega]
    · refine ⟨0, by omega, ?_, fun j hj => absurd hj (Nat.not_lt_zero j), hp⟩
      rcases group_or_stripped (ts.extract lo hi) with ⟨a, ha, hgroup⟩ | hsame
      · have hlen := congrArg List.length hgroup
        rw [length_extract hhi, List.length_append, List.length_cons] at hlen
        have hhi' : hi = hi - 1 + 1 := by omega
        rw [hhi'] at hgroup
        exact absurd (partners_of_extract_eq (by omega) ha hgroup).1 hp
      · exact hsame

/-- Stripping a balanced slice takes away the partners at its ends as long as there are any. What is
left is split into balanced slices at the rightmost of its loosest connectives outside parentheses,
and has no split if there is none. -/
theorem slices_split_at_their_root (ts : List Token) (lo hi : Nat) (hlo : lo ≤ hi)
    (hhi : hi ≤ ts.length) (hb : isBalanced (ts.extract lo hi) = true) :
    (∃ k, lo + k ≤ hi - k ∧ stripOuter (ts.extract lo hi) = ts.extract (lo + k) (hi - k) ∧
      isBalanced (ts.extract (lo + k) (hi - k)) = true ∧
      (∀ j < k, Partners ts (lo + j) (hi - 1 - j)) ∧ ¬ Partners ts (lo + k) (hi - k - 1)) ∧
    (findSplit (ts.extract lo hi) = none ↔ ∀ i op, ¬ OuterAt ts lo hi i op) ∧
    (∀ s, findSplit (ts.extract lo hi) = some s →
      ∃ i, IsRoot ts lo hi i s.op ∧ s.left = ts.extract lo i ∧ s.right = ts.extract (i + 1) hi ∧
        isBalanced (ts.extract lo i) = true ∧ isBalanced (ts.extract (i + 1) hi) = true) ∧
    (lo < hi → ts[lo]? = some .neg → isBalanced (ts.extract (lo + 1) hi) = true) := by
  refine ⟨?_, findSplit_extract_eq_none_iff hlo hhi hb, fun s hs => ?_, fun hlt hneg => ?_⟩
  · obtain ⟨k, hk, hstrip, hdropped, hends⟩ := exists_stripOuter_extract hlo hhi
    exact ⟨k, hk, hstrip, hstrip ▸ isBalanced_stripOuter hb, hdropped, hends⟩
  · have hloosest := (findSplit_eq_some_iff hb).1 hs
    obtain ⟨i, hroot, hleft, hright⟩ := hloosest.isRoot hlo hhi hb
    exact ⟨i, hroot, hleft, hright, hleft ▸ hloosest.left_balanced,
      hright ▸ hloosest.right_balanced⟩
  · have hends := ((isBalanced_extract_iff hlo hhi).1 hb).1
    exact isBalanced_between hlo hhi hb (Nat.le_refl lo) hlt (Nat.le_refl hi) hneg rfl rfl hends

/-- In the list behind a negation one pair is stripped, and what is left is split at the second of
its three conjunctions, the last one being inside parentheses. -/
theorem slices_split_at_their_root_conjunctions :
    let ts : List Token := [.neg, .lparen, .word ['P'], .conn .and, .lparen, .bit true, .rparen,
      .conn .and, .neg, .lparen, .word ['Q'], .conn .and, .word ['R'], .rparen, .rparen]
    isBalanced (ts.extract 1 15) = true ∧ stripOuter (ts.extract 1 15) = ts.extract 2 14 ∧
      Partners ts 1 14 ∧ ¬ Partners ts 2 13 ∧ IsRoot ts 2 14 7 .and ∧
      isBalanced (ts.extract 8 14) = true ∧ (∀ i op, ¬ OuterAt ts 8 14 i op) ∧
      isBalanced (ts.extract 9 14) = true := by
  intro ts
  have hwhole : isBalanced (ts.extract 1 15) = true := by decide
  have hstripped : stripOuter (ts.extract 1 15) = ts.extract 2 14 := by cbv
  have hsplit : findSplit (ts.extract 2 14) = some ⟨ts.extract 2 7, .and, ts.extract 8 14⟩ := by
    decide
  obtain ⟨⟨k, hk, hstrip, hb, hdropped, hends⟩, -⟩ :=
    slices_split_at_their_root ts 1 15 (by decide) (by decide) hwhole
  obtain rfl : k = 1 := by
    have hlen := congrArg List.length (hstripped.symm.trans hstrip)
    rw [length_extract (by decide), length_extract (Nat.sub_le 15 k)] at hlen
    omega
  obtain ⟨-, -, hfound, -⟩ := slices_split_at_their_root ts 2 14 (by decide) (by decide) hb
  obtain ⟨i, hroot, hleft, -, -, hright⟩ := hfound _ hsplit
  obtain rfl : i = 7 := by
    have hlo := hroot.outer.lo_le
    have hhi := hroot.outer.lt_hi
    have hlen := congrArg List.length hleft
    rw [length_extract (by decide), length_extract (by show i ≤ 15; omega)] at hlen
    omega
  obtain ⟨-, hnone, -, hneg⟩ := slices_split_at_their_root ts 8 14 (by decide) (by decide) hright
  exact ⟨hwhole, hstripped, hdropped 0 (by decide), hends, hroot, hright,
    hnone.1 (by decide), hneg (by decide) rfl⟩

end LogicTrainer.Token
