import LogicTrainer.Formula.Parser

/-! Where a balanced list is split.

The parser scans from right to left and counts parentheses without looking at the sign. On
the end of a balanced list the count is the number of parentheses that are open before it
(`scan_finds`), so a count of zero does mean outside all parentheses. From this follows
what `findSplit` finds: nothing, exactly if no connective stands outside all parentheses
(`findSplit_eq_none_iff`), or else the loosest that does, the rightmost of several, which is
only one place (`findSplit_eq_some_iff`). -/
namespace LogicTrainer.Token

/-! ### Balance -/

theorem balancedFrom_lparen (depth : Nat) (rest : List Token) :
    balancedFrom depth (.lparen :: rest) = balancedFrom (depth + 1) rest := by
  cases depth <;> rfl

theorem balancedFrom_rparen_succ (depth : Nat) (rest : List Token) :
    balancedFrom (depth + 1) (.rparen :: rest) = balancedFrom depth rest := rfl

/-- Whether a token is a parenthesis. -/
def isParen (t : Token) : Bool := t == .lparen || t == .rparen

theorem balancedFrom_of_not_paren {t : Token} (h : t.isParen = false) (depth : Nat)
    (rest : List Token) : balancedFrom depth (t :: rest) = balancedFrom depth rest := by
  cases t <;> first | exact absurd h (by decide) | (cases depth <;> rfl)

/-- A list that closes what is open leaves the count to what follows. -/
theorem balancedFrom_append {d : Nat} {a : List Token} (h : balancedFrom d a = true) (e : Nat)
    (b : List Token) : balancedFrom (d + e) (a ++ b) = balancedFrom e b := by
  induction a generalizing d with
  | nil =>
    have hd : d = 0 := by simpa [balancedFrom] using h
    rw [hd, Nat.zero_add, List.nil_append]
  | cons t rest ih =>
    rw [List.cons_append]
    match t, d with
    | .lparen, d =>
      rw [balancedFrom_lparen] at h ⊢
      rw [← ih h, Nat.add_right_comm]
    | .rparen, 0 => exact absurd h (by simp [balancedFrom])
    | .rparen, d + 1 =>
      rw [balancedFrom_rparen_succ] at h
      rw [Nat.add_right_comm, balancedFrom_rparen_succ, ih h]
    | .neg, d | .conn _, d | .bit _, d | .word _, d =>
      rw [balancedFrom_of_not_paren rfl] at h ⊢
      exact ih h

theorem isBalanced_append {a : List Token} (h : isBalanced a = true) (b : List Token) :
    isBalanced (a ++ b) = isBalanced b := by
  have := balancedFrom_append h 0 b
  rwa [Nat.zero_add] at this

/-! ### Connectives outside all parentheses -/

/-- The connectives outside all parentheses, with `depth` of them open before. -/
def outerFrom : Nat → List Token → List Connective
  | _, [] => []
  | depth, .lparen :: rest => outerFrom (depth + 1) rest
  | depth, .rparen :: rest => outerFrom (depth - 1) rest
  | 0, .conn op :: rest => op :: outerFrom 0 rest
  | depth, _ :: rest => outerFrom depth rest

/-- The connectives of a list that are outside all parentheses. -/
def outer (ts : List Token) : List Connective := outerFrom 0 ts

theorem outerFrom_lparen (depth : Nat) (rest : List Token) :
    outerFrom depth (.lparen :: rest) = outerFrom (depth + 1) rest := by
  cases depth <;> rfl

theorem outerFrom_rparen (depth : Nat) (rest : List Token) :
    outerFrom depth (.rparen :: rest) = outerFrom (depth - 1) rest := by
  cases depth <;> rfl

theorem outerFrom_conn (depth : Nat) (op : Connective) (rest : List Token) :
    outerFrom depth (.conn op :: rest) = (if depth = 0 then [op] else []) ++ outerFrom depth rest := by
  cases depth <;> rfl

theorem outerFrom_of_plain {t : Token} (hp : t.isParen = false) (hc : ∀ op, t ≠ .conn op)
    (depth : Nat) (rest : List Token) : outerFrom depth (t :: rest) = outerFrom depth rest := by
  cases t with
  | conn op => exact absurd rfl (hc op)
  | lparen | rparen => exact absurd hp (by decide)
  | neg | bit | word => cases depth <;> rfl

/-- Behind a list that closes what is open, the outer connectives are those of the rest. -/
theorem outerFrom_append {d : Nat} {a : List Token} (h : balancedFrom d a = true) (e : Nat)
    (b : List Token) : outerFrom (d + e) (a ++ b) = outerFrom (d + e) a ++ outerFrom e b := by
  induction a generalizing d with
  | nil =>
    have hd : d = 0 := by simpa [balancedFrom] using h
    rw [hd, Nat.zero_add, List.nil_append]
    rfl
  | cons t rest ih =>
    rw [List.cons_append]
    match t, d with
    | .lparen, d =>
      rw [balancedFrom_lparen] at h
      rw [outerFrom_lparen, outerFrom_lparen, Nat.add_right_comm, ih h]
    | .rparen, 0 => exact absurd h (by simp [balancedFrom])
    | .rparen, d + 1 =>
      rw [balancedFrom_rparen_succ] at h
      rw [outerFrom_rparen, outerFrom_rparen, Nat.add_right_comm, Nat.add_sub_cancel, ih h]
    | .conn op, d =>
      rw [balancedFrom_of_not_paren rfl] at h
      rw [outerFrom_conn, outerFrom_conn, ih h, List.append_assoc]
    | .neg, d | .bit _, d | .word _, d =>
      rw [balancedFrom_of_not_paren rfl] at h
      rw [outerFrom_of_plain rfl (by simp), outerFrom_of_plain rfl (by simp), ih h]

theorem outer_append {a : List Token} (h : isBalanced a = true) (b : List Token) :
    outer (a ++ b) = outer a ++ outer b := by
  have := outerFrom_append h 0 b
  rwa [Nat.zero_add] at this

/-- Under a parenthesis that stays open there is no outer connective. -/
theorem outerFrom_eq_nil {d : Nat} {a : List Token} (h : balancedFrom d a = true) (e : Nat) :
    outerFrom (d + e + 1) a = [] := by
  induction a generalizing d with
  | nil => rfl
  | cons t rest ih =>
    match t, d with
    | .lparen, d =>
      rw [balancedFrom_lparen] at h
      rw [outerFrom_lparen, ← ih h, show d + e + 1 + 1 = d + 1 + e + 1 by omega]
    | .rparen, 0 => exact absurd h (by simp [balancedFrom])
    | .rparen, d + 1 =>
      rw [balancedFrom_rparen_succ] at h
      rw [outerFrom_rparen, ← ih h, show d + 1 + e + 1 - 1 = d + e + 1 by omega]
    | .conn op, d =>
      rw [balancedFrom_of_not_paren rfl] at h
      rw [outerFrom_conn, if_neg (by omega), List.nil_append, ih h]
    | .neg, d | .bit _, d | .word _, d =>
      rw [balancedFrom_of_not_paren rfl] at h
      rw [outerFrom_of_plain rfl (by simp), ih h]

/-- A pair of parentheses around the whole leaves no connective outside. -/
theorem outer_group {a : List Token} (h : isBalanced a = true) :
    outer (.lparen :: a ++ [.rparen]) = [] := by
  have ha : outerFrom (0 + 1) a = [] := outerFrom_eq_nil h 0
  show outerFrom 0 (.lparen :: (a ++ [.rparen])) = []
  rw [outerFrom_lparen, outerFrom_append h, ha]
  rfl

/-! ### The split -/

/-- A split of a list with `depth` open parentheses before it at its loosest outer
connective: those to the left bind no looser, those to the right bind tighter. -/
structure IsLoosest (depth : Nat) (ts : List Token) (s : Split) : Prop where
  whole : ts = s.left ++ .conn s.op :: s.right
  left_balanced : balancedFrom depth s.left = true
  right_balanced : isBalanced s.right = true
  left_tight : ∀ op ∈ outerFrom depth s.left, s.op.rank ≤ op.rank
  right_tighter : ∀ op ∈ outer s.right, s.op.rank < op.rank

namespace IsLoosest
variable {d : Nat} {rest : List Token} {s : Split}

/-- The outer connectives on both sides of a split, and the one between. -/
theorem outerFrom_eq {ts : List Token} (h : IsLoosest d ts s) :
    outerFrom d ts = outerFrom d s.left ++ s.op :: outer s.right := by
  have := outerFrom_append h.left_balanced 0 (.conn s.op :: s.right)
  rwa [Nat.add_zero, ← h.whole] at this

/-- No outer connective binds looser than that of the split. -/
theorem rank_le {ts : List Token} (h : IsLoosest d ts s) {op : Connective}
    (hop : op ∈ outerFrom d ts) : s.op.rank ≤ op.rank := by
  rw [h.outerFrom_eq, List.mem_append, List.mem_cons] at hop
  rcases hop with hop | rfl | hop
  · exact h.left_tight op hop
  · exact Nat.le_refl _
  · exact Nat.le_of_lt (h.right_tighter op hop)

/-- Of two loosest outer connectives neither stands to the left of the other. -/
theorem not_left_of {ts : List Token} {s' : Split} (h : IsLoosest 0 ts s)
    (h' : IsLoosest 0 ts s') : ¬ s.left.length < s'.left.length := by
  intro hlt
  rcases List.append_eq_append_iff.1 (h.whole.symm.trans h'.whole) with ⟨as, hl, hr⟩ | ⟨bs, hl, _⟩
  · cases as with
    | nil => simp [hl] at hlt
    | cons t mid =>
      obtain ⟨rfl, hright⟩ : t = .conn s.op ∧ s.right = mid ++ .conn s'.op :: s'.right := by
        simpa [eq_comm] using hr
      have hmid : isBalanced mid = true := by
        have hb := h'.left_balanced
        rw [hl] at hb
        rwa [← isBalanced, isBalanced_append h.left_balanced] at hb
      have hlt := h.right_tighter s'.op (by
        rw [hright, outer_append hmid]
        exact List.mem_append_right _ List.mem_cons_self)
      have hle := h'.left_tight s.op (by
        rw [hl, ← outer, outer_append h.left_balanced]
        exact List.mem_append_right _ List.mem_cons_self)
      omega
  · rw [hl, List.length_append] at hlt
    omega

theorem after_lparen (h : IsLoosest (d + 1) rest s) :
    IsLoosest d (.lparen :: rest) (s.after .lparen) where
  whole := congrArg (.lparen :: ·) h.whole
  left_balanced := (balancedFrom_lparen d s.left).trans h.left_balanced
  right_balanced := h.right_balanced
  left_tight op hop := h.left_tight op (by rwa [← outerFrom_lparen])
  right_tighter := h.right_tighter

theorem after_rparen (h : IsLoosest d rest s) :
    IsLoosest (d + 1) (.rparen :: rest) (s.after .rparen) where
  whole := congrArg (.rparen :: ·) h.whole
  left_balanced := h.left_balanced
  right_balanced := h.right_balanced
  left_tight := h.left_tight
  right_tighter := h.right_tighter

/-- A token that is no parenthesis may come in front, if it is no looser connective. -/
theorem after_other {t : Token} (h : IsLoosest d rest s) (hp : t.isParen = false)
    (hc : ∀ op, t = .conn op → d = 0 → s.op.rank ≤ op.rank) :
    IsLoosest d (t :: rest) (s.after t) where
  whole := congrArg (t :: ·) h.whole
  left_balanced := (balancedFrom_of_not_paren hp d s.left).trans h.left_balanced
  right_balanced := h.right_balanced
  left_tight op hop := by
    have hop : op ∈ outerFrom d (t :: s.left) := hop
    by_cases ht : ∃ op', t = .conn op'
    · obtain ⟨op', rfl⟩ := ht
      rw [outerFrom_conn, List.mem_append] at hop
      rcases hop with hop | hop
      · by_cases hd : d = 0
        · rw [if_pos hd, List.mem_singleton] at hop
          exact hop ▸ hc op' rfl hd
        · rw [if_neg hd] at hop
          exact absurd hop List.not_mem_nil
      · exact h.left_tight op hop
    · rw [outerFrom_of_plain hp (fun op' e => ht ⟨op', e⟩)] at hop
      exact h.left_tight op hop
  right_tighter := h.right_tighter

end IsLoosest

/-- What a scan finds: the loosest outer connective, or nothing if there is none. -/
def Finds (depth : Nat) (ts : List Token) : Option Split → Prop
  | none => outerFrom depth ts = []
  | some s => IsLoosest depth ts s

/-- Every outer connective binds tighter than one that is looser than what was found. -/
theorem Finds.rank_lt {d : Nat} {ts : List Token} {best : Option Split} (h : Finds d ts best)
    {op op' : Connective} (hl : looser op best = true) (hop : op' ∈ outerFrom d ts) :
    op.rank < op'.rank := by
  cases best with
  | none =>
    rw [show outerFrom d ts = [] from h] at hop
    exact absurd hop List.not_mem_nil
  | some s => exact Nat.lt_of_lt_of_le (of_decide_eq_true hl) (IsLoosest.rank_le h hop)

theorem scan_conn (op : Connective) (rest : List Token) :
    scan (.conn op :: rest) =
      if (scan rest).1 = 0 ∧ looser op (scan rest).2 then ((scan rest).1, some ⟨[], op, rest⟩)
      else ((scan rest).1, (scan rest).2.map (·.after (.conn op))) := rfl

/-- What was found behind a token is found again when the token stands in front. -/
theorem Finds.after {d e : Nat} {t : Token} {rest : List Token} {best : Option Split}
    (h : Finds d rest best)
    (hnone : best = none → outerFrom e (t :: rest) = outerFrom d rest)
    (hsome : ∀ s, best = some s → IsLoosest d rest s → IsLoosest e (t :: rest) (s.after t)) :
    Finds e (t :: rest) (best.map (·.after t)) := by
  cases best with
  | none => exact (hnone rfl).trans h
  | some s => exact hsome s rfl h

/-- A scan counts what is open before, and finds the loosest connective. -/
theorem scan_finds {d : Nat} {ts : List Token} (h : balancedFrom d ts = true) :
    (scan ts).1 = d ∧ Finds d ts (scan ts).2 := by
  induction ts generalizing d with
  | nil =>
    have hd : d = 0 := by simpa [balancedFrom] using h
    exact ⟨by simp [scan, hd], rfl⟩
  | cons t rest ih =>
    match t, d with
    | .lparen, d =>
      rw [balancedFrom_lparen] at h
      obtain ⟨hexcess, hbest⟩ := ih h
      refine ⟨by simp [scan, hexcess], ?_⟩
      exact hbest.after (fun _ => outerFrom_lparen d rest) fun _ _ hs => hs.after_lparen
    | .rparen, 0 => exact absurd h (by simp [balancedFrom])
    | .rparen, d + 1 =>
      rw [balancedFrom_rparen_succ] at h
      obtain ⟨hexcess, hbest⟩ := ih h
      refine ⟨by simp [scan, hexcess], ?_⟩
      exact hbest.after (fun _ => outerFrom_rparen (d + 1) rest) fun _ _ hs => hs.after_rparen
    | .conn op, d =>
      rw [balancedFrom_of_not_paren rfl] at h
      obtain ⟨hexcess, hbest⟩ := ih h
      rw [scan_conn, hexcess]
      split
      · next hl =>
        obtain ⟨hd, hl⟩ := hl
        obtain rfl : d = 0 := by omega
        exact ⟨rfl, rfl, rfl, h, fun _ hop => absurd hop List.not_mem_nil,
          fun op' hop => hbest.rank_lt hl hop⟩
      · next hl =>
        refine ⟨rfl, hbest.after (fun hn => ?_) fun s hs hloosest => ?_⟩
        · have hd : d ≠ 0 := fun hd => hl ⟨by omega, by rw [hn]; rfl⟩
          rw [outerFrom_conn, if_neg hd, List.nil_append]
        · refine hloosest.after_other rfl fun op' hop hd => ?_
          cases hop
          simp only [hd, hs, looser, decide_eq_true_eq] at hl
          omega
    | .neg, d | .bit _, d | .word _, d =>
      rw [balancedFrom_of_not_paren rfl] at h
      obtain ⟨hexcess, hbest⟩ := ih h
      refine ⟨by simp [scan, hexcess], ?_⟩
      exact hbest.after (fun _ => outerFrom_of_plain rfl (by simp) d rest)
        fun _ _ hs => hs.after_other rfl (by simp)

/-- A balanced list has no split exactly if no connective stands outside all parentheses. -/
theorem findSplit_eq_none_iff {ts : List Token} (h : isBalanced ts = true) :
    findSplit ts = none ↔ outer ts = [] := by
  have hf := (scan_finds h).2
  constructor
  · intro hn
    rw [show (scan ts).2 = none from hn] at hf
    exact hf
  · intro ho
    cases hs : (scan ts).2 with
    | none => exact hs
    | some s =>
      rw [hs] at hf
      have := IsLoosest.outerFrom_eq hf
      rw [show outerFrom 0 ts = [] from ho] at this
      exact absurd this.symm (by simp)

/-- A list has only one split at its loosest outer connective, the rightmost of several. -/
theorem IsLoosest.unique {ts : List Token} {s s' : Split} (h : IsLoosest 0 ts s)
    (h' : IsLoosest 0 ts s') : s = s' := by
  have hlen : s.left.length = s'.left.length := by
    rcases Nat.lt_trichotomy s.left.length s'.left.length with hlt | heq | hgt
    · exact absurd hlt (h.not_left_of h')
    · exact heq
    · exact absurd hgt (h'.not_left_of h)
  have hw := h.whole.symm.trans h'.whole
  obtain ⟨hl, hr⟩ := List.append_inj hw hlen
  obtain ⟨left, op, right⟩ := s
  obtain ⟨left', op', right'⟩ := s'
  simp_all

/-- The split of a balanced list is the one at its loosest outer connective. -/
theorem findSplit_eq_some_iff {ts : List Token} (h : isBalanced ts = true) {s : Split} :
    findSplit ts = some s ↔ IsLoosest 0 ts s := by
  have hf := (scan_finds h).2
  constructor
  · intro hs
    rwa [show (scan ts).2 = some s from hs] at hf
  · intro hs
    cases hs' : (scan ts).2 with
    | none =>
      rw [hs'] at hf
      have := hs.outerFrom_eq
      rw [show outerFrom 0 ts = [] from hf] at this
      exact absurd this.symm (by simp)
    | some s' =>
      rw [hs'] at hf
      exact (hs.unique hf) ▸ hs'

end LogicTrainer.Token
