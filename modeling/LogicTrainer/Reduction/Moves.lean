import LogicTrainer.Token.Basic

/-! Moves of a strict reduction.

A reduction works on the token list of a formula whose variables have been replaced by bits.
An operator can fire when its operands are bits; it may fire when no other that can binds
tighter. Firing puts the value in the place of the operator and its operands. -/
namespace LogicTrainer.Reduction

/-- An operator that can fire, and where it stands. -/
structure Candidate where
  index : Nat
  op : Operator
  deriving DecidableEq, Repr

def Candidate.rank (c : Candidate) : Nat := c.op.rank

/-- The operator that a token is and that can fire between its neighbours. -/
def readyBetween (before : Option Token) (t : Token) (after : Option Token) : Option Operator :=
  match t, before, after with
  | .neg, _, some (.bit _) => some .not
  | .conn op, some (.bit _), some (.bit _) => some (.binary op)
  | _, _, _ => none

/-- The operators that can fire in a list that stands at an index after a token. -/
def reducibleFrom (index : Nat) (before : Option Token) : List Token → List Candidate
  | [] => []
  | t :: rest =>
    ((readyBetween before t rest.head?).map fun op => ⟨index, op⟩).toList ++
      reducibleFrom (index + 1) (some t) rest

/-- Every operator that can fire, from left to right. -/
def reducible (ts : List Token) : List Candidate := reducibleFrom 0 none ts

/-- The highest rank among candidates. -/
def topRank (cs : List Candidate) : Nat := cs.foldl (fun top c => max top c.rank) 0

/-- The candidates that may fire: those of the highest rank. -/
def legalMoves (ts : List Token) : List Candidate :=
  let cs := reducible ts
  cs.filter fun c => c.rank == topRank cs

/-- The bit at a place. -/
def bitAt? (ts : List Token) (i : Nat) : Option Bool :=
  match ts[i]? with
  | some (.bit b) => some b
  | _ => none

/-- Fires the operator at a place. -/
def fireAt? (ts : List Token) (i : Nat) : Option (List Token) :=
  match ts[i]? with
  | some .neg => (bitAt? ts (i + 1)).map fun b => ts.take i ++ .bit (!b) :: ts.drop (i + 2)
  | some (.conn op) =>
    if i = 0 then none
    else
      match bitAt? ts (i - 1), bitAt? ts (i + 1) with
      | some left, some right =>
        some (ts.take (i - 1) ++ .bit (op.apply left right) :: ts.drop (i + 2))
      | _, _ => none
  | _ => none

/-- Why nothing fired: what stands at the index, if anything does, is not ready. -/
structure NotReducible where
  token : Option Token
  index : Int
  deriving DecidableEq, Repr

/-- Fires the operator at an index. -/
def fire (ts : List Token) (index : Int) : Except NotReducible (List Token) :=
  if index < 0 then .error ⟨none, index⟩
  else
    match fireAt? ts index.toNat with
    | some next => .ok next
    | none => .error ⟨ts[index.toNat]?, index⟩

theorem lt_length_of_bitAt? {ts : List Token} {i : Nat} {b : Bool} (h : bitAt? ts i = some b) :
    i < ts.length := by
  unfold bitAt? at h
  split at h
  · next hi => exact (List.getElem?_eq_some_iff.1 hi).1
  · simp at h

/-- Firing makes the list shorter. -/
theorem length_fireAt?_lt {ts next : List Token} {i : Nat} (h : fireAt? ts i = some next) :
    next.length < ts.length := by
  unfold fireAt? at h
  split at h
  · obtain ⟨b, hb, rfl⟩ := Option.map_eq_some_iff.1 h
    have := lt_length_of_bitAt? hb
    simp; omega
  · split at h
    · simp at h
    · split at h
      · next hr =>
        have := lt_length_of_bitAt? hr
        simp only [Option.some.injEq] at h
        subst h
        simp; omega
      · simp at h
  · simp at h

end LogicTrainer.Reduction
