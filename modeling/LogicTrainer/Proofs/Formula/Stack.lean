import LogicTrainer.Proofs.Formula.Depth

/-! The stack that a formula is read on.

Reading stops at the first level for which no call is left on the stack or no operator is allowed
any more. What is reported is the same in both cases, so reading on a stack is reading with the
depth that the stack has room for (`parseOn_eq_parse`). Which of the two it was shows in how
reading stopped: where the stack was not used up (`StackSuffices`), it makes no difference
(`StackSuffices.parseOn_eq`), and for a list that spells a formula this goes by the depth of the
formula alone (`stackSuffices_iff_of_spells`). -/
namespace LogicTrainer.Formula
open Token

/-! ### One level -/

section
variable {ε ε' : Type} {fail : ParseFailure → ε} {operand : List Token → Except ε Formula}

/-- Failures may be renamed before reading or after it. -/
theorem parseLevel_mapError (g : ε → ε') (ts : List Token) :
    (parseLevel fail operand ts).mapError g =
      parseLevel (fun cause => g (fail cause)) (fun us => (operand us).mapError g) ts := by
  unfold parseLevel
  split
  · rfl
  · split <;> rfl
  · next t rest _ _ =>
    split
    · next s _ =>
      cases hleft : operand s.left with
      | error e => simp only [hleft]; rfl
      | ok left => cases hright : operand s.right <;> simp only [hleft, hright] <;> rfl
    · split
      · cases hrest : operand rest <;> simp only [hrest] <;> rfl
      · rfl

/-- A level fails for a reason of its own, which is not its depth, or as an operand does. -/
theorem parseLevel_eq_error {ts : List Token} {e : ε} (h : parseLevel fail operand ts = .error e) :
    (∃ cause, cause ≠ .tooDeep ∧ e = fail cause) ∨ ∃ us, operand us = .error e := by
  unfold parseLevel at h
  split at h
  · cases h
    exact .inl ⟨.emptyOperand, by simp, rfl⟩
  · split at h
    · cases h
    · cases h
      exact .inl ⟨.unrecognizedToken, by simp, rfl⟩
  · next t rest _ _ =>
    split at h
    · next s _ =>
      cases hleft : operand s.left with
      | error e' =>
        rw [hleft] at h
        cases h
        exact .inr ⟨_, hleft⟩
      | ok left =>
        cases hright : operand s.right with
        | error e' =>
          rw [hleft, hright] at h
          cases h
          exact .inr ⟨_, hright⟩
        | ok right =>
          rw [hleft, hright] at h
          cases h
    · split at h
      · cases hrest : operand rest with
        | error e' =>
          rw [hrest] at h
          cases h
          exact .inr ⟨_, hrest⟩
        | ok f =>
          rw [hrest] at h
          cases h
      · cases h
        exact .inl ⟨.malformed, by simp, rfl⟩

end

/-! ### The levels of a list -/

section
variable {stack room : Nat} {ts : List Token}

/-- What is reported is what reading with the smaller of the two bounds reports. -/
theorem parseBalancedOn_mapError (stack room : Nat) (ts : List Token) :
    (parseBalancedOn stack room ts).mapError Stop.cause = parseBalanced (min stack room) ts := by
  induction stack generalizing room ts with
  | zero =>
    rw [Nat.zero_min]
    rfl
  | succ stack ih =>
    cases room with
    | zero => rfl
    | succ room =>
      rw [parseBalancedOn, parseLevel_mapError, Nat.succ_min_succ, parseBalanced]
      exact congrArg (parseLevel (fun cause => cause) · ts) (funext (ih room))

/-- The stack is used up only where it has no more room than is allowed. -/
theorem le_of_parseBalancedOn_stackFull (h : parseBalancedOn stack room ts = .error .stackFull) :
    stack ≤ room := by
  induction stack generalizing room ts with
  | zero => exact Nat.zero_le room
  | succ stack ih =>
    cases room with
    | zero => cases h
    | succ room =>
      rcases parseLevel_eq_error h with ⟨cause, -, hcause⟩ | ⟨us, hus⟩
      · cases hcause
      · exact Nat.succ_le_succ (ih hus)

/-- A list is too deep for what is allowed only where the stack has room for more. -/
theorem lt_of_parseBalancedOn_tooDeep
    (h : parseBalancedOn stack room ts = .error (.failure .tooDeep)) : room < stack := by
  induction stack generalizing room ts with
  | zero => cases h
  | succ stack ih =>
    cases room with
    | zero => exact Nat.succ_pos stack
    | succ room =>
      rcases parseLevel_eq_error h with ⟨cause, hne, hcause⟩ | ⟨us, hus⟩
      · cases hcause
        exact absurd rfl hne
      · exact Nat.succ_lt_succ (ih hus)

/-- The stack is used up by a list that is too deep for as much as it has room for. -/
theorem parseBalancedOn_eq_stackFull_iff : parseBalancedOn stack room ts = .error .stackFull ↔
    stack ≤ room ∧ parseBalanced stack ts = .error .tooDeep := by
  have hreport := parseBalancedOn_mapError stack room ts
  constructor
  · intro h
    have hle := le_of_parseBalancedOn_stackFull h
    rw [h, Nat.min_eq_left hle] at hreport
    exact ⟨hle, hreport.symm⟩
  · rintro ⟨hle, hdeep⟩
    rw [Nat.min_eq_left hle, hdeep] at hreport
    cases hstop : parseBalancedOn stack room ts with
    | ok f =>
      rw [hstop] at hreport
      cases hreport
    | error stop =>
      cases stop with
      | stackFull => rfl
      | failure cause =>
        rw [hstop] at hreport
        cases hreport
        exact absurd (lt_of_parseBalancedOn_tooDeep hstop) (Nat.not_lt.2 hle)

end

/-! ### Reading -/

/-- Reading on a stack is reading with the depth that it has room for. -/
theorem parseOn_eq_parse (stack : Nat) (maxDepth : Int) (ts : List Token) :
    parseOn stack maxDepth ts = parse (allowedDepth stack maxDepth) ts := by
  have hroom : (allowedDepth stack maxDepth + 1).toNat = min stack (maxDepth + 1).toNat := by
    rw [allowedDepth]
    omega
  rw [parseOn, readOn, parse, hroom]
  split
  · exact parseBalancedOn_mapError _ _ ts
  · rfl

/-- The stack has room for all calls that reading a list takes. -/
def StackSuffices (stack : Nat) (maxDepth : Int) (ts : List Token) : Prop :=
  readOn stack maxDepth ts ≠ .error .stackFull

section
variable {stack : Nat} {maxDepth : Int} {ts : List Token}

instance : Decidable (StackSuffices stack maxDepth ts) := inferInstanceAs (Decidable (_ ≠ _))

/-- The stack is used up where the list goes deeper than it has room for, and that is allowed. -/
theorem not_stackSuffices_iff : ¬ StackSuffices stack maxDepth ts ↔
    stack ≤ (maxDepth + 1).toNat ∧ parse (stack - 1) ts = .error .tooDeep := by
  have hroom : ((stack : Int) - 1 + 1).toNat = stack := by omega
  rw [StackSuffices, Decidable.not_not, readOn, parse, hroom]
  split
  · exact parseBalancedOn_eq_stackFull_iff
  · simp

/-- A stack with room for more than is allowed is never used up. -/
theorem stackSuffices_of_lt (h : (maxDepth + 1).toNat < stack) : StackSuffices stack maxDepth ts :=
  Decidable.not_not.1 fun hnot => Nat.not_lt.2 (not_stackSuffices_iff.1 hnot).1 h

/-- Where the stack suffices it makes no difference. -/
theorem StackSuffices.parseOn_eq (h : StackSuffices stack maxDepth ts) :
    parseOn stack maxDepth ts = parse maxDepth ts := by
  rw [parseOn_eq_parse]
  by_cases hle : maxDepth ≤ stack - 1
  · rw [allowedDepth, Int.min_eq_left hle]
  · have hlt : (stack : Int) - 1 ≤ maxDepth := by omega
    rw [allowedDepth, Int.min_eq_right hlt]
    refine (parse_mono hlt fun hdeep => h.elim ?_).symm
    exact Decidable.not_not.1 (not_stackSuffices_iff.2 ⟨by omega, hdeep⟩)

/-- Where it does not, the list is too deep. -/
theorem parseOn_of_not_stackSuffices (h : ¬ StackSuffices stack maxDepth ts) :
    parseOn stack maxDepth ts = .error .tooDeep := by
  rw [parseOn, Decidable.not_not.1 h]
  rfl

/-- A list that spells a formula takes one call more than the formula is deep, or is allowed to
be. -/
theorem stackSuffices_iff_of_spells {f : Formula} (h : Spells ts f) :
    StackSuffices stack maxDepth ts ↔ f.depth < stack ∨ (maxDepth + 1).toNat < stack := by
  rw [← Decidable.not_iff_not, not_stackSuffices_iff, parse_of_spells h]
  split
  · next hd =>
    simp only [reduceCtorEq, and_false, false_iff, Decidable.not_not]
    exact .inl (by omega)
  · next hd =>
    simp only [and_true]
    omega

end
end LogicTrainer.Formula
