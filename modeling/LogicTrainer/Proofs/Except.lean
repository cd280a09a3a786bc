/-! Computations that may fail.

A computation in steps gives a result when all of its steps do, so a result is traced back step by
step. -/
namespace LogicTrainer
variable {ε ε' α β : Type} {x : Except ε α}

/-- A computation in two steps gives a result when both steps do. -/
theorem bind_eq_ok {g : α → Except ε β} {b : β} :
    x >>= g = .ok b ↔ ∃ a, x = .ok a ∧ g a = .ok b := by
  cases x with
  | error e => exact ⟨(fun h => by cases h), (fun ⟨_, h, _⟩ => by cases h)⟩
  | ok a => exact ⟨(fun h => ⟨a, rfl, h⟩), (fun ⟨_, h, hg⟩ => by cases h; exact hg)⟩

theorem map_eq_ok {f : α → β} {b : β} : x.map f = .ok b ↔ ∃ a, x = .ok a ∧ f a = b := by
  cases x with
  | error e => exact ⟨(fun h => by cases h), (fun ⟨_, h, _⟩ => by cases h)⟩
  | ok a => exact ⟨(fun h => ⟨a, rfl, Except.ok.inj h⟩), (fun ⟨_, h, hf⟩ => by cases h; rw [← hf]; rfl)⟩

/-- What a failure is called makes no difference to a result. -/
theorem mapError_eq_ok {f : ε → ε'} {a : α} : x.mapError f = .ok a ↔ x = .ok a := by
  cases x with
  | error e => exact ⟨(fun h => by cases h), (fun h => by cases h)⟩
  | ok a => exact ⟨(fun h => by cases h; rfl), (fun h => by cases h; rfl)⟩

theorem foldlM_cons_ok {step : β → α → Except ε β} {a : α} {b b' : β} (h : step b a = .ok b')
    (items : List α) : (a :: items).foldlM step b = items.foldlM step b' := by
  rw [List.foldlM_cons, h]
  rfl

/-- What every step of a fold keeps, the whole fold keeps. -/
theorem foldlM_invariant {P : β → Prop} {step : β → α → Except ε β}
    (hstep : ∀ b a b', P b → step b a = .ok b' → P b') {items : List α} {b b' : β} (h : P b)
    (hfold : items.foldlM step b = .ok b') : P b' := by
  induction items generalizing b with
  | nil =>
    cases hfold
    exact h
  | cons a items ih =>
    rw [List.foldlM_cons] at hfold
    obtain ⟨b₁, hfirst, hrest⟩ := bind_eq_ok.1 hfold
    exact ih (hstep b a b₁ h hfirst) hrest

end LogicTrainer
