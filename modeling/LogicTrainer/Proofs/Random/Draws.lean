import LogicTrainer.Random.Source

/-! What can be drawn.

What a computation draws depends on the state of its source. `Yields` says that there is a state
in which a value is drawn, and takes a computation apart: what two steps yield is yielded by the
second, after something that the first yields (`Yields.exists_of_bind`), and a choice yields one
of its items (`Yields.mem_of_choose`). What holds of all that is yielded holds for every
source.

A computation may also fail, where there is nothing to choose from. `Always` says that in every
state something is drawn that has a property, and is put together from steps the other way: what
the first step always draws is all that the second has to work for (`Always.bind`). -/
namespace LogicTrainer.Draw
variable {σ α β : Type}

/-- In some state of the source, a value is drawn. -/
def Yields (m : Draw σ α) (a : α) : Prop := ∃ s s', m s = .ok (a, s')

theorem Yields.eq_of_pure {a b : α} (h : Yields (pure a : Draw σ α) b) : b = a := by
  obtain ⟨s, s', h⟩ := h
  cases h
  rfl

/-- Two steps yield what the second yields after the first. -/
theorem Yields.exists_of_bind {m : Draw σ α} {k : α → Draw σ β} {b : β} (h : Yields (m >>= k) b) :
    ∃ a, Yields m a ∧ Yields (k a) b := by
  obtain ⟨s, s', h⟩ := h
  have h : (m s >>= fun (a, s) => k a s) = .ok (b, s') := h
  cases hm : m s with
  | error e =>
    rw [hm] at h
    cases h
  | ok r =>
    rw [hm] at h
    exact ⟨r.1, ⟨s, r.2, hm⟩, r.2, s', h⟩

/-- A choice yields one of its items. -/
theorem Yields.mem_of_choose {src : Source σ} {items : List α} {a : α}
    (h : Yields (src.choose items) a) : a ∈ items := by
  obtain ⟨s, s', h⟩ := h
  cases items with
  | nil => cases h
  | cons item rest =>
    cases h
    exact List.get_mem _ _

/-! ### What is always drawn -/

/-- In every state of the source, something with a property is drawn. -/
def Always (m : Draw σ α) (P : α → Prop) : Prop := ∀ s, ∃ a s', m s = .ok (a, s') ∧ P a

section
variable {m : Draw σ α} {k : α → Draw σ β} {P : α → Prop} {Q : β → Prop}

theorem Always.pure {a : α} (h : P a) : Always (Pure.pure a : Draw σ α) P := fun s => ⟨a, s, rfl, h⟩

theorem Always.mono {P' : α → Prop} (h : Always m P) (himp : ∀ a, P a → P' a) : Always m P' := by
  intro s
  obtain ⟨a, s', ha, hP⟩ := h s
  exact ⟨a, s', ha, himp a hP⟩

/-- The second step goes on from what the first has drawn. -/
theorem bind_eq_of_eq_ok {s s' : σ} {a : α} (h : m s = .ok (a, s')) : (m >>= k) s = k a s' := by
  show (m s >>= fun (a, s) => k a s) = _
  rw [h]
  rfl

theorem Always.bind (hm : Always m P) (hk : ∀ a, P a → Always (k a) Q) : Always (m >>= k) Q := by
  intro s
  obtain ⟨a, s', ha, hP⟩ := hm s
  rw [bind_eq_of_eq_ok ha]
  exact hk a hP s'

end

section
variable (src : Source σ)

theorem always_choose {items : List α} (h : items ≠ []) : Always (src.choose items) (· ∈ items) := by
  cases items with
  | nil => exact absurd rfl h
  | cons item rest => exact fun s => ⟨_, _, rfl, List.get_mem _ _⟩

/-- What happens has a chance. -/
theorem always_happens (c : Chance) : Always (src.happens c) fun b => b = true → 0 < c.num := by
  refine fun s => ⟨_, _, rfl, fun hb => ?_⟩
  have hlt : ((src.roll s).1.num : Int) * c.den < c.num * (src.roll s).1.den := of_decide_eq_true hb
  have hpos : 0 < c.num * ((src.roll s).1.den : Int) :=
    Int.lt_of_le_of_lt (Int.mul_nonneg (Int.natCast_nonneg _) (Int.natCast_nonneg _)) hlt
  have hden : 0 < (src.roll s).1.den := Nat.lt_of_le_of_lt (Nat.zero_le _) (src.roll s).1.num_lt_den
  exact Int.pos_of_mul_pos_left hpos (Int.natCast_pos.2 hden)

theorem always_between {low high : Int} (h : low ≤ high) :
    Always (src.between low high) fun n => low ≤ n ∧ n ≤ high := by
  intro s
  rw [Source.between, if_neg (Int.not_lt.2 h)]
  refine ⟨_, _, rfl, ?_⟩
  have := (src.place (high - low).toNat s).1.isLt
  omega

end

end LogicTrainer.Draw
