import LogicTrainer.Text.Capital

/-! Capitals of capitals.

A capital has no other capital: `capital_idempotent` for characters and `upper_upper` for
texts. The table of runs is checked run against run, not letter against letter: where the
capitals of one run lie between the first and the last letter of another, both leave out
every second letter, and not the same ones. -/
namespace LogicTrainer

/-- Whether none of the numbers from `lo` to `hi` in steps of `step` is a letter of a run
from `first` to `last` in steps of `every`. -/
def avoids (lo hi step first last every : Nat) : Bool :=
  Nat.blt hi first || Nat.blt last lo ||
    ((step == 2 || lo == hi) && every == 2 && lo % 2 != first % 2)

theorem not_mem_run_of_avoids {lo hi step first last every : Nat}
    (h : avoids lo hi step first last every = true) {n : Nat} (hlo : lo ≤ n) (hhi : n ≤ hi)
    (hstep : (n - lo) % step = 0) (hfirst : first ≤ n) (hlast : n ≤ last) :
    (n - first) % every ≠ 0 := by
  simp only [avoids, Bool.or_eq_true, Bool.and_eq_true, Nat.blt_eq, beq_iff_eq, bne_iff_ne] at h
  rcases h with (h | h) | ⟨⟨hs, he⟩, hne⟩
  · omega
  · omega
  · rcases hs with rfl | rfl <;> subst he <;> omega

/-- The number of the capital of a letter in a run. -/
def shifted (n : Nat) (shift : Int) : Nat := (n + shift).toNat

/-- Whether a range of numbers holds no letter that has another capital. -/
def isCapitalRange (lo hi step : Nat) : Bool :=
  avoids lo hi step 97 122 1 &&
    (capitalRuns.all fun run => avoids lo hi step run.1 run.2.1 run.2.2.1) &&
    capitalGroups.all fun group => avoids lo hi step group.1 group.1 1

/-- A character that is in no range of letters with a capital is its own capital. -/
theorem capital_eq_self {lo hi step : Nat} (h : isCapitalRange lo hi step = true) {c : Char}
    (hlo : lo ≤ c.toNat) (hhi : c.toNat ≤ hi) (hstep : (c.toNat - lo) % step = 0) :
    capital c = [c] := by
  simp only [isCapitalRange, Bool.and_eq_true, List.all_eq_true] at h
  obtain ⟨⟨hascii, hruns⟩, hgroups⟩ := h
  unfold capital
  split
  · rw [if_neg]
    intro hc
    simp only [Bool.and_eq_true, decide_eq_true_eq] at hc
    exact not_mem_run_of_avoids hascii hlo hhi hstep hc.1 hc.2 (Nat.mod_one _)
  · have hrun : capitalRuns.find? (fun run => run.1 ≤ c.toNat && c.toNat ≤ run.2.1 &&
        (c.toNat - run.1) % run.2.2.1 == 0) = none := by
      refine List.find?_eq_none.2 fun run hr hc => ?_
      simp only [Bool.and_eq_true, decide_eq_true_eq, beq_iff_eq] at hc
      obtain ⟨⟨hfirst, hlast⟩, hevery⟩ := hc
      exact not_mem_run_of_avoids (hruns run hr) hlo hhi hstep hfirst hlast hevery
    have hgroup : capitalGroups.find? (fun group => group.1 == c.toNat) = none := by
      refine List.find?_eq_none.2 fun group hg hc => ?_
      have hc : group.1 = c.toNat := by simpa using hc
      exact not_mem_run_of_avoids (hgroups group hg) hlo hhi hstep (Nat.le_of_eq hc)
        (Nat.le_of_eq hc.symm) (Nat.mod_one _)
    rw [capitalBeyondAscii, hrun]
    simp only [hgroup]

/-- Whether all numbers from `lo` to `hi` are those of characters. -/
def isCharRange (lo hi : Nat) : Bool :=
  Nat.blt hi 0xd800 || (Nat.blt 0xdfff lo && Nat.blt hi 0x110000)

theorem toNat_ofNat {lo hi n : Nat} (h : isCharRange lo hi = true) (hlo : lo ≤ n) (hhi : n ≤ hi) :
    (Char.ofNat n).toNat = n := by
  simp only [isCharRange, Bool.or_eq_true, Bool.and_eq_true, Nat.blt_eq] at h
  have hv : n.isValidChar := by
    unfold Nat.isValidChar
    omega
  rw [Char.ofNat, dif_pos hv]
  rfl

/-- Whether the capitals of a run are characters, and none of them has another capital. -/
def isCapitalized (run : Nat × Nat × Nat × Int) : Bool :=
  let lo := shifted run.1 run.2.2.2
  let hi := shifted run.2.1 run.2.2.2
  decide (0 ≤ run.1 + run.2.2.2) && isCharRange lo hi && isCapitalRange lo hi run.2.2.1

theorem isCapitalized_of_mem : ∀ run ∈ capitalRuns, isCapitalized run = true :=
  List.all_eq_true.1 (by decide +kernel)

/-- The same of the capitals that are more than one letter. -/
theorem isCapitalRange_of_mem {group : Nat × List Nat} (hg : group ∈ capitalGroups) {n : Nat}
    (hn : n ∈ group.2) : isCharRange n n = true ∧ isCapitalRange n n 1 = true := by
  have hall : (capitalGroups.flatMap (·.2)).eraseDups.all
      (fun n => isCharRange n n && isCapitalRange n n 1) = true := by decide +kernel
  have hmem : n ∈ (capitalGroups.flatMap (·.2)).eraseDups :=
    List.mem_eraseDups.2 (List.mem_flatMap.2 ⟨group, hg, hn⟩)
  simpa using List.all_eq_true.1 hall n hmem

theorem capital_ascii_idempotent {c d : Char} (hc : c.toNat < 128) (h : d ∈ capital c) :
    capital d = [d] := by
  rw [capital, if_pos hc, List.mem_singleton] at h
  split at h
  · next hlow =>
    simp only [Bool.and_eq_true, decide_eq_true_eq] at hlow
    have hd : d.toNat = c.toNat - 32 :=
      h ▸ toNat_ofNat (show isCharRange 65 90 = true by decide) (by omega) (by omega)
    rw [capital, if_pos (by omega), if_neg]
    simp only [Bool.and_eq_true, decide_eq_true_eq]
    omega
  · next hlow => rw [h, capital, if_pos hc, if_neg hlow]

theorem capital_run_idempotent {run : Nat × Nat × Nat × Int} (hr : run ∈ capitalRuns) {n : Nat}
    (hfirst : run.1 ≤ n) (hlast : n ≤ run.2.1) (hevery : (n - run.1) % run.2.2.1 = 0) :
    capital (Char.ofNat (shifted n run.2.2.2)) = [Char.ofNat (shifted n run.2.2.2)] := by
  have hrun := isCapitalized_of_mem run hr
  simp only [isCapitalized, Bool.and_eq_true, decide_eq_true_eq] at hrun
  obtain ⟨⟨hpos, hchar⟩, hrange⟩ := hrun
  have hlo : shifted run.1 run.2.2.2 ≤ shifted n run.2.2.2 := by
    unfold shifted
    omega
  have hhi : shifted n run.2.2.2 ≤ shifted run.2.1 run.2.2.2 := by
    unfold shifted
    omega
  have hdiff : shifted n run.2.2.2 - shifted run.1 run.2.2.2 = n - run.1 := by
    unfold shifted
    omega
  have hn := toNat_ofNat hchar hlo hhi
  exact capital_eq_self hrange (by rwa [hn]) (by rwa [hn]) (by rwa [hn, hdiff])

/-- A capital has no other capital. -/
theorem capital_idempotent {c d : Char} (h : d ∈ capital c) : capital d = [d] := by
  by_cases hc : c.toNat < 128
  · exact capital_ascii_idempotent hc h
  have hcapital : capital c = capitalBeyondAscii c := by rw [capital, if_neg hc]
  rw [hcapital] at h
  unfold capitalBeyondAscii at h
  split at h
  · next run hr =>
    have hmatch := List.find?_some hr
    simp only [Bool.and_eq_true, decide_eq_true_eq, beq_iff_eq] at hmatch
    rw [List.mem_singleton.1 h]
    exact capital_run_idempotent (List.mem_of_find?_eq_some hr) hmatch.1.1 hmatch.1.2 hmatch.2
  · next hr =>
    split at h
    · next group hg =>
      obtain ⟨n, hn, rfl⟩ := List.mem_map.1 h
      obtain ⟨hchar, hrange⟩ := isCapitalRange_of_mem (List.mem_of_find?_eq_some hg) hn
      have hnat := toNat_ofNat hchar (Nat.le_refl n) (Nat.le_refl n)
      exact capital_eq_self hrange (Nat.le_of_eq hnat.symm) (Nat.le_of_eq hnat) (Nat.mod_one _)
    · next hg =>
      -- a letter outside the table is its own capital
      rw [List.mem_singleton.1 h, hcapital, capitalBeyondAscii, hr]
      simp only [hg]

/-- The capital form of a text has no other capital form. -/
theorem Text.upper_upper (t : Text) : t.upper.upper = t.upper := by
  have hall : ∀ d ∈ t.upper, capital d = [d] := by
    intro d hd
    obtain ⟨c, _, hd⟩ := List.mem_flatMap.1 hd
    exact capital_idempotent hd
  generalize t.upper = u at hall
  induction u with
  | nil => rfl
  | cons d u ih =>
    have hu := ih fun e he => hall e (List.mem_cons_of_mem _ he)
    rw [Text.upper] at hu
    rw [Text.upper, List.flatMap_cons, hall d List.mem_cons_self, hu]
    rfl

end LogicTrainer
