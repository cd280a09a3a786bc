import LogicTrainer.Proofs.Assignment
import LogicTrainer.CommandLine.Commands

/-! Variables that are set more than once.

The names of pairs are told apart as they are typed until all pairs are taken, and only then written
in capitals. So of the spellings of one variable it is the one that was met last for the first time
that decides, with the value that it was last set to (`get?_assignmentOf`), and the last pair decides
whatever the values are just where it has this spelling. With the names in capitals from the start
there is one spelling, and the last pair always decides (`get?_assignmentOf_capitalized`).

The main statement is `newest_spelling_decides`. -/
namespace LogicTrainer

/-- A text is cut where the mark stands first. -/
theorem Text.cut_eq_some_iff {mark : Char} {t a b : Text} :
    t.cut mark = some (a, b) ↔ mark ∉ a ∧ t = a ++ mark :: b := by
  constructor
  · intro h
    have hwhole := List.takeWhile_append_dropWhile (p := (· != mark)) (l := t)
    have hhead := List.head?_dropWhile_not (· != mark) t
    have hbefore := List.all_takeWhile (p := (· != mark)) (l := t)
    unfold cut at h
    split at h
    · cases h
    · next c rest hrest =>
      obtain ⟨rfl, rfl⟩ := Prod.mk.inj (Option.some.inj h)
      rw [hrest] at hwhole hhead
      obtain rfl : c = mark := by simpa using hhead
      refine ⟨fun hmem => ?_, hwhole.symm⟩
      simpa using List.all_eq_true.1 hbefore _ hmem
  · rintro ⟨hmem, rfl⟩
    have hbefore : ∀ c ∈ a, (c != mark) = true := fun c hc => by
      simpa using fun heq : c = mark => hmem (heq ▸ hc)
    simp [cut, List.takeWhile_append_of_pos hbefore, List.dropWhile_append_of_pos hbefore]

namespace CommandLine

/-- The truth value that a typed value means. -/
def meantBy (value : Text) : Bool := Assignment.coerce (.str value)

/-- What the last of the pairs sets whose names pass a test. -/
def lastSet? (p : Text → Bool) (pairs : List Pair) : Option Bool :=
  ((pairs.filter fun pair => p pair.1).getLast?).map fun pair => meantBy pair.2

/-- Of the spellings of a variable, the one that is met last for the first time. -/
def newestSpelling? (names : List Text) (v : Text) : Option Text :=
  (names.eraseDups.filter fun name => name.upper == v).getLast?

/-- Of the names of a variable, the last. -/
def lastSpelling? (names : List Text) (v : Text) : Option Text :=
  (names.filter fun name => name.upper == v).getLast?

/-- Pairs with their names in capitals. -/
def capitalized (pairs : List Pair) : List Pair := pairs.map fun pair => (pair.1.upper, pair.2)

/-! ### Spellings -/

section
variable {names : List Text} {v name : Text}

theorem mem_of_newestSpelling? (h : newestSpelling? names v = some name) :
    name ∈ names ∧ name.upper = v := by
  obtain ⟨hmem, hname⟩ := List.mem_filter.1 (List.mem_of_getLast? h)
  exact ⟨List.mem_eraseDups.1 hmem, eq_of_beq hname⟩

theorem newestSpelling?_eq_none_iff :
    newestSpelling? names v = none ↔ ∀ name ∈ names, name.upper ≠ v := by
  simp [newestSpelling?]

theorem lastSpelling?_eq_none_iff :
    lastSpelling? names v = none ↔ ∀ name ∈ names, name.upper ≠ v := by
  simp [lastSpelling?]

end

/-- Nothing is set by no pair. -/
theorem lastSet?_eq_none {p : Text → Bool} {pairs : List Pair}
    (h : ∀ name ∈ pairs.map (·.1), p name = false) : lastSet? p pairs = none := by
  have hnil : pairs.filter (fun pair => p pair.1) = [] :=
    List.filter_eq_nil_iff.2 fun pair hpair => by simp [h _ (List.mem_map_of_mem hpair)]
  rw [lastSet?, hnil]
  rfl

section
variable (pairs : List Pair)

/-- Where the last of the names of a variable is in a spelling, the last of its pairs is the last in
this spelling. -/
theorem lastSet?_of_lastSpelling? {v name : Text}
    (h : lastSpelling? (pairs.map (·.1)) v = some name) :
    lastSet? (fun name => name.upper == v) pairs = lastSet? (· == name) pairs := by
  rw [lastSpelling?, List.filter_map, List.getLast?_map, Option.map_eq_some_iff] at h
  obtain ⟨pair, hpair, rfl⟩ := h
  obtain ⟨front, hfront⟩ := List.getLast?_eq_some_iff.1 hpair
  have hupper : pair.1.upper = v :=
    eq_of_beq (List.mem_filter.1 (List.mem_of_getLast? hpair)).2
  have hspelled : pairs.filter (fun other => other.1 == pair.1) =
      (pairs.filter fun other => other.1.upper == v).filter fun other => other.1 == pair.1 := by
    rw [List.filter_filter]
    refine List.filter_congr fun other _ => ?_
    by_cases hother : other.1 = pair.1 <;> simp [hother, hupper]
  have hfront : pairs.filter (fun other => other.1.upper == v) = front ++ [pair] := hfront
  rw [lastSet?, lastSet?, hspelled, hfront, List.filter_append]
  simp

/-! ### What is assigned -/

theorem assignmentOf_eq : assignmentOf pairs =
    Entries.ofPairs ((Entries.ofPairs pairs).map fun pair => (pair.1.upper, meantBy pair.2)) := by
  rw [assignmentOf, Assignment.normalize, List.map_map]
  rfl

/-- The newest spelling decides, with the value that it was last set to. -/
theorem get?_assignmentOf (v : Text) : Entries.get? v (assignmentOf pairs) =
    (newestSpelling? (pairs.map (·.1)) v).bind fun name => lastSet? (· == name) pairs := by
  have hlast := Entries.getLast?_filter (Entries.ofPairs_keys_nodup pairs) fun name => name.upper == v
  rw [Entries.keys_ofPairs] at hlast
  rw [assignmentOf_eq, Entries.get?_ofPairs, List.filter_map, List.getLast?_map, Option.map_map]
  show Option.map (meantBy ∘ Prod.snd) _ = _
  rw [← Option.map_map, Function.comp_def]
  rw [hlast, Option.map_bind]
  refine Option.bind_congr fun name _ => ?_
  rw [Function.comp_apply, Entries.get?_ofPairs, Option.map_map]
  rfl

/-- With names in capitals, the last pair decides. -/
theorem get?_assignmentOf_capitalized (v : Text) :
    Entries.get? v (assignmentOf (capitalized pairs)) =
      lastSet? (fun name => name.upper == v) pairs := by
  have hnames : (capitalized pairs).map (·.1) = (pairs.map (·.1)).map Text.upper := by
    simp [capitalized]
  have hset : lastSet? (fun name => name.upper == v) pairs = lastSet? (· == v) (capitalized pairs) := by
    simp [lastSet?, capitalized, List.filter_map, List.getLast?_map, Function.comp_def]
  rw [get?_assignmentOf, hset, hnames]
  cases hnewest : newestSpelling? ((pairs.map (·.1)).map Text.upper) v with
  | none =>
    refine (lastSet?_eq_none fun name hn => ?_).symm
    rw [hnames] at hn
    have := newestSpelling?_eq_none_iff.1 hnewest name hn
    obtain ⟨typed, -, rfl⟩ := List.mem_map.1 hn
    rw [Text.upper_upper] at this
    simpa using this
  | some name =>
    obtain ⟨hn, hupper⟩ := mem_of_newestSpelling? hnewest
    obtain ⟨typed, -, rfl⟩ := List.mem_map.1 hn
    rw [Text.upper_upper] at hupper
    rw [Option.bind_some, hupper]

/-- Capitals from the start do not change the order of the variables. -/
theorem keys_assignmentOf_capitalized :
    Entries.keys (assignmentOf (capitalized pairs)) = Entries.keys (assignmentOf pairs) := by
  have hkeys : ∀ pairs : List Pair, Entries.keys (assignmentOf pairs) =
      ((pairs.map (·.1)).map Text.upper).eraseDups := by
    intro pairs
    rw [assignmentOf, Assignment.keys_normalize, Entries.keys_map Json.str, Entries.keys_ofPairs,
      Entries.eraseDups_map_eraseDups]
    rfl
  rw [hkeys, hkeys]
  simp [capitalized, Function.comp_def, Text.upper_upper]

/-- The assignments are the same where the values are. -/
theorem assignmentOf_eq_capitalized_iff : assignmentOf pairs = assignmentOf (capitalized pairs) ↔
    ∀ v, Entries.get? v (assignmentOf pairs) = lastSet? (fun name => name.upper == v) pairs := by
  constructor
  · intro h v
    rw [h, get?_assignmentOf_capitalized]
  · intro h
    refine Entries.ext_of_get? (Entries.ofPairs_keys_nodup _)
      (keys_assignmentOf_capitalized pairs).symm fun v _ => ?_
    rw [h, get?_assignmentOf_capitalized]

end

/-! ### Other values -/

/-- A name that can be set can be set to each bit. -/
theorem exists_pair?_bit {t : Text} {pair : Pair} (h : pair? t = some pair) (b : Bool) :
    ∃ t, pair? t = some (pair.1, Atom.bit b) := by
  unfold pair? at h
  split at h
  · cases h
  · next name value hcut =>
    split at h
    · cases h
    · next hname =>
      obtain rfl := Option.some.inj h
      obtain ⟨hmem, -⟩ := Text.cut_eq_some_iff.1 hcut
      have hname : name.stripped.isEmpty = false := by
        rw [Bool.or_eq_true, not_or] at hname
        exact Bool.eq_false_iff.2 hname.1
      have hvalue : (Atom.bit b).stripped = Atom.bit b ∧
          pairValues.contains (Atom.bit b).upper = true := by
        cases b <;> decide
      refine ⟨name ++ '=' :: Atom.bit b, ?_⟩
      simp only [pair?, Text.cut_eq_some_iff.2 ⟨hmem, rfl⟩, hname, hvalue.1, hvalue.2]
      rfl

/-- Pairs of given names that set one spelling to true and all others to false. -/
def settingOnly (name : Text) (names : List Text) : List Pair :=
  names.map fun other => (other, Atom.bit (other == name))

theorem names_settingOnly (name : Text) (names : List Text) :
    (settingOnly name names).map (·.1) = names := by
  rw [settingOnly, List.map_map]
  exact List.map_id names

theorem lastSet?_settingOnly (names : List Text) (name : Text) (p : Text → Bool) :
    lastSet? p (settingOnly name names) = ((names.filter p).getLast?).map (· == name) := by
  have hbit : ∀ b, meantBy (Atom.bit b) = b := by decide
  rw [lastSet?, settingOnly, List.filter_map, List.getLast?_map, Option.map_map]
  simp [Function.comp_def, hbit]

/-- Where the last pair decides whatever the values are, it has the newest spelling. -/
theorem newestSpelling?_eq_of_decides {names : List Text} {v last : Text}
    (hlast : lastSpelling? names v = some last)
    (h : Entries.get? v (assignmentOf (settingOnly last names)) =
      lastSet? (fun name => name.upper == v) (settingOnly last names)) :
    newestSpelling? names v = some last := by
  have hlast' : (names.filter fun name => name.upper == v).getLast? = some last := hlast
  rw [get?_assignmentOf, names_settingOnly, lastSet?_settingOnly, hlast', Option.map_some, beq_self_eq_true,
    Option.bind_eq_some_iff] at h
  obtain ⟨name, hnewest, hset⟩ := h
  rw [lastSet?_settingOnly, Option.map_eq_some_iff] at hset
  obtain ⟨other, hother, hsame⟩ := hset
  have hspelled : other = name := eq_of_beq (List.mem_filter.1 (List.mem_of_getLast? hother)).2
  rw [hnewest, ← hspelled, eq_of_beq hsame]

/-- Of pairs that set a variable in several spellings, the last pair of the spelling that is met
last for the first time decides. With the names in capitals from the start the last pair always
decides, and the two come to the same exactly if it does without that. -/
theorem newest_spelling_decides (pairs : List Pair)
    (haccepted : ∀ pair ∈ pairs, ∃ t, pair? t = some pair) :
    (∀ v, Entries.get? v (assignmentOf pairs) =
      (newestSpelling? (pairs.map (·.1)) v).bind fun name => lastSet? (· == name) pairs) ∧
    (∀ v, (∀ others : List Pair, others.map (·.1) = pairs.map (·.1) →
        (∀ pair ∈ others, ∃ t, pair? t = some pair) →
        Entries.get? v (assignmentOf others) = lastSet? (fun name => name.upper == v) others) ↔
      newestSpelling? (pairs.map (·.1)) v = lastSpelling? (pairs.map (·.1)) v) ∧
    (∀ v, Entries.get? v (assignmentOf (capitalized pairs)) =
      lastSet? (fun name => name.upper == v) pairs) ∧
    Entries.keys (assignmentOf (capitalized pairs)) = Entries.keys (assignmentOf pairs) ∧
    (assignmentOf pairs = assignmentOf (capitalized pairs) ↔
      ∀ v, Entries.get? v (assignmentOf pairs) = lastSet? (fun name => name.upper == v) pairs) := by
  refine ⟨get?_assignmentOf pairs, fun v => ⟨fun h => ?_, fun h others hnames _ => ?_⟩,
    get?_assignmentOf_capitalized pairs, keys_assignmentOf_capitalized pairs,
    assignmentOf_eq_capitalized_iff pairs⟩
  · cases hlast : lastSpelling? (pairs.map (·.1)) v with
    | none => exact newestSpelling?_eq_none_iff.2 (lastSpelling?_eq_none_iff.1 hlast)
    | some last =>
      refine newestSpelling?_eq_of_decides hlast (h _ (names_settingOnly _ _) fun pair hpair => ?_)
      obtain ⟨name, hname, rfl⟩ := List.mem_map.1 hpair
      obtain ⟨typed, htyped, rfl⟩ := List.mem_map.1 hname
      obtain ⟨t, ht⟩ := haccepted typed htyped
      exact exists_pair?_bit ht _
  · rw [← hnames] at h
    rw [get?_assignmentOf, h]
    cases hlast : lastSpelling? (others.map (·.1)) v with
    | none =>
      refine (lastSet?_eq_none fun name hn => ?_).symm
      simpa using lastSpelling?_eq_none_iff.1 hlast name hn
    | some last => exact (lastSet?_of_lastSpelling? others hlast).symm

/-- The last of two spellings decides. Where the first comes once more, it does not. -/
theorem newest_spelling_decides_two_spellings :
    let pairs : List Pair := [(['P'], ['1']), (['p'], "false".toList), (['P'], ['T'])]
    (∀ pair ∈ pairs, ∃ t, pair? t = some pair) ∧
    (∀ others : List Pair, others.map (·.1) = [['P'], ['p']] →
      (∀ pair ∈ others, ∃ t, pair? t = some pair) →
      Entries.get? ['P'] (assignmentOf others) = lastSet? (fun name => name.upper == ['P']) others) ∧
    Entries.get? ['P'] (assignmentOf pairs) = some false ∧
    Entries.get? ['P'] (assignmentOf (capitalized pairs)) = some true ∧
    assignmentOf pairs ≠ assignmentOf (capitalized pairs) := by
  intro pairs
  have haccepted : ∀ pair ∈ pairs, ∃ t, pair? t = some pair := by
    intro pair hpair
    have : pair = pairs[0] ∨ pair = pairs[1] ∨ pair = pairs[2] := by simpa [pairs] using hpair
    rcases this with rfl | rfl | rfl
    · exact ⟨"P=1".toList, by decide +kernel⟩
    · exact ⟨" p = false".toList, by decide +kernel⟩
    · exact ⟨"P=T".toList, by decide +kernel⟩
  obtain ⟨hvalue, -, hcapital, -, hsame⟩ := newest_spelling_decides pairs haccepted
  obtain ⟨-, hdecides, -⟩ := newest_spelling_decides (pairs.take 2)
    fun pair hpair => haccepted pair (List.mem_of_mem_take hpair)
  have hfalse : Entries.get? ['P'] (assignmentOf pairs) = some false :=
    (hvalue ['P']).trans (by decide +kernel)
  have htrue : lastSet? (fun name => name.upper == ['P']) pairs = some true := by decide +kernel
  refine ⟨haccepted, (hdecides ['P']).2 (by decide +kernel), hfalse, (hcapital ['P']).trans htrue,
    fun h => ?_⟩
  have hlast := hsame.1 h ['P']
  rw [hfalse, htrue] at hlast
  cases hlast

/-- A name that is set once more keeps its place, so the other spelling comes after it. -/
theorem repeated_name_keeps_its_place :
    pairsOf ["P=1".toList, "p=0".toList, "P=1".toList] =
        .ok [(['P'], ['1']), (['p'], ['0']), (['P'], ['1'])] ∧
      Entries.get? ['P'] (assignmentOf [(['P'], ['1']), (['p'], ['0']), (['P'], ['1'])]) =
        some false ∧
      lastSet? (fun name => name.upper == ['P']) [(['P'], ['1']), (['p'], ['0']), (['P'], ['1'])] =
        some true ∧
      eval defaultMaxDepth ['P'] [(['P'], ['1']), (['p'], ['0']), (['P'], ['1'])] = ⟨[['0']], 0⟩ :=
  ⟨by rfl, by decide +kernel, by decide +kernel, by decide +kernel⟩

end CommandLine
end LogicTrainer
