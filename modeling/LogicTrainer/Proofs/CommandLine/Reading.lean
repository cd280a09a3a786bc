import LogicTrainer.CommandLine.Request
import LogicTrainer.Proofs.CommandLine.Pairs
import LogicTrainer.Proofs.Except
import LogicTrainer.Proofs.Text.Numeral

/-! Reading the command line.

Whatever the arguments are, a request that is read sets only pairs that can be typed
(`isTyped_of_read`): every event that a command takes keeps this of what is given so far
(`Given.IsTyped.take`). And every request can be asked for: typed in one way (`Invocation.typed`),
with all its options before the formula and two strokes between them, it is read back
(`read_typed`), whatever the formula starts with. -/
namespace LogicTrainer.CommandLine
open Text

/-! ### Pairs -/

/-- A pair as it is typed. -/
def Pair.typed (p : Pair) : Text := p.1 ++ '=' :: p.2

/-- A pair that may be typed: its name is not empty, it sets a truth value, and there are no blanks
around either. -/
def Pair.IsTyped (p : Pair) : Prop := pair? p.typed = some p

instance (p : Pair) : Decidable p.IsTyped := inferInstanceAs (Decidable (_ = _))

/-- What a text sets could have been typed without blanks. -/
theorem isTyped_of_pair? {t : Text} {p : Pair} (h : pair? t = some p) : p.IsTyped := by
  unfold pair? at h
  split at h
  · cases h
  · next name value hcut =>
    split at h
    · cases h
    · next hvalid =>
      obtain rfl := Option.some.inj h
      have hmark : '=' ∉ name.stripped := fun hmem =>
        (cut_eq_some_iff.1 hcut).1 (mem_of_mem_trim hmem)
      rw [Pair.IsTyped, pair?, Pair.typed, cut_eq_some_iff.2 ⟨hmark, rfl⟩]
      simp only [stripped_stripped]
      exact if_neg hvalid

/-! ### What is read -/

/-- The pairs of a request. -/
def Request.pairs : Request → List Pair
  | .eval _ pairs | .reduce _ pairs _ => pairs
  | .canon _ | .table _ | .generate .. => []

theorem isTyped_of_pairsOf {texts : List Text} {pairs : List Pair} (h : pairsOf texts = .ok pairs) :
    ∀ p ∈ pairs, p.IsTyped := by
  induction texts generalizing pairs with
  | nil =>
    cases h
    exact fun _ hp => absurd hp List.not_mem_nil
  | cons t texts ih =>
    rw [pairsOf] at h
    split at h
    · cases h
    · next first hfirst =>
      obtain ⟨rest, hrest, rfl⟩ := map_eq_ok.1 h
      exact List.forall_mem_cons.2 ⟨isTyped_of_pair? hfirst, ih hrest⟩

/-- Only pairs that may be typed are given so far. -/
def Given.IsTyped (g : Given) : Prop := ∀ p ∈ g.pairs, p.IsTyped

theorem Given.takeValue_pairs {g g' : Given} {option : OptionSpec} {value : Text}
    (h : g.takeValue option value = .ok g') : g'.pairs = g.pairs := by
  unfold Given.takeValue at h
  split at h
  · cases h
    rfl
  · split at h <;>
    · obtain ⟨n, -, rfl⟩ := map_eq_ok.1 h
      rfl

/-- What a command takes keeps this. -/
theorem Given.IsTyped.take {c : Command} {g g' : Given} {event : Event} (h : g.IsTyped)
    (htake : c.take g event = .ok g') : g'.IsTyped := by
  cases event with
  | help => cases htake
  | positional arguments =>
    simp only [Command.take] at htake
    split at htake
    · cases htake
    · cases htake
      exact h
  | option option arguments =>
    simp only [Command.take] at htake
    split at htake
    · split at htake
      · next pairs hpairs =>
        cases htake
        exact isTyped_of_pairsOf hpairs
      · cases htake
    · intro p hp
      rw [Given.takeValue_pairs (mapError_eq_ok.1 htake)] at hp
      exact h p hp

theorem pairs_of_request? {c : Command} {g : Given} {request : Request}
    (h : c.request? g = some request) : request.pairs = g.pairs ∨ request.pairs = [] := by
  obtain ⟨argument, -, h⟩ := Option.bind_eq_some_iff.1 h
  cases c with
  | canon | table =>
    cases h
    exact .inr rfl
  | eval | reduce =>
    cases h
    exact .inl rfl
  | generate =>
    obtain ⟨kind, -, h⟩ := Option.bind_eq_some_iff.1 h
    cases h
    exact .inr rfl

theorem isTyped_of_commandRead {c : Command} {arguments extras : List Text} {request : Request}
    (h : c.read arguments = .ok (request, extras)) : ∀ p ∈ request.pairs, p.IsTyped := by
  obtain ⟨given, hgiven, h⟩ := bind_eq_ok.1 h
  have hnothing : Given.nothing.IsTyped := fun _ hp => absurd hp List.not_mem_nil
  split at h
  · cases h
  · split at h
    · next request' hrequest =>
      cases h
      intro p hp
      rcases pairs_of_request? hrequest with hpairs | hpairs <;> rw [hpairs] at hp
      · exact foldlM_invariant (fun _ _ _ => Given.IsTyped.take) hnothing hgiven p hp
      · cases hp
    · cases h

/-- Only pairs that may be typed are in the request that is given so far. -/
def MainGiven.IsTyped (g : MainGiven) : Prop :=
  ∀ request, g.request = some request → ∀ p ∈ request.pairs, p.IsTyped

theorem MainGiven.IsTyped.take {g g' : MainGiven} {event : Event} (h : g.IsTyped)
    (htake : g.take event = .ok g') : g'.IsTyped := by
  cases event with
  | help => cases htake
  | positional arguments =>
    simp only [MainGiven.take] at htake
    split at htake
    · cases htake
    · obtain ⟨⟨request, extras⟩, hread, rfl⟩ := map_eq_ok.1 htake
      intro _ hrequest
      obtain rfl := Option.some.inj hrequest
      exact isTyped_of_commandRead hread
  | option option arguments =>
    cases htake
    exact h

/-- A request that is read sets only pairs that may be typed, whatever the arguments are. -/
theorem isTyped_of_read {arguments : List Text} {invocation : Invocation}
    (h : Invocation.read arguments = .ok invocation) :
    ∀ p ∈ invocation.request.pairs, p.IsTyped := by
  obtain ⟨given, hgiven, h⟩ := bind_eq_ok.1 h
  have hnone : (⟨none, none, []⟩ : MainGiven).IsTyped := fun _ hrequest => by cases hrequest
  have htyped := foldlM_invariant (fun _ _ _ => MainGiven.IsTyped.take) hnone hgiven
  split at h
  · cases h
  · split at h
    · cases h
    · next request hrequest =>
      split at h
      · cases h
        exact htyped request hrequest
      · cases h

/-! ### Scanning what is typed -/

/-- An option with its value in the same argument. -/
def withValue (name value : Text) : Text := name ++ '=' :: value

namespace Interface
variable {i : Interface} {rest : List Text} {a v name : Text} {spec : OptionSpec} {s : Scan}

/-- Arguments that are all told apart, and what is read of them. -/
def Takes (i : Interface) (arguments : List Text) (s : Scan) : Prop :=
  ∃ items, i.classifyAll arguments = .ok items ∧
    ∀ fuel, items.length < fuel → i.scanItems fuel false items = s

theorem Takes.scan_eq {arguments : List Text} (h : i.Takes arguments s) : i.scan arguments = s := by
  obtain ⟨items, hitems, hscan⟩ := h
  rw [scan, hitems]
  exact hscan _ (Nat.lt_succ_self _)

theorem classifyAll_separator (rest : List Text) : i.classifyAll (twoStrokes :: rest) =
    .ok ((twoStrokes, .separator) :: rest.map fun t => (t, .plain)) := by
  rw [classifyAll, if_pos rfl]
  rfl

theorem classifyAll_cons {word : Word} {items : List (Text × Word)} (hne : a ≠ twoStrokes)
    (hword : i.classify a = .ok word) (hrest : i.classifyAll rest = .ok items) :
    i.classifyAll (a :: rest) = .ok ((a, word) :: items) := by
  rw [classifyAll, if_neg hne, hword, hrest]
  rfl

theorem classify_of_head? (h : a.head? ≠ some '-') : i.classify a = .ok .plain := if_pos h

theorem ne_twoStrokes_of_head? (h : a.head? ≠ some '-') : a ≠ twoStrokes := by
  rintro rfl
  exact h rfl

/-- What does not start with a stroke is plain. -/
theorem classifyAll_append_plain {values : List Text} (hvalues : ∀ v ∈ values, v.head? ≠ some '-')
    {items : List (Text × Word)} (hrest : i.classifyAll rest = .ok items) :
    i.classifyAll (values ++ rest) = .ok (values.map (fun v => (v, .plain)) ++ items) := by
  induction values with
  | nil => exact hrest
  | cons v values ih =>
    obtain ⟨hv, hvalues⟩ := List.forall_mem_cons.1 hvalues
    exact classifyAll_cons (ne_twoStrokes_of_head? hv) (classify_of_head? hv) (ih hvalues)

theorem map_fst_plain (ts : List Text) : (ts.map fun t => (t, Word.plain)).map (·.1) = ts := by
  rw [List.map_map]
  exact List.map_id ts

theorem scanItems_nil (i : Interface) (fuel : Nat) (done : Bool) :
    i.scanItems fuel done [] = ⟨[], [], none⟩ := by
  cases fuel <;> rfl

/-- What follows two strokes is the positional argument, whatever it starts with. -/
theorem takes_positional (h : i.greedy = false) (argument : Text) :
    i.Takes [twoStrokes, argument] ⟨[.positional [argument]], [], none⟩ := by
  refine ⟨_, classifyAll_separator [argument], fun fuel hfuel => ?_⟩
  have htaken : i.takePositional [(twoStrokes, .separator), (argument, .plain)] =
      some ([twoStrokes, argument], []) := by
    simp [takePositional, isPlain, h]
  cases fuel with
  | zero => cases hfuel
  | succ fuel =>
    simp only [List.map_cons, List.map_nil, scanItems, Bool.false_eq_true, if_false, htaken, h,
      scanItems_nil]
    rfl

/-- All words without a stroke after an option that takes many are its values. -/
theorem Takes.many (h : i.Takes (twoStrokes :: rest) s) (hne : a ≠ twoStrokes)
    (hword : i.classify a = .ok (.option spec name .nothing)) (harity : spec.arity = .many)
    {values : List Text} (hvalues : ∀ v ∈ values, v.head? ≠ some '-') :
    i.Takes (a :: (values ++ twoStrokes :: rest)) (s.after (.option spec values)) := by
  obtain ⟨items, hitems, hscan⟩ := h
  have hmarked := (classifyAll_separator (i := i) rest).symm.trans hitems
  obtain rfl := Except.ok.inj hmarked
  refine ⟨_, classifyAll_cons hne hword (classifyAll_append_plain hvalues hitems),
    fun fuel hfuel => ?_⟩
  have hall : ∀ item ∈ values.map (fun v => (v, Word.plain)), isPlain item = true := by
    intro item hitem
    obtain ⟨v, -, rfl⟩ := List.mem_map.1 hitem
    rfl
  cases fuel with
  | zero => cases hfuel
  | succ fuel =>
    simp only [List.length_cons, List.length_append] at hfuel
    simp only [scanItems, harity]
    rw [List.dropWhile_append_of_pos hall, List.takeWhile_append_of_pos hall,
      List.dropWhile_cons_of_neg (by exact Bool.false_ne_true),
      List.takeWhile_cons_of_neg (by exact Bool.false_ne_true),
      hscan fuel (by simp only [List.length_cons]; omega), List.append_nil]
    exact congrArg (fun vs => s.after (.option spec vs)) (map_fst_plain values)

theorem Takes.value (h : i.Takes rest s) (hne : a ≠ twoStrokes)
    (hword : i.classify a = .ok (.option spec name (.value v))) (harity : spec.arity ≠ .none) :
    i.Takes (a :: rest) (s.after (.option spec [v])) := by
  obtain ⟨items, hitems, hscan⟩ := h
  refine ⟨_, classifyAll_cons hne hword hitems, fun fuel hfuel => ?_⟩
  cases fuel with
  | zero => cases hfuel
  | succ fuel =>
    rw [List.length_cons] at hfuel
    simp only [scanItems, attachedEvent, if_neg harity]
    rw [hscan fuel (by omega)]

/-- A positional argument that is greedy takes all that follows it. -/
theorem takes_greedy (h : i.greedy = true) (hplain : a.head? ≠ some '-')
    {items : List (Text × Word)} (hrest : i.classifyAll rest = .ok items) :
    i.Takes (a :: rest) ⟨[.positional (a :: items.map (·.1))], [], none⟩ := by
  refine ⟨_, classifyAll_cons (ne_twoStrokes_of_head? hplain) (classify_of_head? hplain) hrest,
    fun fuel hfuel => ?_⟩
  have htaken : i.takePositional ((a, .plain) :: items) = some (a :: items.map (·.1), []) := by
    simp [takePositional, isPlain, h]
  cases fuel with
  | zero => cases hfuel
  | succ fuel =>
    simp only [scanItems, Bool.false_eq_true, if_false, htaken, h, if_true, scanItems_nil]
    rfl

/-- Arguments up to two strokes are told apart if each of them is. -/
theorem exists_classifyAll {front : List Text}
    (h : ∀ a ∈ front, ∃ word, i.classify a = .ok word) (rest : List Text) :
    ∃ items, i.classifyAll (front ++ twoStrokes :: rest) = .ok items ∧
      items.map (·.1) = front ++ twoStrokes :: rest := by
  induction front with
  | nil =>
    exact ⟨_, classifyAll_separator rest, congrArg (twoStrokes :: ·) (map_fst_plain rest)⟩
  | cons a front ih =>
    obtain ⟨⟨word, hword⟩, hfront⟩ := List.forall_mem_cons.1 h
    by_cases ha : a = twoStrokes
    · subst ha
      exact ⟨_, classifyAll_separator _, congrArg (twoStrokes :: ·) (map_fst_plain _)⟩
    · obtain ⟨items, hitems, hargs⟩ := ih hfront
      exact ⟨_, classifyAll_cons ha hword hitems, congrArg (a :: ·) hargs⟩

end Interface

/-! ### What can be typed -/

/-- The command that a request is made with. -/
def Request.command : Request → Command
  | .canon _ => .canon
  | .eval .. => .eval
  | .table _ => .table
  | .reduce .. => .reduce
  | .generate .. => .generate

/-- The options of a request, as they are typed. -/
def Request.options : Request → List Text
  | .canon _ | .table _ => []
  | .eval _ pairs => "--set".toList :: pairs.map Pair.typed
  | .reduce _ pairs historyLog =>
    historyLog.toList.map (withValue "--history-log".toList) ++
      "--set".toList :: pairs.map Pair.typed
  | .generate _ count seed =>
    withValue "--count".toList (Text.ofInt count) ::
      seed.toList.map fun n => withValue "--seed".toList (Text.ofInt n)

/-- The positional argument of a request. -/
def Request.argument : Request → Text
  | .canon formula | .eval formula _ | .table formula | .reduce formula _ _ => formula
  | .generate kind _ _ => kind.name

/-- The arguments of a request. -/
def Request.typed (r : Request) : List Text := r.options ++ [twoStrokes, r.argument]

/-- The arguments of an invocation. -/
def Invocation.typed (invocation : Invocation) : List Text :=
  invocation.logLevel.toList.map (withValue "--log-level".toList) ++
    invocation.request.command.name :: invocation.request.typed

theorem pairsOf_typed {pairs : List Pair} (h : ∀ p ∈ pairs, p.IsTyped) :
    pairsOf (pairs.map Pair.typed) = .ok pairs := by
  induction pairs with
  | nil => rfl
  | cons p pairs ih =>
    obtain ⟨hp, hpairs⟩ := List.forall_mem_cons.1 h
    have hp : pair? p.typed = some p := hp
    rw [List.map_cons, pairsOf, hp, ih hpairs]
    rfl

theorem head?_typed {p : Pair} (hstroke : p.1.head? ≠ some '-') : p.typed.head? ≠ some '-' := by
  obtain ⟨name, value⟩ := p
  cases name with
  | nil => exact fun heq => by cases heq
  | cons c name => exact hstroke

section
variable {pairs : List Pair} (hpairs : ∀ p ∈ pairs, p.IsTyped ∧ p.1.head? ≠ some '-')
include hpairs

theorem typed_no_stroke : ∀ v ∈ pairs.map Pair.typed, v.head? ≠ some '-' := by
  intro v hv
  obtain ⟨p, hp, rfl⟩ := List.mem_map.1 hv
  exact head?_typed (hpairs p hp).2

/-- Pairs are taken behind their option. -/
theorem take_setOption (c : Command) (g : Given) :
    c.take g (.option setOption (pairs.map Pair.typed)) = .ok {g with pairs := pairs} := by
  simp only [Command.take, setOption, if_true, pairsOf_typed fun p hp => (hpairs p hp).1]

theorem takes_set {c : Command}
    (hc : c.interface.classify "--set".toList = .ok (.option setOption "--set".toList .nothing))
    (formula : Text) :
    c.interface.Takes ("--set".toList :: (pairs.map Pair.typed ++ [twoStrokes, formula]))
      ⟨[.option setOption (pairs.map Pair.typed), .positional [formula]], [], none⟩ :=
  (Interface.takes_positional rfl formula).many (by decide) hc rfl (typed_no_stroke hpairs)

theorem take_set {c : Command} (hc : c ≠ .generate) (g : Given) (formula : Text) :
    [.option setOption (pairs.map Pair.typed), .positional [formula]].foldlM c.take g =
      .ok {g with pairs := pairs, argument := some formula} := by
  rw [List.foldlM_cons, take_setOption hpairs]
  show [Event.positional [formula]].foldlM c.take {g with pairs := pairs} = _
  rw [List.foldlM_cons]
  simp only [Command.take, hc, false_and, if_false]
  rfl

end

theorem take_integer (c : Command) (g : Given) (n : Int) :
    c.take g (.option countOption [Text.ofInt n]) = .ok {g with count := n} ∧
      c.take g (.option seedOption [Text.ofInt n]) = .ok {g with seed := some n} := by
  have hnumber : ∀ option, integerOf option (Text.ofInt n) = .ok n := fun option => by
    rw [integerOf, integer?_ofInt]
  constructor
  · show ((integerOf countOption (Text.ofInt n)).map _).mapError _ = _
    rw [hnumber]
    rfl
  · show ((integerOf seedOption (Text.ofInt n)).map _).mapError _ = _
    rw [hnumber]
    rfl

/-- The events of a request, and what is given after them. -/
theorem read_of_takes {c : Command} {arguments : List Text} {events : List Event} {given : Given}
    {request : Request} (h : c.interface.Takes arguments ⟨events, [], none⟩)
    (hgiven : events.foldlM c.take Given.nothing = .ok given)
    (hrequest : c.request? given = some request) : c.read arguments = .ok (request, []) := by
  rw [Command.read, h.scan_eq]
  show (events.foldlM c.take Given.nothing).bind _ = _
  rw [hgiven]
  simp only [Except.bind, hrequest]
  rfl

theorem withValue_ne {name : Text} (h : 2 ≤ name.length) (value : Text) :
    withValue name value ≠ twoStrokes := by
  intro heq
  have := congrArg List.length heq
  simp only [withValue, twoStrokes, List.length_append, List.length_cons, List.length_nil] at this
  omega

theorem takes_kind (kind : ProblemKind) : Command.generate.interface.Takes [twoStrokes, kind.name]
    ⟨[.positional [kind.name]], [], none⟩ := Interface.takes_positional rfl kind.name

/-- What is typed after a command is read as its request. -/
theorem commandRead_typed {r : Request}
    (h : ∀ p ∈ r.pairs, p.IsTyped ∧ p.1.head? ≠ some '-') :
    r.command.read r.typed = .ok (r, []) := by
  cases r with
  | canon formula | table formula =>
    exact read_of_takes (Interface.takes_positional rfl formula) rfl rfl
  | eval formula pairs =>
    have hpairs : ∀ p ∈ pairs, p.IsTyped ∧ p.1.head? ≠ some '-' := h
    have hgiven := take_set hpairs (c := .eval) (by decide)
    exact read_of_takes (takes_set hpairs rfl formula) (hgiven _ formula) rfl
  | reduce formula pairs historyLog =>
    have hpairs : ∀ p ∈ pairs, p.IsTyped ∧ p.1.head? ≠ some '-' := h
    have hset := takes_set (c := .reduce) hpairs rfl formula
    have hgiven := take_set hpairs (c := .reduce) (by decide)
    cases historyLog with
    | none => exact read_of_takes hset (hgiven _ formula) rfl
    | some path =>
      have hlog := hset.value (a := withValue "--history-log".toList path)
        (withValue_ne (by decide) path) rfl (by decide)
      exact read_of_takes hlog (hgiven {Given.nothing with historyLog := some path} formula) rfl
  | generate kind count seed =>
    have hkind : ∀ g : Given, [Event.positional [kind.name]].foldlM Command.generate.take g =
        .ok {g with argument := some kind.name} := by
      cases kind <;> exact fun _ => rfl
    have hrequest : ∀ g : Given, Command.generate.request? {g with argument := some kind.name} =
        some (.generate kind g.count g.seed) := by
      cases kind <;> exact fun _ => rfl
    have hcount := foldlM_cons_ok (take_integer .generate .nothing count).1
    cases seed with
    | none =>
      have htakes := (takes_kind kind).value (a := withValue "--count".toList (Text.ofInt count))
        (withValue_ne (by decide) _) rfl (by decide)
      exact read_of_takes htakes ((hcount _).trans (hkind _)) (hrequest _)
    | some n =>
      have hseed := foldlM_cons_ok (take_integer .generate {Given.nothing with count := count} n).2
      have htakes := (takes_kind kind).value (a := withValue "--seed".toList (Text.ofInt n))
        (withValue_ne (by decide) _) rfl (by decide)
      have htakes := htakes.value (a := withValue "--count".toList (Text.ofInt count))
        (withValue_ne (by decide) _) rfl (by decide)
      exact read_of_takes htakes ((hcount _).trans ((hseed _).trans (hkind _))) (hrequest _)

/-! ### The whole line -/

/-- Before the command its arguments are told apart as well, if only to be passed on. -/
theorem exists_classify_options (r : Request) (h : ∀ p ∈ r.pairs, p.1.head? ≠ some '-') :
    ∀ a ∈ r.options, ∃ word, mainInterface.classify a = .ok word := by
  have hset : ∀ pairs : List Pair, (∀ p ∈ pairs, p.1.head? ≠ some '-') →
      ∀ a ∈ "--set".toList :: pairs.map Pair.typed, ∃ word, mainInterface.classify a = .ok word := by
    intro pairs hpairs a ha
    rcases List.mem_cons.1 ha with rfl | ha
    · exact ⟨_, rfl⟩
    · obtain ⟨p, hp, rfl⟩ := List.mem_map.1 ha
      exact ⟨_, Interface.classify_of_head? (head?_typed (hpairs p hp))⟩
  -- An option that is not known here is passed on, or taken for a word if there is a blank in it.
  have hvalue : ∀ c : Bool, ∃ word,
      (if c then Except.ok Word.plain else Except.ok (ε := UsageError) Word.unknownOption) = .ok word :=
    fun c => by cases c <;> exact ⟨_, rfl⟩
  intro a ha
  cases r with
  | canon | table => cases ha
  | eval formula pairs => exact hset pairs h a ha
  | reduce formula pairs historyLog =>
    rcases List.mem_append.1 ha with hlog | ha
    · obtain ⟨path, -, rfl⟩ := List.mem_map.1 hlog
      exact hvalue _
    · exact hset pairs h a ha
  | generate kind count seed =>
    rcases List.mem_cons.1 ha with rfl | hseed
    · exact hvalue _
    · obtain ⟨n, -, rfl⟩ := List.mem_map.1 hseed
      exact hvalue _

/-- Every invocation can be typed: with its options in front and two strokes before the formula it
is read as it is. -/
theorem read_typed {invocation : Invocation}
    (h : ∀ p ∈ invocation.request.pairs, p.IsTyped ∧ p.1.head? ≠ some '-') :
    Invocation.read invocation.typed = .ok invocation := by
  obtain ⟨level, r⟩ := invocation
  obtain ⟨items, hitems, hargs⟩ := Interface.exists_classifyAll
    (exists_classify_options r fun p hp => (h p hp).2) [r.argument]
  have hname : ∀ c : Command, c.name.head? ≠ some '-' := fun c => by cases c <;> decide
  have hfind : (Command.all.find? fun c => c.name == r.command.name) = some r.command := by
    cases r <;> rfl
  have htakes := Interface.takes_greedy (i := mainInterface) rfl (hname r.command) hitems
  rw [hargs] at htakes
  have htake : ∀ g : MainGiven, g.take (.positional (r.command.name :: r.typed)) =
      .ok {g with request := some r, extras := []} := by
    intro g
    simp only [MainGiven.take, List.headD_cons, hfind, List.tail_cons]
    rw [commandRead_typed h]
    rfl
  have hread : ∀ arguments events, mainInterface.Takes arguments ⟨events, [], none⟩ →
      events.foldlM MainGiven.take ⟨none, none, []⟩ = .ok ⟨level, some r, []⟩ →
      Invocation.read arguments = .ok ⟨level, r⟩ := by
    intro arguments events htakes hgiven
    rw [Invocation.read, htakes.scan_eq]
    show (events.foldlM MainGiven.take _).bind _ = _
    rw [hgiven]
    rfl
  cases level with
  | none =>
    exact hread _ _ htakes (foldlM_cons_ok (htake _) [])
  | some level =>
    have hlevel := htakes.value (a := withValue "--log-level".toList level)
      (withValue_ne (by decide) level) rfl (by decide)
    exact hread _ _ hlevel (foldlM_cons_ok (htake ⟨some level, none, []⟩) [])

example : Invocation.read ["eval".toList, "--set".toList, "p=1".toList, "--".toList, "->".toList] =
    .ok ⟨none, .eval "->".toList [(['p'], ['1'])]⟩ :=
  @read_typed ⟨none, .eval "->".toList [(['p'], ['1'])]⟩ (by decide)

end LogicTrainer.CommandLine
