import MediaQuery.Proofs.Spot

set_option autoImplicit false

namespace MediaQuery

namespace Clause

def on (c : Clause) (key : String) : Constraint := (c.tests.get? key).getD .always

theorem on_and (a b : Clause) (key : String) :
    (a.and b).on key = (a.on key).inter (b.on key) := by
  rw [on, on, on, get?_and]
  cases a.tests.get? key <;> cases b.tests.get? key <;> simp [KeyMap.joined]

theorem on_single (key other : String) (x : Constraint) :
    (single key x).on other = if other = key then x else .always := by
  rw [on, single, KeyMap.get?_single]
  split <;> rfl

theorem on_of_get? {c : Clause} {key : String} {x : Constraint}
    (found : c.tests.get? key = some x) : c.on key = x := by
  rw [on, found]
  rfl

theorem get?_of_on {c : Clause} {key : String} (asks : c.on key ≠ .always) :
    c.tests.get? key = some (c.on key) := by
  unfold on at asks ⊢
  cases found : c.tests.get? key with
  | none => rw [found] at asks; exact absurd rfl asks
  | some x => rfl

theorem on_simplify (c : Clause) (key : String) : c.simplify.on key = (c.on key).simplify := by
  rw [on, simplify, simplifyTests, KeyMap.get?_filterMap, on]
  cases c.tests.get? key with
  | none => rfl
  | some x =>
    rw [Option.bind_some, Option.getD_some]
    cases simple : x.simplify <;> rfl

theorem get?_simplify_ne_always (c : Clause) (key : String) :
    c.simplify.tests.get? key ≠ some .always := by
  intro found
  obtain ⟨_, _, _, asks⟩ := get?_simplify_eq_some.1 found
  exact asks rfl

section Spots

variable {β : Type} [LinearOrder β] {P : Ratio → Prop} {level : Ratio → β} {a b c d r : Clause}
  {as bs cs done : List Clause} {key : String} {kind : FeatureKind}

theorem Suits.on (suits : c.Suits fun _ => P) (known : FeatureTable.kind? key = some kind) :
    (c.on key).Suits P kind := by
  unfold Clause.on
  cases found : c.tests.get? key with
  | none => exact .always
  | some x => exact suits.of_kind known found

theorem Suits.exists_kind {ratios : String → Ratio → Prop} (suits : c.Suits ratios)
    {x : Constraint} (found : c.simplify.tests.get? key = some x) :
    ∃ kind, FeatureTable.kind? key = some kind := by
  obtain ⟨before, found, _⟩ := get?_simplify_eq_some.1 found
  obtain ⟨kind, known, _⟩ := suits key before found
  exact ⟨kind, known⟩

/-- Something possible is asked of every feature. -/
def Possible (level : Ratio → β) (c : Clause) : Prop :=
  ∀ key kind, FeatureTable.kind? key = some kind →
    ∃ s, Spot.Legal level kind s ∧ (c.on key).Admits level s

/-- A clause asks of every feature for what another one asks, or for more. -/
def Within (level : Ratio → β) (b c : Clause) : Prop :=
  ∀ key kind, FeatureTable.kind? key = some kind →
    ∀ s, Spot.Legal level kind s → (b.on key).Admits level s → (c.on key).Admits level s

/-- Two clauses cannot be asked together: on some feature they exclude each other. -/
def Apart (level : Ratio → β) (b c : Clause) : Prop :=
  ∃ key kind, FeatureTable.kind? key = some kind ∧
    ∀ s, Spot.Legal level kind s → (b.on key).Admits level s → ¬(c.on key).Admits level s

theorem Suits.reduced_on (ruler : Ratio.Ruler P level) (suits : c.Suits fun _ => P)
    (known : FeatureTable.kind? key = some kind) :
    (c.simplify.on key).Reduced P level kind := by
  rw [on_simplify]
  exact (suits.on known).reduced ruler

theorem Suits.admits_on_simplify (ruler : Ratio.Ruler P level) (suits : c.Suits fun _ => P)
    (known : FeatureTable.kind? key = some kind) {s : Spot β} (legal : Spot.Legal level kind s) :
    (c.simplify.on key).Admits level s ↔ (c.on key).Admits level s := by
  rw [on_simplify]
  exact (suits.on known).admits_simplify ruler legal

theorem mem_falseKeys_iff : key ∈ c.falseKeys ↔ (c.simplify.on key).isNever = true := by
  rw [mem_falseKeys, on_simplify, on]
  cases c.tests.get? key with
  | none => exact iff_of_false (by simp) (by simp [Constraint.simplify, Constraint.isNever])
  | some x => simp

/-- Nothing impossible is asked for iff there is a spot on each feature. -/
theorem falseKeys_eq_nil_iff (ruler : Ratio.Ruler P level) (suits : c.Suits fun _ => P) :
    c.falseKeys = [] ↔ c.Possible level := by
  rw [List.eq_nil_iff_forall_not_mem]
  constructor
  · intro none key kind known
    have possible : (c.simplify.on key).isNever = false := by
      simpa [mem_falseKeys_iff] using none key
    obtain ⟨s, legal, admits⟩ := (suits.reduced_on ruler known).exists_spot ruler known possible
    exact ⟨s, legal, (suits.admits_on_simplify ruler known legal).1 admits⟩
  · intro possible key mem
    obtain ⟨x, found, _⟩ := mem_falseKeys.1 mem
    obtain ⟨kind, known, _⟩ := suits key x found
    obtain ⟨s, legal, admits⟩ := possible key kind known
    have inside := (suits.admits_on_simplify ruler known legal).2 admits
    rw [mem_falseKeys_iff] at mem
    cases simple : c.simplify.on key with
    | never => rw [simple] at inside; exact inside
    | _ => rw [simple] at mem; cases mem

/-- Inside the domains, a clause covers those that lie within it. -/
theorem covers_simplify_iff (ruler : Ratio.Ruler P level) (left : c.Suits fun _ => P)
    (right : b.Suits fun _ => P) (untagged : c.tag = none) :
    c.simplify.covers b.simplify = true ↔ b.Within level c := by
  have level_iff {key : String} {kind : FeatureKind}
      (known : FeatureTable.kind? key = some kind) :=
    Constraint.Reduced.covers_iff ruler known (left.reduced_on ruler known)
      (right.reduced_on ruler known)
  have tag : c.simplify.tag = none := by simp [simplify, untagged]
  rw [covers_iff, tag]
  constructor
  · rintro ⟨_, tests⟩ key kind known s legal inside
    refine (left.admits_on_simplify ruler known legal).1 ?_
    by_cases asks : c.simplify.on key = .always
    · rw [asks]
      trivial
    · obtain ⟨y, found, covers⟩ := tests key _ (get?_of_on asks)
      rw [← on_of_get? found] at covers
      exact (level_iff known).1 covers s legal
        ((right.admits_on_simplify ruler known legal).2 inside)
  · intro within
    refine ⟨by simp, fun key x found => ?_⟩
    obtain ⟨kind, known⟩ := left.exists_kind found
    have covers : x.covers (b.simplify.on key) = true := by
      rw [← on_of_get? found]
      refine (level_iff known).2 fun s legal inside => ?_
      exact (left.admits_on_simplify ruler known legal).2
        (within key kind known s legal ((right.admits_on_simplify ruler known legal).1 inside))
    have asks : b.simplify.on key ≠ .always := by
      intro always
      rw [always] at covers
      cases x with
      | always => exact get?_simplify_ne_always c key found
      | _ => cases covers
    exact ⟨_, get?_of_on asks, covers⟩

/-- Clauses can be asked together iff they are not apart. -/
theorem possible_and_iff (ruler : Ratio.Ruler P level) (left : a.Suits fun _ => P)
    (right : b.Suits fun _ => P) : (a.and b).Possible level ↔ ¬a.Apart level b := by
  constructor
  · rintro possible ⟨key, kind, known, apart⟩
    obtain ⟨s, legal, admits⟩ := possible key kind known
    rw [on_and, Constraint.admits_inter ruler (left.on known) (right.on known)] at admits
    exact apart s legal admits.1 admits.2
  · intro together key kind known
    by_contra none
    refine together ⟨key, kind, known, fun s legal first second => none ⟨s, legal, ?_⟩⟩
    rw [on_and, Constraint.admits_inter ruler (left.on known) (right.on known)]
    exact ⟨first, second⟩

/-- The intervals of a clause are not empty. -/
def IsFilled (c : Clause) : Prop := ∀ key, (c.on key).IsOccupied

theorem isFilled_top : top.IsFilled := fun _ => trivial

theorem IsFilled.and (left : a.IsFilled) (right : b.IsFilled) : (a.and b).IsFilled := by
  intro key
  rw [on_and]
  exact (left key).inter (right key)

/-- A clause that is inside the domains and can be asked for. -/
structure IsSettled (P : Ratio → Prop) (level : Ratio → β) (c : Clause) : Prop where
  plain : c.Plain fun _ => P
  filled : c.IsFilled
  inside : ∀ {key kind}, FeatureTable.kind? key = some kind → (c.on key).IsInside level
  possible : c.Possible level

theorem isSettled_top (ruler : Ratio.Ruler P level) : top.IsSettled P level where
  plain := plain_top
  filled := isFilled_top
  inside _ := trivial
  possible key kind known := by
    obtain ⟨s, legal⟩ := Constraint.exists_legal ruler known
    exact ⟨s, legal, trivial⟩

/-- A clause of a negation: a part of the negation of one constraint, or the clause that asks for
nothing if the impossible is asked for. -/
inductive IsPart (P : Ratio → Prop) (level : Ratio → β) (c : Clause) : Clause → Prop where
  | top {key : String} {kind : FeatureKind} (known : FeatureTable.kind? key = some kind)
      (never : c.on key = .never) : IsPart P level c top
  | single {key : String} {kind : FeatureKind} {x : Constraint}
      (known : FeatureTable.kind? key = some kind)
      (part : Constraint.IsPart P level kind (c.on key) x) : IsPart P level c (single key x)

theorem isPart_of_mem_negate (ruler : Ratio.Ruler P level) (plain : c.Plain fun _ => P)
    {part : Clause} (mem : part ∈ c.negate) : IsPart P level c part := by
  rw [negate, plain.readable] at mem
  simp only [Bool.false_eq_true, if_false] at mem
  split at mem
  · rename_i never
    obtain ⟨key, x, found, never⟩ := KeyMap.any_values.1 never
    obtain ⟨kind, known, suits⟩ := plain.suits key x found
    rw [List.mem_singleton.1 mem]
    refine .top known ?_
    rw [on_of_get? found]
    cases x <;> cases never
    rfl
  · obtain ⟨⟨key, x⟩, entry, mem⟩ := List.mem_flatMap.1 mem
    have found := KeyMap.mem_entries.1 entry
    obtain ⟨kind, known, suits⟩ := plain.suits key x found
    have asked := on_of_get? found
    rcases Constraint.isPart_of_mem_negate ruler known suits mem with
      ⟨never, rfl⟩ | ⟨y, rfl, part⟩
    · exact .top known (asked.trans never)
    · exact .single known (by rwa [asked])

theorem IsPart.plain {part : Clause} (isPart : IsPart P level c part) :
    part.Plain fun _ => P := by
  cases isPart with
  | top known never => exact plain_top
  | single known part => exact plain_single known part.suits

theorem IsPart.filled {part : Clause} (isPart : IsPart P level c part) : part.IsFilled := by
  cases isPart with
  | top known never => exact isFilled_top
  | single known part =>
    intro key
    rw [on_single]
    split
    · exact part.occupied
    · trivial

theorem IsPart.inside {part : Clause} (isPart : IsPart P level c part) (key : String) :
    (part.on key).IsInside level := by
  cases isPart with
  | top known never => trivial
  | single known part =>
    rw [on_single]
    split
    · exact part.inside
    · trivial

theorem IsPart.apart {part : Clause} (isPart : IsPart P level c part) : part.Apart level c := by
  cases isPart with
  | @top key kind known never =>
    refine ⟨key, kind, known, fun s _ _ admits => ?_⟩
    rw [never] at admits
    exact admits
  | @single key kind x known part =>
    refine ⟨key, kind, known, fun s _ first => part.apart s ?_⟩
    rwa [on_single, if_pos rfl] at first

theorem within_and_left (ruler : Ratio.Ruler P level) (left : a.Suits fun _ => P)
    (right : b.Suits fun _ => P) : (a.and b).Within level a := by
  intro key kind known s _ admits
  rw [on_and, Constraint.admits_inter ruler (left.on known) (right.on known)] at admits
  exact admits.1

theorem within_and_right (ruler : Ratio.Ruler P level) (left : a.Suits fun _ => P)
    (right : b.Suits fun _ => P) : (a.and b).Within level b := by
  intro key kind known s _ admits
  rw [on_and, Constraint.admits_inter ruler (left.on known) (right.on known)] at admits
  exact admits.2

theorem Within.and (ruler : Ratio.Ruler P level) (left : a.Suits fun _ => P)
    (right : b.Suits fun _ => P) (first : c.Within level a) (second : c.Within level b) :
    c.Within level (a.and b) := by
  intro key kind known s legal admits
  rw [on_and, Constraint.admits_inter ruler (left.on known) (right.on known)]
  exact ⟨first key kind known s legal admits, second key kind known s legal admits⟩

theorem Within.trans (first : a.Within level b) (second : b.Within level c) : a.Within level c :=
  fun key kind known s legal admits =>
    second key kind known s legal (first key kind known s legal admits)

/-- What lies within a clause cannot be asked together with more than the clause can. -/
theorem Apart.of_within (apart : b.Apart level c) (within : a.Within level b) :
    a.Apart level c := by
  obtain ⟨key, kind, known, none⟩ := apart
  exact ⟨key, kind, known, fun s legal admits =>
    none s legal (within key kind known s legal admits)⟩

theorem isContradiction_on (sound : c.isContradiction = false) (key : String) :
    (c.on key).isContradiction = false := by
  unfold Clause.on
  cases found : c.tests.get? key with
  | none => rfl
  | some x =>
    rw [Option.getD_some, ← Bool.not_eq_true]
    intro contradiction
    rw [isContradiction, KeyMap.any_values.2 ⟨key, x, found, contradiction⟩] at sound
    cases sound

/-- One step of a negation: a settled clause with a part, unless they contradict each other. -/
private theorem isSettled_step (ruler : Ratio.Ruler P level)
    (settled : ∀ d ∈ done, d.IsSettled P level) (plain : c.Plain fun _ => P)
    (mem : r ∈ dropContradictions (product done c.negate)) :
    r.IsSettled P level ∧ (∃ d ∈ done, r.Within level d) ∧ r.Apart level c := by
  obtain ⟨inside, kept⟩ := List.mem_filter.1 mem
  obtain ⟨d, hd, part, hp, rfl⟩ := mem_product.1 inside
  have isPart := isPart_of_mem_negate ruler plain hp
  have before := settled d hd
  have joined := before.plain.and isPart.plain
  rw [joined.readable, Bool.false_or, Bool.not_eq_true'] at kept
  have filled := before.filled.and isPart.filled
  have within {key : String} {kind : FeatureKind} (known : FeatureTable.kind? key = some kind) :
      ((d.and part).on key).IsInside level := by
    rw [on_and]
    exact (before.inside known).inter ruler (before.plain.suits.on known)
      (isPart.plain.suits.on known) (isPart.inside key)
  refine ⟨⟨joined, filled, within, fun key kind known => ?_⟩, ⟨d, hd, ?_⟩, ?_⟩
  · exact (within known).exists_spot ruler known (joined.suits.on known) (filled key)
      (isContradiction_on kept key)
  · exact within_and_left ruler before.plain.suits isPart.plain.suits
  · exact isPart.apart.of_within (within_and_right ruler before.plain.suits isPart.plain.suits)

private theorem isSettled_foldl (ruler : Ratio.Ruler P level)
    (settled : ∀ d ∈ done, d.IsSettled P level) (plain : ∀ c ∈ cs, c.Plain fun _ => P)
    (mem : r ∈ cs.foldl (fun done c => dropContradictions (product done c.negate)) done) :
    r.IsSettled P level ∧ (∃ d ∈ done, r.Within level d) ∧ ∀ c ∈ cs, r.Apart level c := by
  induction cs generalizing done with
  | nil => exact ⟨settled r mem, ⟨r, mem, fun _ _ _ _ _ admits => admits⟩, nofun⟩
  | cons c rest ih =>
    have step (e : Clause) (mem : e ∈ dropContradictions (product done c.negate)) :=
      isSettled_step ruler settled (plain c List.mem_cons_self) mem
    obtain ⟨settled', ⟨e, he, within⟩, apart⟩ := ih (fun e mem => (step e mem).1)
      (fun d mem => plain d (List.mem_cons_of_mem _ mem)) mem
    obtain ⟨_, ⟨d, hd, within'⟩, apart'⟩ := step e he
    refine ⟨settled', ⟨d, hd, within.trans within'⟩, fun x mem => ?_⟩
    rcases List.mem_cons.1 mem with rfl | mem
    · exact apart'.of_within within
    · exact apart x mem

/-- The clauses of a negation are settled, and none of them can be asked together with a clause that
is negated. -/
theorem isSettled_of_mem_negateAll (ruler : Ratio.Ruler P level)
    (plain : ∀ c ∈ cs, c.Plain fun _ => P) (mem : r ∈ negateAll cs) :
    r.IsSettled P level ∧ ∀ c ∈ cs, r.Apart level c := by
  have start : ∀ d ∈ [top], d.IsSettled P level := by
    simp [isSettled_top ruler]
  obtain ⟨settled, _, apart⟩ := isSettled_foldl ruler start plain mem
  exact ⟨settled, apart⟩

/-- What cannot be asked together with a clause lies within one clause of its negation. -/
private theorem exists_part_of_apart (ruler : Ratio.Ruler P level) (plain : c.Plain fun _ => P)
    (filled : c.IsFilled) (possible : b.Possible level) (apart : b.Apart level c) :
    ∃ part ∈ c.negate, b.Within level part := by
  obtain ⟨key, kind, known, none⟩ := apart
  rw [negate, plain.readable]
  simp only [Bool.false_eq_true, if_false]
  split
  · exact ⟨top, List.mem_singleton_self _, fun _ _ _ _ _ _ => trivial⟩
  · rename_i noNever
    have asks : c.on key ≠ .always := by
      intro always
      obtain ⟨s, legal, admits⟩ := possible key kind known
      refine none s legal admits ?_
      rw [always]
      trivial
    have found := get?_of_on asks
    have met : c.on key ≠ .never := by
      intro never
      rw [never] at found
      exact noNever (KeyMap.any_values.2 ⟨key, .never, found, rfl⟩)
    obtain ⟨spot, inside, first⟩ := possible key kind known
    obtain ⟨x, mem, sub⟩ := Constraint.exists_part ruler known (plain.suits.on known) (filled key)
      met (Constraint.isBlock_admits level _) ⟨spot, first, inside⟩
      fun s inside legal => none s legal inside
    refine ⟨single key x, List.mem_flatMap.2 ⟨(key, c.on key), KeyMap.mem_entries.2 found, mem⟩, ?_⟩
    intro key' kind' known' s legal admits
    rw [on_single]
    split
    · rename_i same
      subst same
      cases known.symm.trans known'
      exact sub s admits legal
    · trivial

/-- A clause with a clause within it that can be asked for does not contradict itself. -/
theorem not_isContradiction_of_within (suits : r.Suits fun _ => P) (possible : b.Possible level)
    (within : b.Within level r) : r.isContradiction = false := by
  rw [← Bool.not_eq_true]
  intro contradiction
  obtain ⟨key, x, found, never⟩ := KeyMap.any_values.1 contradiction
  obtain ⟨kind, known, _⟩ := suits key x found
  obtain ⟨s, legal, admits⟩ := possible key kind known
  have inside := within key kind known s legal admits
  rw [on_of_get? found] at inside
  exact Constraint.not_admits_of_isContradiction never s inside

private theorem exists_foldl_of_apart (ruler : Ratio.Ruler P level)
    (plainDone : ∀ d ∈ done, d.Plain fun _ => P) (plain : ∀ c ∈ cs, c.Plain fun _ => P)
    (filled : ∀ c ∈ cs, c.IsFilled) (possible : b.Possible level)
    (apart : ∀ c ∈ cs, b.Apart level c) (start : ∃ d ∈ done, b.Within level d) :
    ∃ r ∈ cs.foldl (fun done c => dropContradictions (product done c.negate)) done,
      b.Within level r := by
  induction cs generalizing done with
  | nil => exact start
  | cons c rest ih =>
    have hc := plain c List.mem_cons_self
    have parts (part : Clause) (mem : part ∈ c.negate) : part.Plain fun _ => P :=
      (isPart_of_mem_negate ruler hc mem).plain
    have products := plain_product plainDone parts
    refine ih (fun d mem => products d (List.mem_filter.1 mem).1)
      (fun d mem => plain d (List.mem_cons_of_mem _ mem))
      (fun d mem => filled d (List.mem_cons_of_mem _ mem))
      (fun d mem => apart d (List.mem_cons_of_mem _ mem)) ?_
    obtain ⟨d, hd, within⟩ := start
    obtain ⟨part, hp, within'⟩ := exists_part_of_apart ruler hc (filled c List.mem_cons_self)
      possible (apart c List.mem_cons_self)
    have joined := (plainDone d hd).and (parts part hp)
    have both := within.and ruler (plainDone d hd).suits (parts part hp).suits within'
    refine ⟨d.and part, List.mem_filter.2 ⟨mem_product.2 ⟨d, hd, part, hp, rfl⟩, ?_⟩, both⟩
    rw [not_isContradiction_of_within joined.suits possible both]
    exact Bool.or_true _

/-- Negations are complete. A clause that can be asked for lies within a clause of the negation of a
list iff it can be asked together with no clause of the list. -/
theorem within_negateAll_iff (ruler : Ratio.Ruler P level) (plain : ∀ c ∈ cs, c.Plain fun _ => P)
    (filled : ∀ c ∈ cs, c.IsFilled) (possible : b.Possible level) :
    (∃ r ∈ negateAll cs, b.Within level r) ↔ ∀ c ∈ cs, b.Apart level c := by
  constructor
  · rintro ⟨r, mem, within⟩ c hc
    exact ((isSettled_of_mem_negateAll ruler plain mem).2 c hc).of_within within
  · intro apart
    exact exists_foldl_of_apart ruler (by simp [plain_top]) plain filled possible apart
      ⟨top, by simp, fun _ _ _ _ _ _ => trivial⟩

/-- A clause implies a disjunction: whatever can be asked in addition to it, some clause of the
disjunction can be asked in addition to both. -/
def Implies (ratios : String → Ratio → Prop) (b : Clause) (cs : List Clause) : Prop :=
  ∀ s : Clause, s.Plain ratios → (b.and s).falseKeys = [] →
    ∃ c ∈ cs, ((b.and s).and c).falseKeys = []

/-- Double negations are complete. A clause that can be asked for lies within a clause of the double
negation of a list iff it implies the list. -/
theorem within_negateAll_negateAll_iff (ruler : Ratio.Ruler P level)
    (plain : ∀ c ∈ cs, c.Plain fun _ => P) (filled : ∀ c ∈ cs, c.IsFilled)
    (plainB : b.Plain fun _ => P) (possible : b.Possible level) :
    (∃ r ∈ negateAll (negateAll cs), b.Within level r) ↔ b.Implies (fun _ => P) cs := by
  have negated (n : Clause) (mem : n ∈ negateAll cs) := isSettled_of_mem_negateAll ruler plain mem
  have together {x y : Clause} (hx : x.Plain fun _ => P) (hy : y.Plain fun _ => P) :
      (x.and y).falseKeys = [] ↔ ¬x.Apart level y := by
    rw [falseKeys_eq_nil_iff ruler (hx.and hy).suits, possible_and_iff ruler hx.suits hy.suits]
  rw [within_negateAll_iff ruler (fun n mem => (negated n mem).1.plain)
    (fun n mem => (negated n mem).1.filled) possible]
  constructor
  · intro apart s plainS joined
    have both := plainB.and plainS
    have possible' := (falseKeys_eq_nil_iff ruler both.suits).1 joined
    by_contra none
    have outside (c : Clause) (mem : c ∈ cs) : (b.and s).Apart level c := by
      by_contra meets
      exact none ⟨c, mem, (together both (plain c mem)).2 meets⟩
    obtain ⟨n, mem, within⟩ := (within_negateAll_iff ruler plain filled possible').2 outside
    have excluded := (apart n mem).of_within (within_and_left ruler plainB.suits plainS.suits)
    obtain ⟨key, kind, known, no⟩ := excluded
    obtain ⟨s', legal, admits⟩ := possible' key kind known
    exact no s' legal admits (within key kind known s' legal admits)
  · intro implies n mem
    by_contra meets
    have settled := (negated n mem).1
    obtain ⟨c, hc, joined⟩ := implies n settled.plain ((together plainB settled.plain).2 meets)
    refine (together (plainB.and settled.plain) (plain c hc)).1 joined ?_
    exact ((negated n mem).2 c hc).of_within
      (within_and_right ruler plainB.suits settled.plain.suits)

end Spots

end Clause

end MediaQuery
