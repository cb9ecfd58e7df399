import MediaQuery.Proofs.Outright

set_option autoImplicit false

namespace MediaQuery

open Endpoint (compare zero infinity negInfinity)

section Trees

variable {d : Device} {P : String → Ratio → Prop} {c : SolverConfig} {m : Metrics}

mutual

theorem InParens.shows (valid : d.Valid) (ends : ∀ key, Ratio.Ends (P key)) : ∀ item : InParens,
    (∀ f ∈ item.features, Clause.Shows d P (f.verdict c) (f.clauses m)) → item.texts = [] →
      Clause.Shows d P (item.verdict c) (item.clauses m)
  | .condition condition, leaves, noText => by
    rw [InParens.verdict, InParens.clauses]
    exact Condition.shows valid ends condition leaves noText
  | .feature f, leaves, noText => by
    rw [InParens.verdict, InParens.clauses]
    exact leaves f (by simp [InParens.features])
  | .enclosed s, leaves, noText => by cases noText

theorem InParens.allShows (valid : d.Valid) (ends : ∀ key, Ratio.Ends (P key)) :
    ∀ (items : List InParens) {k : Kleene} {done : List Clause},
    (∀ f ∈ InParens.allFeatures items, Clause.Shows d P (f.verdict c) (f.clauses m)) →
      InParens.allTexts items = [] → Clause.Shows d P k done →
      Clause.Shows d P (k.and (InParens.allVerdict c items)) (InParens.allClauses m done items)
  | [], k, done, leaves, noText, shows => by
    rwa [InParens.allVerdict, InParens.allClauses, Kleene.and_yes]
  | item :: items, k, done, leaves, noText, shows => by
    simp only [InParens.allFeatures, List.mem_append] at leaves
    simp only [InParens.allTexts, List.append_eq_nil_iff] at noText
    have first := InParens.shows valid ends item (fun f mem => leaves f (.inl mem)) noText.1
    rw [InParens.allVerdict, InParens.allClauses, ← Kleene.and_assoc]
    exact InParens.allShows valid ends items (fun f mem => leaves f (.inr mem)) noText.2
      (shows.and valid ends first)

theorem InParens.anyShows (valid : d.Valid) (ends : ∀ key, Ratio.Ends (P key)) :
    ∀ items : List InParens,
    (∀ f ∈ InParens.allFeatures items, Clause.Shows d P (f.verdict c) (f.clauses m)) →
      InParens.allTexts items = [] →
      Clause.Shows d P (InParens.anyVerdict c items) (InParens.anyClauses m items)
  | [], leaves, noText => Clause.shows_nil
  | item :: items, leaves, noText => by
    simp only [InParens.allFeatures, List.mem_append] at leaves
    simp only [InParens.allTexts, List.append_eq_nil_iff] at noText
    rw [InParens.anyVerdict, InParens.anyClauses]
    exact (InParens.shows valid ends item (fun f mem => leaves f (.inl mem)) noText.1).or
      (InParens.anyShows valid ends items (fun f mem => leaves f (.inr mem)) noText.2)

theorem Condition.shows (valid : d.Valid) (ends : ∀ key, Ratio.Ends (P key)) :
    ∀ condition : Condition,
    (∀ f ∈ condition.features, Clause.Shows d P (f.verdict c) (f.clauses m)) →
      condition.texts = [] →
      Clause.Shows d P (condition.verdict c) (condition.clauses m)
  | .and items, leaves, noText => by
    have all := InParens.allShows valid ends items leaves noText Clause.shows_top
    rwa [Kleene.yes_and] at all
  | .or items, leaves, noText => by
    rw [Condition.verdict, Condition.clauses]
    exact InParens.anyShows valid ends items leaves noText
  | .not item, leaves, noText => by
    rw [Condition.verdict, Condition.clauses]
    exact (InParens.shows valid ends item leaves noText).not valid ends

end

/-- Nothing is known of a medium but that no device has one of another name. -/
theorem MediaType.shows_negated (t : MediaType) :
    Clause.Shows d P (t.verdict .unknown).not t.negated := by
  cases t with
  | all => exact Clause.shows_nil
  | other name => exact Clause.shows_top
  | screen | print =>
    refine Clause.shows_unknown fun c mem => ?_
    cases List.mem_singleton.1 mem
    exact Clause.fits_top.tagged _

/-- Queries with `only` are not ignored, so the word changes nothing. -/
theorem Query.verdict_of_affirmed {q : Query} (affirmed : q.qualifier ≠ some .not) :
    q.verdict {} = (q.mediaType.verdict .unknown).and
      ((q.condition.map (Condition.verdict {})).getD .yes) := by
  simp only [Query.verdict]
  cases word : q.qualifier with
  | none => rfl
  | some word' =>
    cases word' with
    | not => exact absurd word affirmed
    | only => exact Kleene.and_yes _

private theorem Query.shows_ownClauses (valid : d.Valid) (ends : ∀ key, Ratio.Ends (P key))
    (q : Query) (leaves : ∀ f ∈ q.features, Clause.Shows d P (f.verdict {}) (f.clauses m))
    (noText : q.texts = []) :
    Clause.Shows d P ((q.condition.map (Condition.verdict {})).getD .yes) (q.ownClauses m) := by
  unfold Query.ownClauses
  rw [Query.features] at leaves
  rw [Query.texts] at noText
  cases condition : q.condition with
  | none => exact Clause.shows_top
  | some c =>
    rw [condition] at leaves noText
    exact Condition.shows valid ends c leaves noText

theorem Query.shows (valid : d.Valid) (ends : ∀ key, Ratio.Ends (P key)) (q : Query)
    (leaves : ∀ f ∈ q.features, Clause.Shows d P (f.verdict {}) (f.clauses m))
    (noText : q.texts = []) : Clause.Shows d P (q.verdict {}) (q.clauses m) := by
  have own := Query.shows_ownClauses valid ends q leaves noText
  by_cases negated : q.qualifier = some .not
  · rw [q.clauses_of_negated negated]
    simp only [Query.verdict, negated, Kleene.not_and]
    refine q.mediaType.shows_negated.or ?_
    have tagged := (own.not valid ends).tagged (l := .yes) .all (by decide) fun _ => rfl
    rwa [Kleene.yes_and] at tagged
  · rw [q.clauses_of_affirmed negated, Query.verdict_of_affirmed negated]
    cases q.mediaType with
    | other name => exact Clause.shows_nil
    | all => exact own.tagged _ (by decide) fun _ => rfl
    | screen | print => exact own.tagged _ (by decide) fun yes => Kleene.noConfusion yes

theorem QueryList.shows (valid : d.Valid) (ends : ∀ key, Ratio.Ends (P key)) (list : QueryList)
    (leaves : ∀ f ∈ list.features, Clause.Shows d P (f.verdict {}) (f.clauses m))
    (noText : list.texts = []) : Clause.Shows d P (list.verdict {}) (list.clauses m) := by
  induction list with
  | nil => exact Clause.shows_nil
  | cons q rest ih =>
    simp only [QueryList.features, List.flatMap_cons, List.mem_append] at leaves
    simp only [QueryList.texts, List.flatMap_cons, List.append_eq_nil_iff] at noText
    exact (Query.shows valid ends q (fun f mem => leaves f (.inl mem)) noText.1).or
      (ih (fun f mem => leaves f (.inr mem)) noText.2)

end Trees

namespace Ratio

variable {r : Ratio} {op : Comparison} {k : Kleene} {P : Ratio → Prop}

/-- What is decided of a comparison with a ratio, if nothing is known of a device but that its ratio
lies in the domain. -/
inductive Settles (r : Ratio) : Comparison → Kleene → Prop where
  | ge (low : compare r zero = .eq) : Settles r .ge .yes
  | lt (low : compare r zero = .eq) : Settles r .lt .no
  | le (top : compare r infinity = .eq) : Settles r .le .yes
  | gt (top : compare r infinity = .eq) : Settles r .gt .no
  | unknown {op : Comparison} : Settles r op .unknown

theorem Settles.wide (settles : r.Settles op .yes) : (op.interval r).Wide := by
  cases settles with
  | ge low => exact ⟨rfl, .inr low, compare_self _, rfl⟩
  | le top => exact ⟨rfl, .inl rfl, top, rfl⟩

theorem Settles.low (settles : r.Settles op .no) :
    (op.interval r).Low ∨ op = .lt ∧ r.isZeroOverZero = true ∨
      op = .gt ∧ compare r infinity = .eq := by
  cases settles with
  | lt low =>
    cases both : r.isZeroOverZero with
    | true => exact .inr (.inl ⟨rfl, rfl⟩)
    | false => exact .inl ⟨both, low, rfl⟩
  | gt top => exact .inr (.inr ⟨rfl, top⟩)

theorem Ends.loose_interval (ends : Ends P) (hr : P r) (op : Comparison) :
    (op.interval r).Loose P := by
  cases op with
  | lt | le => exact ⟨.inl rfl, hr⟩
  | gt | ge => exact ⟨.inr hr, ends.greatest⟩
  | eq => exact ⟨.inr hr, hr⟩

end Ratio

namespace Interval

variable {P : Ratio → Prop} {part : Option (Interval Ratio)} {a : Interval Ratio} {r : Ratio}
  {op : Comparison} {k l : Kleene}

/-- What a verdict says of what comparisons leave of all ratios: after a yes it reaches over the
domain, and after a no it ends where the domain begins, if it is not empty. -/
structure Told (P : Ratio → Prop) (k : Kleene) (part : Option (Interval Ratio)) : Prop where
  loose : ∀ a, part = some a → a.Loose P
  yes : k = .yes → ∃ a, part = some a ∧ a.Wide
  no : k = .no → ∀ a, part = some a → a.Low

theorem told_limit (ends : Ratio.Ends P) (hr : P r) {limit : Option Limit}
    (settles : r.Settles (Limit.operator limit) k) :
    Told P k (some ((Limit.operator limit).interval r)) where
  loose _ same := by
    cases same
    exact ends.loose_interval hr _
  yes yes := by
    subst yes
    exact ⟨_, rfl, settles.wide⟩
  no no := by
    subst no
    rcases limit with _ | bound
    · cases settles
    · cases bound <;> cases settles

/-- One more comparison. What is left so far is open to the side that the comparison points to. -/
theorem Told.restrict (told : Told P k part) (ends : Ratio.Ends P) (hr : P r)
    (settles : r.Settles op l)
    (less : op.isLess = true → ∀ a, part = some a → a.max = infinity)
    (greater : op.isGreater = true → ∀ a, part = some a → a.min = negInfinity) :
    Told P (k.and l) (part.bind fun a => a.restrict? (some (op, r))) where
  loose c found := by
    obtain ⟨a, same, common⟩ := Option.bind_eq_some_iff.1 found
    exact (told.loose a same).inter? (ends.loose_interval hr op) common
  yes whole := by
    obtain ⟨yes, yes'⟩ := Kleene.and_eq_yes.1 whole
    obtain ⟨a, same, wide⟩ := told.yes yes
    subst yes'
    obtain ⟨c, common, both⟩ :=
      wide.inter? ends (told.loose a same) settles.wide (ends.loose_interval hr op)
    exact ⟨c, by rw [same]; exact common, both⟩
  no whole c found := by
    obtain ⟨a, same, common⟩ := Option.bind_eq_some_iff.1 found
    have loose := told.loose a same
    have loose' := ends.loose_interval hr op
    rcases Kleene.and_eq_no.1 whole with no | no
    · exact Low.of_inter? ends (.inl (told.no no a same)) loose loose' common
    · subst no
      rcases settles.low with low | ⟨rfl, both⟩ | ⟨rfl, top⟩
      · exact Low.of_inter? ends (.inr low) loose loose' common
      · have none := inter?_below_overZero (less rfl a same) both
        cases none.symm.trans common
      · have none := inter?_above ends (greater rfl a same) loose hr top
        cases none.symm.trans common

theorem told_restrict_unbounded (ends : Ratio.Ends P) (hr : P r) (settles : r.Settles op k) :
    Told P k ((unbounded : Interval Ratio).restrict? (some (op, r))) := by
  have all : Told P .yes (some unbounded) :=
    ⟨fun _ same => Option.some.inj same ▸ loose_unbounded ends, fun _ => ⟨_, rfl, wide_unbounded⟩,
      fun no => Kleene.noConfusion no⟩
  have told := all.restrict ends hr settles (fun _ _ same => Option.some.inj same ▸ rfl)
    fun _ _ same => Option.some.inj same ▸ rfl
  rwa [Kleene.yes_and, Option.bind_some] at told

/-- What a comparison leaves of all ratios is open to the side that it points to. -/
theorem max_restrict_unbounded (greater : op.isGreater = true)
    (found : (unbounded : Interval Ratio).restrict? (some (op, r)) = some a) :
    a.max = infinity := by
  have self : compare (infinity : Ratio) infinity = .eq := Ratio.compare_self _
  rw [(inter?_eq_some found).1]
  cases op <;> cases greater <;>
    simp [overlap, upperEnd, unbounded, Comparison.interval, atLeast, self]

theorem min_restrict_unbounded (less : op.isLess = true)
    (found : (unbounded : Interval Ratio).restrict? (some (op, r)) = some a) :
    a.min = negInfinity := by
  have self : compare (negInfinity : Ratio) negInfinity = .eq := Ratio.compare_self _
  rw [(inter?_eq_some found).1]
  cases op <;> cases less <;>
    simp [overlap, lowerEnd, unbounded, Comparison.interval, atMost, self]

theorem Told.shows {d : Device} {Q : String → Ratio → Prop} {key : String}
    (told : Told (Q key) k part) (known : FeatureTable.kind? key = some .ratio) :
    Clause.Shows d Q k [Clause.single key (.ofRatios? part)] where
  fits := by
    rw [List.forall_mem_singleton]
    exact Clause.fits_single known (Constraint.fits_ofRatios? told.loose)
  yes yes := by
    obtain ⟨a, rfl, wide⟩ := told.yes yes
    exact ⟨_, List.mem_singleton.2 rfl, Clause.sure_single wide⟩
  no no := by
    rw [List.forall_mem_singleton]
    refine Clause.vain_single ?_
    cases part with
    | none => exact Constraint.holds_never
    | some a => exact told.no no a rfl

end Interval

namespace Ratio

instance (r : Ratio) : Decidable r.Faithful :=
  decidable_of_iff ((Number.isZero r.quotient = true → Ratio.order r Endpoint.zero = .eq) ∧
      (Number.same r.quotient Number.infinity = true → Ratio.order r Endpoint.infinity = .eq))
    ⟨fun ⟨zero, infinite⟩ => ⟨zero, infinite⟩, fun ⟨zero, infinite⟩ => ⟨zero, infinite⟩⟩

/-- A number is a ratio that is its own quotient. -/
theorem compare_over_one_zero {x : Float} (level : Number.isZero x = true) :
    compare (⟨x, 1⟩ : Ratio) zero = .eq := by
  have number := Number.not_isNaN_of_isZero level
  have single : (⟨x, 1⟩ : Ratio).isZeroOverZero = false := by
    simp [isZeroOverZero, (by decide : Number.isZero 1 = false)]
  change order ⟨x, 1⟩ ⟨0, 1⟩ = .eq
  rw [order_eq_crossOrder single (by decide)]
  simp only [crossOrder, Number.mul_one, number, Number.isNaN_zero, Bool.or_self,
    Bool.false_eq_true, if_false]
  rw [Number.order_eq_compare_rank number Number.isNaN_zero, (Number.isZero_iff_rank x).1 level,
    Number.rank_zero, compare_eq_iff_eq]

end Ratio

/-- Whether a value that is a ratio is what its quotient says. -/
def Value.isFaithful : Value → Bool
  | .ratio x y => decide (⟨x, y⟩ : Ratio).Faithful
  | _ => true

section Tests

variable {m : Metrics} {value : Value} {r : Ratio}

theorem Value.faithful_of_isFaithful (faithful : value.isFaithful = true)
    (quantity : Quantity.ofValue m value = .ratio r) : r.Faithful := by
  cases value with
  | ratio x y =>
    cases quantity
    exact of_decide_eq_true faithful
  | number x integer => cases quantity
  | dimension x unit => exact absurd quantity ((Quantity.ofDimension_ne m x unit).2 r)
  | ident name =>
    rw [Quantity.ofValue_ident] at quantity
    split at quantity <;> cases quantity

/-- The solver takes a written ratio for a number from zero on, which is zero or infinite only where
the ratio is on a level with the least or the greatest one. -/
theorem Value.exists_inRange?_ratio (read : FeatureSpec.ratio? m value = some r)
    (faithful : value.isFaithful = true) :
    ∃ x, value.inRange? m .ratio [] = some x ∧ Number.isNegative x = false ∧
      (Number.isZero x = true → compare r zero = .eq) ∧
      (Number.same x Number.infinity = true → compare r infinity = .eq) := by
  have noWord (name : String) : value ≠ .ident name := by
    rintro rfl
    rw [FeatureSpec.ratio?, Quantity.ofValue_ident] at read
    split at read <;> cases read
  rw [Value.inRange?_eq_inKind? noWord]
  rcases FeatureSpec.ratio?_eq_some read with ⟨x, integer, quantity, rfl, above⟩ |
    ⟨quantity, numerator, denominator⟩
  · refine ⟨x, by rw [quantity]; rfl, ?_, Ratio.compare_over_one_zero, fun top => ?_⟩
    · simp only [Number.isNonNegative, Bool.and_eq_true, decide_eq_true_iff] at above
      simp [Number.isNegative, above.2]
    · rw [Number.eq_infinity_of_same top]
      exact Ratio.compare_self _
  · have exact := faithful_of_isFaithful faithful quantity
    rw [FeatureSpec.ratio?, quantity] at read
    refine ⟨r.quotient, ?_, Ratio.isNegative_quotient numerator denominator, exact.zero,
      exact.infinite⟩
    simp only [quantity, Quantity.inKind?, read, Option.map_some]

theorem Feature.settles_compareDemand (asked : Feature) (op : Comparison)
    (read : FeatureSpec.ratio? m value = some r) (faithful : value.isFaithful = true) :
    r.Settles op ((compareDemand m (.range .ratio true false []) asked op value).verdict
      Oracle.silent) := by
  obtain ⟨x, inRange, above, low, top⟩ := Value.exists_inRange?_ratio read faithful
  simp only [compareDemand, inRange, Bool.or_false]
  split
  · exact .unknown
  · cases decided : op.decide? true x with
    | none => exact .unknown
    | some verdict =>
      cases op <;>
        simp only [Comparison.decide?, above, Bool.not_true, Bool.and_false, Bool.or_self,
          Bool.false_or, Bool.false_eq_true, if_false, Option.ite_none_right_eq_some,
          Option.some.injEq, reduceCtorEq] at decided <;>
        obtain ⟨level, rfl⟩ := decided
      · exact .lt (low level)
      · exact .le (top level)
      · exact .gt (top level)
      · exact .ge (low level)

end Tests

/-- Of a ratio it is known that it may be zero. -/
theorem Knowledge.ofSpec_ratio : ∀ spec ∈ FeatureTable.all, spec.kind = .ratio →
    ofSpec spec = .range .ratio true false [] := by
  decide

namespace Feature

variable {d : Device} {P : String → Ratio → Prop} {m : Metrics} {f : Feature} {name : String}
  {limit : Option Limit} {spec : FeatureSpec} {value : Value} {r : Ratio}

theorem clauses_of_asked? {constraints : List Constraint}
    (resolved : FeatureTable.resolve? f.name = some (limit, spec))
    (asked : f.asked? m limit spec = some constraints) :
    f.clauses m = constraints.map (Clause.single spec.key) := by
  rw [clauses, constraints?_eq_some.2 ⟨limit, spec, resolved, rfl, asked⟩]

section Ratios

variable (ends : ∀ key, Ratio.Ends (P key)) (shape : spec.kind = .ratio)

include shape

theorem knows_ratio (found : FeatureTable.lookup? name = some spec) :
    Knowledge.builtIn.get? name = some (.range .ratio true false []) := by
  rw [Knowledge.get?_builtIn, found, Option.map_some,
    Knowledge.ofSpec_ratio spec (FeatureTable.lookup?_mem found) shape]

theorem kind?_ratio (resolved : FeatureTable.resolve? name = some (limit, spec)) :
    FeatureTable.kind? spec.key = some .ratio := by
  rw [FeatureSpec.kind?_key spec (FeatureTable.resolve?_mem resolved), FeatureSpec.valueKind,
    shape]

/-- A value behind the name of a ratio is one comparison. -/
theorem verdict_plain_ratio (resolved : FeatureTable.resolve? name = some (limit, spec))
    (value : Value) :
    ∃ asked, (plain name value).verdict {} = (compareDemand {} (.range .ratio true false []) asked
      (Limit.operator limit) value).verdict Oracle.silent := by
  obtain ⟨rfl, found⟩ | ⟨bound, base, rfl, absent, divided, found, _⟩ :=
    FeatureTable.resolve?_eq_some resolved
  · refine ⟨plain name value, ?_⟩
    simp only [verdict, demands, Feature.name, knows_ratio shape found, knownDemands]
    exact Kleene.and_yes _
  · refine ⟨compare base bound.comparison value, ?_⟩
    simp only [verdict, demands, Feature.name, Knowledge.get?_builtIn, absent, unknownDemands,
      divided, Option.map_none, found, Option.map_some,
      Knowledge.ofSpec_ratio spec (FeatureTable.lookup?_mem found) shape]
    exact Kleene.and_yes _

include ends

theorem shows_boolean_ratio (found : FeatureTable.lookup? name = some spec) :
    Clause.Shows d P ((boolean name).verdict {}) ((boolean name).clauses m) := by
  have resolved := FeatureTable.resolve?_of_lookup? found
  have asked : (boolean name).verdict {} = .unknown := by
    simp only [verdict, demands, Feature.name, knows_ratio shape found, knownDemands,
      Knowledge.canBeFalsy]
    rfl
  rw [asked, clauses_of_asked? (f := boolean name) resolved rfl,
    FeatureSpec.ofBoolean_ratio shape, List.map_map]
  refine Clause.shows_unknown fun c mem => ?_
  obtain ⟨interval, part, rfl⟩ := List.mem_map.1 mem
  have zero : (Interval.exact Endpoint.zero).Loose (P spec.key) :=
    (ends spec.key).loose_interval (ends spec.key).least .eq
  exact Clause.fits_single (kind?_ratio shape resolved)
    (.ratio (zero.complement (ends spec.key) part))

theorem shows_plain_ratio (resolved : FeatureTable.resolve? name = some (limit, spec))
    (read : FeatureSpec.ratio? {} value = some r) (faithful : value.isFaithful = true)
    (hr : P spec.key r) :
    Clause.Shows d P ((plain name value).verdict {}) ((plain name value).clauses {}) := by
  obtain ⟨asked, verdict⟩ := verdict_plain_ratio shape resolved value
  have made : (plain name value).asked? {} limit spec =
      some [.ratio ((Limit.operator limit).interval r)] := by
    rw [asked?, FeatureSpec.ofPlain?_ratio shape, read, Option.map_some, Option.map_some,
      Limit.interval_eq]
  rw [verdict, clauses_of_asked? (f := plain name value) resolved made]
  exact (Interval.told_limit (ends spec.key) hr (settles_compareDemand asked _ read faithful)).shows
    (kind?_ratio shape resolved)

theorem shows_range_ratio {ts : List Token} {left : Option (Value × Comparison)}
    {right : Option (Comparison × Value)} {left' : Option (Ratio × Comparison)}
    {right' : Option (Comparison × Ratio)} (form : Form ts (range name left right))
    (found : FeatureTable.lookup? name = some spec)
    (sides : FeatureSpec.sides? (FeatureSpec.ratio? {}) left right = some (left', right'))
    (faithful : ∀ value ∈ (range name left right).values, value.isFaithful = true)
    (written : ∀ value ∈ (range name left right).values, ∀ r,
      FeatureSpec.ratio? {} value = some r → P spec.key r) :
    Clause.Shows d P ((range name left right).verdict {}) ((range name left right).clauses {}) := by
  have resolved := FeatureTable.resolve?_of_lookup? found
  have made : (range name left right).asked? {} none spec =
      some [.ofRatios? (Interval.between? left' right')] := by
    simp [asked?, FeatureSpec.ofRange?_ratio shape, sides]
  have sided : (range name left right).isSided = true := by cases form <;> rfl
  have told : Interval.Told (P spec.key) ((range name left right).verdict {})
      (Interval.between? left' right') := by
    have settles {value : Value} {r : Ratio} (op : Comparison)
        (mem : value ∈ (range name left right).values)
        (legal : FeatureSpec.ratio? {} value = some r) :=
      settles_compareDemand (compare name op value) op legal (faithful value mem)
    simp only [verdict, demands_sides (m := {}) (knows_ratio shape found) sided]
    cases form with
    | @right _ _ _ _ op value =>
      have mem : value ∈ (range name none (some (op, value))).values := by
        simp [values, FeatureSpec.sideValues]
      rw [FeatureSpec.sides?_right] at sides
      obtain ⟨r, legal, same⟩ := Option.map_eq_some_iff.1 sides
      cases same
      have told := Interval.told_restrict_unbounded (ends spec.key) (written value mem r legal)
        (settles op mem legal)
      rw [← Kleene.and_yes (Demand.verdict _ _)] at told
      exact told
    | @left _ _ _ _ op value =>
      have mem : value ∈ (range name (some (value, op)) none).values := by
        simp [values, FeatureSpec.sideValues]
      rw [FeatureSpec.sides?_left] at sides
      obtain ⟨r, legal, same⟩ := Option.map_eq_some_iff.1 sides
      cases same
      have told := Interval.told_restrict_unbounded (ends spec.key) (written value mem r legal)
        (settles op.flip mem legal)
      rw [← Kleene.and_yes (Demand.verdict _ _), ← Option.bind_fun_some (Interval.restrict? _ _)]
        at told
      exact told
    | @both _ _ _ _ _ _ low high a b named comparesLow comparesHigh along =>
      have memLow : a ∈ (range name (some (a, low)) (some (high, b))).values := by
        simp [values, FeatureSpec.sideValues]
      have memHigh : b ∈ (range name (some (a, low)) (some (high, b))).values := by
        simp [values, FeatureSpec.sideValues]
      rw [FeatureSpec.sides?_both] at sides
      obtain ⟨x, first, sides⟩ := Option.bind_eq_some_iff.1 sides
      obtain ⟨y, second, same⟩ := Option.map_eq_some_iff.1 sides
      cases same
      -- Both operators point the same way, so the first one leaves what the second one cuts open.
      have told := (Interval.told_restrict_unbounded (ends spec.key) (written a memLow x first)
        (settles low.flip memLow first)).restrict (ends spec.key) (written b memHigh y second)
        (settles high memHigh second)
        (fun less _ => Interval.max_restrict_unbounded (by
          cases low <;> cases high <;> cases along <;> cases less <;> rfl))
        (fun greater _ => Interval.min_restrict_unbounded (by
          cases low <;> cases high <;> cases along <;> cases greater <;> rfl))
      rw [← Kleene.and_yes (Demand.verdict _ (compareDemand _ _ _ high _))] at told
      exact told
  rw [clauses_of_asked? (f := range name left right) resolved made]
  exact told.shows (kind?_ratio shape resolved)

end Ratios

/-- Ratios are asked for by features that are compared with ratios, and by orientations. -/
theorem AsksFor.of_ratio {c : Constraint} (asks : f.AsksFor m limit spec c)
    {interval : Interval Ratio} (same : c = .ratio interval) :
    spec.kind = .ratio ∨ spec.kind = .orientation ∧ ∃ name value, f = .plain name value := by
  cases asks with
  | name asks =>
    cases asks <;> cases same
    exact .inl ‹_›
  | value asks =>
    cases asks <;> cases same
    · exact .inr ⟨‹_›, _, _, rfl⟩
    · exact .inr ⟨‹_›, _, _, rfl⟩
    · exact .inl ‹_›
  | sides asks =>
    cases asks with
    | @number _ low high =>
      cases between : Interval.between? low high <;> rw [between] at same <;> cases same
    | ratio shape => exact .inl shape

/-- The orientation is asked for where it is named. -/
theorem shows_orientation (ends : ∀ key, Ratio.Ends (P key)) (shape : spec.kind = .orientation)
    (resolved : FeatureTable.resolve? name = some (limit, spec)) {c : Constraint}
    (made : spec.ofPlain? m limit value = some c) :
    Clause.Shows d P ((plain name value).verdict {}) ((plain name value).clauses m) := by
  have words : spec.isRange = false := by simp [FeatureSpec.isRange, shape]
  obtain ⟨rfl, found⟩ := FeatureTable.resolve?_words resolved words
  obtain ⟨legal, canBeFalse, knowledge⟩ := Knowledge.ofSpec_words words
  have asked : (plain name value).verdict {} = .unknown := by
    simp only [verdict, demands, Feature.name, Knowledge.get?_builtIn, found, Option.map_some,
      knowledge, knownDemands, discreteText?_mem knowledge made, if_true]
    rfl
  have known : FeatureTable.kind? spec.key = some .ratio := by
    rw [FeatureSpec.kind?_key spec (FeatureTable.lookup?_mem found), FeatureSpec.valueKind, shape]
  rw [asked, clauses_of_asked? (f := plain name value) resolved (by rw [asked?, made]; rfl)]
  refine Clause.shows_unknown fun clause mem => ?_
  cases List.mem_singleton.1 mem
  refine Clause.fits_single known ?_
  have bounds := ends spec.key
  cases FeatureSpec.valueAsks_of_eq_some made with
  | universal legal => exact .plain .always
  | portrait => exact .ratio ⟨.inr bounds.least, bounds.middle⟩
  | landscape => exact .ratio ⟨.inr bounds.middle, bounds.greatest⟩
  | number numeric =>
    rw [FeatureSpec.valueKind, shape] at numeric
    cases numeric
  | discrete other | gamut other | ratio other => cases shape.symm.trans other

/-- The ratios that a test compares a ratio of the device with. -/
def writtenRatios (m : Metrics) (key : String) (f : Feature) : List Ratio :=
  if f.asksRatio key then f.values.filterMap (FeatureSpec.ratio? m) else []

/-- A test on which a solver is right without a device to ask. -/
structure Decidedly (P : String → Ratio → Prop) (f : Feature) : Prop where
  form : ∃ ts, Form ts f
  readable : f.isUnreadable {} = false
  numbers : ∀ value ∈ f.values, ∀ x ∈ (Quantity.ofValue {} value).numbers, Number.isNaN x = false
  faithful : ∀ value ∈ f.values, value.isFaithful = true
  written : ∀ key, ∀ r ∈ f.writtenRatios {} key, P key r

theorem Decidedly.shows_ratio (decidedly : f.Decidedly P) (ends : ∀ key, Ratio.Ends (P key))
    (resolved : FeatureTable.resolve? f.name = some (limit, spec)) {constraints : List Constraint}
    (asked : f.asked? {} limit spec = some constraints) (shape : spec.kind = .ratio) :
    Clause.Shows d P (f.verdict {}) (f.clauses {}) := by
  have written (value : Value) (mem : value ∈ f.values) (r : Ratio)
      (read : FeatureSpec.ratio? {} value = some r) : P spec.key r := by
    have asks : f.asksRatio spec.key = true := by simp [asksRatio, resolved, shape]
    refine decidedly.written spec.key r ?_
    rw [writtenRatios, if_pos asks]
    exact List.mem_filterMap.2 ⟨value, mem, read⟩
  cases f with
  | boolean name =>
    simp only [asked?, Option.ite_none_right_eq_some, Option.isNone_iff_eq_none] at asked
    obtain ⟨rfl, _⟩ := asked
    obtain ⟨_, found⟩ | ⟨_, _, impossible, _⟩ := FeatureTable.resolve?_eq_some resolved
    · exact shows_boolean_ratio ends shape found
    · cases impossible
  | plain name value =>
    simp only [asked?, FeatureSpec.ofPlain?_ratio shape, Option.map_map,
      Option.map_eq_some_iff] at asked
    obtain ⟨r, read, _⟩ := asked
    have mem : value ∈ (plain name value).values := List.mem_cons_self
    exact shows_plain_ratio ends shape resolved read (decidedly.faithful value mem)
      (written value mem r read)
  | range name left right =>
    simp only [asked?, Option.ite_none_right_eq_some, Option.isNone_iff_eq_none,
      FeatureSpec.ofRange?_ratio shape, Option.map_map, Option.map_eq_some_iff] at asked
    obtain ⟨rfl, ⟨left', right'⟩, sides, _⟩ := asked
    obtain ⟨ts, form⟩ := decidedly.form
    obtain ⟨_, found⟩ | ⟨_, _, impossible, _⟩ := FeatureTable.resolve?_eq_some resolved
    · exact shows_range_ratio ends shape form found sides decidedly.faithful written
    · cases impossible

theorem Decidedly.shows (decidedly : f.Decidedly P) (ends : ∀ key, Ratio.Ends (P key))
    (valid : d.Valid) (real : d.Real) : Clause.Shows d P (f.verdict {}) (f.clauses {}) := by
  have sound := valid.sound_sides
  obtain ⟨⟨key, constraints⟩, understood⟩ := Option.isSome_iff_exists.1 (by
    simpa [isUnreadable] using decidedly.readable : (f.constraints? {}).isSome = true)
  obtain ⟨limit, spec, resolved, rfl, asked⟩ := constraints?_eq_some.1 understood
  by_cases shape : spec.kind = .ratio
  · exact decidedly.shows_ratio ends resolved asked shape
  by_cases oriented : spec.kind = .orientation ∧ ∃ name value, f = .plain name value
  · obtain ⟨oriented, name, value, rfl⟩ := oriented
    obtain ⟨c, made, _⟩ := Option.map_eq_some_iff.1 asked
    exact shows_orientation ends oriented resolved made
  obtain ⟨ts, form⟩ := decidedly.form
  have judged : f.Judged d.Sides {} := judged_sides decidedly.readable (by cases form <;> rfl)
    decidedly.numbers fun limit' spec' resolved' => by
      cases resolved.symm.trans resolved'
      exact shape
  refine Clause.shows_of_plain (fun c mem => ?_) (judged.verdict_silent sound real)
  have plain := plain_clauses_of_within judged.readable judged.within c mem
  refine ⟨plain.readable, plain.untagged, fun key x found => ?_⟩
  obtain ⟨kind, known, suits⟩ := plain.suits key x found
  refine ⟨kind, known, suits.of_noRatio ?_⟩
  rintro interval rfl
  rcases exists_asksFor mem with ⟨_, rfl⟩ | ⟨limit', spec', y, resolved', asks, rfl⟩
  · cases found
  · cases resolved.symm.trans resolved'
    obtain ⟨rfl, same⟩ := Clause.get?_single_eq_some.1 found
    exact (asks.of_ratio same).elim shape oriented

end Feature

def QueryList.writtenRatios (list : QueryList) (m : Metrics) (key : String) : List Ratio :=
  list.features.flatMap (Feature.writtenRatios m key)

/-- Where the ratios on a level with zero compare as zero does, the written ratios are the ends of
intervals as they should be; of other features than the two ratios none are written. -/
theorem QueryList.ends_of_grounded {list : QueryList} {m : Metrics}
    (grounded : ∀ key ∈ ["aspect-ratio", "device-aspect-ratio"],
      Ratio.Grounded (list.writtenRatios m key)) (key : String) :
    Ratio.Ends fun r => r ∈ list.writtenRatios m key ∨ r ∈ [zero, ⟨1, 1⟩, infinity] := by
  have written (r : Ratio) (mem : r ∈ list.writtenRatios m key) :
      r.IsWritten ∧ key ∈ ["aspect-ratio", "device-aspect-ratio"] := by
    obtain ⟨f, _, inside⟩ := List.mem_flatMap.1 mem
    rw [Feature.writtenRatios] at inside
    split at inside
    · rename_i asks
      obtain ⟨value, _, read⟩ := List.mem_filterMap.1 inside
      exact ⟨Ratio.isWritten_of_ratio? read, by simpa using Feature.key_of_asksRatio asks⟩
    · cases inside
  exact Ratio.Grounded.ends (fun x mem => grounded key (written x mem).2 x mem)
    fun r mem => (written r mem).1

/-- A verdict that is reached without a device is right on every real device, if the quotients of
the written ratios are not rounded to zero or infinity, and the ratios on a level with zero compare
as zero does. -/
theorem QueryList.match_of_decided {source : String} {list : QueryList} {d : Device}
    (parsed : QueryList.parse source = .ok list) (understood : list.Understood {})
    (faithful : ∀ f ∈ list.features, ∀ value ∈ f.values, value.isFaithful = true)
    (grounded : ∀ key ∈ ["aspect-ratio", "device-aspect-ratio"],
      Ratio.Grounded (list.writtenRatios {} key))
    (valid : d.validate = .ok ()) (real : d.Real) :
    (list.verdict {} = .yes → (list.compile {}).matches d = .ok true) ∧
      (list.verdict {} = .no → (list.compile {}).matches d = .ok false) := by
  have valid' := Device.validate_eq_ok.1 valid
  have ends := QueryList.ends_of_grounded grounded
  have shows := QueryList.shows valid' ends list (fun f mem => Feature.Decidedly.shows
    ⟨QueryList.exists_form_of_parse parsed f mem,
      Feature.isUnreadable_eq_false (understood.readable f mem), understood.numbers f mem,
      faithful f mem, fun key r inside => .inl (List.mem_flatMap.2 ⟨f, mem, inside⟩)⟩
    ends valid' real) understood.noText
  rw [Outcome.matches_of_validate valid, QueryList.compile]
  refine ⟨fun yes => ?_, fun no => ?_⟩
  · have same := shows.anyHolds_ofClauses valid' ends (by rw [yes]; decide)
    rw [Kleene.ofBool_eq_yes.1 (same.symm.trans yes)]
  · have same := shows.anyHolds_ofClauses valid' ends (by rw [no]; decide)
    rw [Kleene.ofBool_eq_no.1 (same.symm.trans no)]

/-- No aspect ratio is below zero over zero or above one over zero, not even that of an empty
viewport. -/
theorem QueryList.match_of_decided_overZero :
    ∃ list, QueryList.parse "(aspect-ratio >= 0/0) and (aspect-ratio <= 1/0)" = .ok list ∧
      (list.compile {}).matches { widthPx := 0, heightPx := 0 } = .ok true := by
  obtain ⟨list, parsed, tested⟩ := QueryList.exists_of_isRead
    "(aspect-ratio >= 0/0) and (aspect-ratio <= 1/0)"
    (fun list => decide (list.Understood {} ∧
      (∀ f ∈ list.features, ∀ value ∈ f.values, value.isFaithful = true) ∧
      (∀ key ∈ ["aspect-ratio", "device-aspect-ratio"],
        Ratio.Grounded (list.writtenRatios {} key)) ∧
      list.verdict {} = .yes)) (by decide +kernel)
  obtain ⟨understood, faithful, grounded, yes⟩ := of_decide_eq_true tested
  have real : Device.Real { widthPx := 0, heightPx := 0 } :=
    ⟨by decide +kernel, by decide +kernel, by decide, by decide⟩
  exact ⟨list, parsed,
    (QueryList.match_of_decided parsed understood faithful grounded rfl real).1 yes⟩

private theorem QueryList.decided_against {source : String} {d : Device} {verdict : Kleene}
    {matched : Bool} (valid : d.validate = .ok ())
    (run : QueryList.isRead source (fun list => decide (list.Understood {} ∧
      list.verdict {} = verdict ∧ Clause.anyHolds d (list.compile {}).clauses = matched)) = true) :
    ∃ list, QueryList.parse source = .ok list ∧ list.Understood {} ∧ list.verdict {} = verdict ∧
      (list.compile {}).matches d = .ok matched := by
  obtain ⟨list, parsed, tested⟩ := QueryList.exists_of_isRead source _ run
  obtain ⟨understood, decided, holds⟩ := of_decide_eq_true tested
  exact ⟨list, parsed, understood, decided, by rw [Outcome.matches_of_validate valid, holds]⟩

/-- Valid devices on which a verdict is wrong: one without a screen, two whose ratio is compared
with a ratio that rounds to zero or to infinity, and one whose ratio is compared with two ratios on
one level, of which only one is on a level with zero. -/
theorem QueryList.decided_wrongly :
    (∃ list, QueryList.parse "(device-width)" = .ok list ∧ list.Understood {} ∧
      list.verdict {} = .yes ∧ (list.compile {}).matches { deviceWidthPx := 0 } = .ok false) ∧
    (∃ list, QueryList.parse "(aspect-ratio < 1e-300/1e300)" = .ok list ∧ list.Understood {} ∧
      list.verdict {} = .no ∧ (list.compile {}).matches { widthPx := 0 } = .ok true) ∧
    (∃ list, QueryList.parse "(aspect-ratio > 1e300/1e-300)" = .ok list ∧ list.Understood {} ∧
      list.verdict {} = .no ∧ (list.compile {}).matches { heightPx := 0 } = .ok true) ∧
    ∃ list, QueryList.parse "(aspect-ratio <= 1e-300/1) and (aspect-ratio < 0/1e-300)" =
      .ok list ∧ list.Understood {} ∧ list.verdict {} = .no ∧
      (list.compile {}).matches { widthPx := 0 } = .ok true :=
  ⟨QueryList.decided_against rfl (by decide +kernel),
    QueryList.decided_against rfl (by decide +kernel),
    QueryList.decided_against rfl (by decide +kernel),
    QueryList.decided_against rfl (by decide +kernel)⟩

end MediaQuery
