import MediaQuery.Proofs.Measure

set_option autoImplicit false

namespace MediaQuery

/-- Whether a demand is met by a device. -/
def Demand.truth (d : Device) (m : Metrics) : Demand → Bool
  | .decided verdict => verdict == .yes
  | .ask f => Clause.anyHolds d (f.clauses m)

/-- A demand that is decided one way or the other, or whose test is understood. -/
inductive Demand.Definite (ratios : String → Ratio → Prop) (m : Metrics) : Demand → Prop where
  | decided {verdict : Kleene} (known : verdict ≠ .unknown) : Definite ratios m (.decided verdict)
  | ask {f : Feature} (plain : ∀ c ∈ f.clauses m, c.Plain ratios) : Definite ratios m (.ask f)

namespace FeatureSpec

/-- What is known of a feature is right for a value: it is zero only if it can be, and what is
decided of a comparison with a written value is what the value compares like. -/
structure Judges {α : Type} [Endpoint α] (spec : FeatureSpec) (m : Metrics) (kind : RangeKind)
    (canBeZero : Bool) (extraValues : List String) (values : List Value)
    (read : Value → Option α) (v : α) : Prop where
  known : Knowledge.ofSpec spec = .range kind canBeZero false extraValues
  nonzero : canBeZero = false → Endpoint.compare v Endpoint.zero ≠ .eq
  right : ∀ value ∈ values, ∀ x, read value = some x → ∃ y,
    value.inRange? m kind extraValues = some y ∧ ∀ (op : Comparison) (verdict : Kleene),
      Number.isNaN y = false → op.decide? canBeZero y = some verdict →
        verdict = Kleene.ofBool (op.accepts (Endpoint.compare v x))

theorem Among.mono {spec : FeatureSpec} {m : Metrics} {P : Ratio → Prop} {values more : List Value}
    (among : spec.Among m P more) (sub : ∀ value ∈ values, value ∈ more) :
    spec.Among m P values where
  numbers value mem := among.numbers value (sub value mem)
  bounds := among.bounds
  written kind value mem := among.written kind value (sub value mem)
  sides := among.sides

end FeatureSpec

namespace Knowledge

theorem get?_builtIn (name : String) :
    builtIn.get? name = (FeatureTable.lookup? name).map ofSpec := by
  have distinct : (FeatureTable.all.map fun spec => (spec.name, ofSpec spec)).Pairwise
      fun x y => x.1 ≠ y.1 := by
    rw [List.pairwise_map]
    decide
  rw [builtIn, KeyMap.get?_ofList distinct, FeatureTable.lookup?]
  induction FeatureTable.all with
  | nil => rfl
  | cons spec rest ih =>
    rw [List.map_cons, List.lookup_cons, List.find?_cons]
    by_cases same : spec.name = name
    · simp [same]
    · rw [beq_false_of_ne same, beq_false_of_ne (Ne.symm same)]
      exact ih

/-- The words that are known of a feature without comparisons. -/
inductive WordsOf (spec : FeatureSpec) : List String → Prop
  | discrete {values : List DiscreteValue} (kind : spec.kind = .discrete values) :
      WordsOf spec (values.map DiscreteValue.text)
  | gamut (kind : spec.kind = .gamut) : WordsOf spec ["srgb", "p3", "rec2020"]
  | orientation (kind : spec.kind = .orientation) : WordsOf spec ["portrait", "landscape"]

/-- The kind of the numbers that are known of a feature with comparisons, and the words that stand
for a number. -/
inductive RangeOf (spec : FeatureSpec) : RangeKind → List String → Prop
  | length (kind : spec.kind = .numeric .length) : RangeOf spec .length []
  | integer (kind : spec.kind = .numeric .integer) : RangeOf spec .integer []
  | resolution (kind : spec.kind = .numeric .resolution) : RangeOf spec .resolution ["infinite"]
  | ratio (kind : spec.kind = .ratio) : RangeOf spec .ratio []
  | number (kind : spec.kind = .pixelRatio) : RangeOf spec .number []

variable {spec : FeatureSpec}

theorem wordsOf_of_ofSpec {words : List String} {canBeFalse : Bool}
    (known : ofSpec spec = .discrete words canBeFalse) : WordsOf spec words := by
  unfold ofSpec at known
  cases kind : spec.kind with
  | discrete values => simp only [kind] at known; cases known; exact .discrete kind
  | gamut => simp only [kind] at known; cases known; exact .gamut kind
  | orientation => simp only [kind] at known; cases known; exact .orientation kind
  | numeric unit => cases unit <;> simp only [kind] at known <;> cases known
  | ratio | pixelRatio => simp only [kind] at known; cases known

theorem rangeOf_of_ofSpec {kind : RangeKind} {canBeZero canBeNegative : Bool}
    {extraValues : List String}
    (known : ofSpec spec = .range kind canBeZero canBeNegative extraValues) :
    RangeOf spec kind extraValues := by
  unfold ofSpec at known
  cases shape : spec.kind with
  | discrete | gamut | orientation => simp only [shape] at known; cases known
  | numeric unit =>
    cases unit <;> simp only [shape] at known <;> cases known
    · exact .length shape
    · exact .integer shape
    · exact .resolution shape
  | ratio => simp only [shape] at known; cases known; exact .ratio shape
  | pixelRatio => simp only [shape] at known; cases known; exact .number shape

/-- What is known of a feature with words is which ones it has. -/
theorem ofSpec_words (words : spec.isRange = false) : ∃ legal canBeFalse,
    ofSpec spec = .discrete legal canBeFalse := by
  unfold FeatureSpec.isRange at words
  unfold ofSpec
  cases kind : spec.kind with
  | discrete | gamut | orientation => exact ⟨_, _, rfl⟩
  | _ => simp only [kind, Bool.true_eq_false] at words

/-- What is known of a feature that takes comparisons: none of them has numbers below zero. -/
theorem ofSpec_range (takes : spec.isRange = true) : ∃ kind extraValues,
    ofSpec spec = .range kind (!neverZero.contains spec.name) false extraValues := by
  unfold FeatureSpec.isRange at takes
  unfold ofSpec
  cases shape : spec.kind with
  | numeric unit => cases unit <;> exact ⟨_, _, rfl⟩
  | ratio | pixelRatio => exact ⟨_, _, rfl⟩
  | _ => simp only [shape, Bool.false_eq_true] at takes

end Knowledge

namespace Feature

variable {d : Device} {m : Metrics} {ratios : String → Ratio → Prop} {f : Feature}

theorem anyHolds_clauses {key : String} {constraints : List Constraint}
    (understood : f.constraints? m = some (key, constraints)) :
    Clause.anyHolds d (f.clauses m) = constraints.any (·.holds d key) := by
  rw [clauses, understood, Clause.anyHolds, List.any_map]
  refine List.any_congr rfl fun c => ?_
  simp [Clause.holds, Clause.single, KeyMap.single, Clause.isInvalid]

/-- The comparisons that a test makes, each with the feature on its left; a value behind a colon is
compared as the limit in the name says. -/
def comparisons (limit : Option Limit) : Feature → List (Comparison × Value)
  | .boolean _ => []
  | .plain _ value => [((limit.map Limit.comparison).getD .eq, value)]
  | .range _ left right =>
    left.toList.map (fun (value, op) => (op.flip, value)) ++ right.toList

theorem mem_values_of_comparisons {limit : Option Limit} {c : Comparison × Value}
    (mem : c ∈ f.comparisons limit) : c.2 ∈ f.values := by
  cases f with
  | boolean name => cases mem
  | plain name value =>
    cases List.mem_singleton.1 mem
    exact List.mem_cons_self
  | range name left right =>
    simp only [comparisons, List.mem_append, List.mem_map, Option.mem_toList] at mem
    rcases mem with ⟨⟨value, op⟩, rfl, rfl⟩ | rfl <;> simp [values, FeatureSpec.sideValues]

/-- A comparison on both sides is one comparison for each side. -/
theorem demands_sides {name : String} {left : Option (Value × Comparison)}
    {right : Option (Comparison × Value)} {kind : RangeKind} {canBeZero canBeNegative : Bool}
    {extraValues : List String} (known : Knowledge.builtIn.get? name =
      some (.range kind canBeZero canBeNegative extraValues))
    (sided : (range name left right).isSided = true) :
    (range name left right).demands Knowledge.builtIn m =
      ((range name left right).comparisons none).map fun (op, value) =>
        compareDemand m (.range kind canBeZero canBeNegative extraValues) (compare name op value)
          op value := by
  rcases left with _ | ⟨a, low⟩ <;> rcases right with _ | ⟨high, b⟩
  · cases sided
  all_goals simp [demands, Feature.name, known, knownDemands, comparisons]

/-- A test that is true on a device where all of its demands are met, each of which is decided or
understood. -/
structure Demanded (d : Device) (ratios : String → Ratio → Prop) (m : Metrics) (f : Feature) :
    Prop where
  truth : Clause.anyHolds d (f.clauses m) =
    (f.demands Knowledge.builtIn m).all (Demand.truth d m)
  definite : ∀ demand ∈ f.demands Knowledge.builtIn m, demand.Definite ratios m

theorem Demanded.single {demand : Demand} (demanded : f.demands Knowledge.builtIn m = [demand])
    (met : demand.truth d m = Clause.anyHolds d (f.clauses m))
    (definite : demand.Definite ratios m) : f.Demanded d ratios m where
  truth := by rw [demanded, List.all_cons, List.all_nil, Bool.and_true, met]
  definite := by rwa [demanded, List.forall_mem_singleton]

section Ranges

variable {α : Type} [Endpoint α] {spec : FeatureSpec} {values : List Value}
  {read : Value → Option α} {v : α} {kind : RangeKind} {canBeZero : Bool}
  {extraValues : List String} {name : String}

/-- A test that is put to an oracle, a comparison with one value, is understood and is what the
value compares like. -/
theorem compare_holds (found : FeatureTable.lookup? name = some spec)
    (measures : spec.Measures m d values read v) (among : spec.Among m (ratios spec.key) values)
    {value : Value} (mem : value ∈ values) {x : α} (legal : read value = some x)
    (op : Comparison) :
    Clause.anyHolds d ((compare name op value).clauses m) =
        op.accepts (Endpoint.compare v x) ∧
      ∀ c ∈ (compare name op value).clauses m, c.Plain ratios := by
  have resolved := FeatureTable.resolve?_of_lookup? found
  have asks := measures.range none (some (op, value)) (by
    simpa [FeatureSpec.sideValues] using mem)
  rw [FeatureSpec.sides?_right, legal] at asks
  obtain ⟨c, made, holds⟩ := Option.map_eq_some_iff.1 asks
  have understood : (compare name op value).constraints? m = some (spec.key, [c]) :=
    constraints?_eq_some.2 ⟨none, spec, resolved, rfl, by simp [asked?, compare, made]⟩
  refine ⟨?_, plain_clauses_of_within (by simp [isUnreadable, understood]) ?_⟩
  · rw [anyHolds_clauses understood, List.any_cons, holds]
    simp [Comparison.admits, Comparison.fromRight]
  · intro limit spec' resolved'
    cases resolved.symm.trans resolved'
    refine among.mono fun other inside => ?_
    simp only [Feature.values, compare, FeatureSpec.sideValues, Option.toList_none,
      List.map_nil, Option.toList_some, List.map_cons, List.nil_append, List.mem_singleton]
      at inside
    rwa [inside]

/-- A comparison that is decided, or left to a test that means the same, is met where the value
compares so. -/
theorem compareDemand_truth
    (judges : spec.Judges m kind canBeZero extraValues values read v) {asked : Feature}
    {op : Comparison} {value : Value} (mem : value ∈ values) {x : α} (legal : read value = some x)
    (holds : Clause.anyHolds d (asked.clauses m) = op.accepts (Endpoint.compare v x))
    (plain : ∀ c ∈ asked.clauses m, c.Plain ratios) :
    (compareDemand m (.range kind canBeZero false extraValues) asked op value).truth d m =
        op.accepts (Endpoint.compare v x) ∧
      (compareDemand m (.range kind canBeZero false extraValues) asked op value).Definite
        ratios m := by
  obtain ⟨y, inRange, right⟩ := judges.right value mem x legal
  simp only [compareDemand, inRange, Bool.or_false]
  split
  · exact ⟨holds, .ask plain⟩
  · rename_i number
    have number : Number.isNaN y = false := by simpa using number
    cases decided : op.decide? canBeZero y with
    | none => exact ⟨holds, .ask plain⟩
    | some verdict =>
      refine ⟨?_, .decided (Comparison.decide?_ne_unknown decided)⟩
      rw [Demand.truth, right op verdict number decided]
      cases op.accepts (Endpoint.compare v x) <;> rfl

theorem compareDemand_compare_truth (found : FeatureTable.lookup? name = some spec)
    (measures : spec.Measures m d values read v) (among : spec.Among m (ratios spec.key) values)
    (judges : spec.Judges m kind canBeZero extraValues values read v) {value : Value}
    (mem : value ∈ values) {x : α} (legal : read value = some x) (op : Comparison) :
    (compareDemand m (.range kind canBeZero false extraValues) (compare name op value) op
        value).truth d m = op.accepts (Endpoint.compare v x) ∧
      (compareDemand m (.range kind canBeZero false extraValues) (compare name op value) op
        value).Definite ratios m := by
  obtain ⟨holds, plain⟩ := compare_holds found measures among mem legal op
  exact compareDemand_truth judges mem legal holds plain

theorem known_of_judges (found : FeatureTable.lookup? name = some spec)
    (judges : spec.Judges m kind canBeZero extraValues values read v) :
    Knowledge.builtIn.get? name = some (.range kind canBeZero false extraValues) := by
  rw [Knowledge.get?_builtIn, found, Option.map_some, judges.known]

/-- The bare name of a feature that cannot be zero is always true. -/
theorem boolean_demanded {limit : Option Limit} {constraints : List Constraint}
    (resolved : FeatureTable.resolve? name = some (limit, spec))
    (asked : (boolean name).asked? m limit spec = some constraints)
    (plain : ∀ c ∈ (boolean name).clauses m, c.Plain ratios)
    (measures : spec.Measures m d values read v)
    (judges : spec.Judges m kind canBeZero extraValues values read v) :
    (boolean name).Demanded d ratios m := by
  have holds := anyHolds_clauses (d := d)
    (constraints?_eq_some (f := boolean name).2 ⟨limit, spec, resolved, rfl, asked⟩)
  simp only [asked?, Option.ite_none_right_eq_some] at asked
  cases asked.2
  obtain ⟨_, found⟩ | ⟨_, _, rfl, _⟩ := FeatureTable.resolve?_eq_some resolved
  · have demanded : (boolean name).demands Knowledge.builtIn m =
        if canBeZero then [.ask (boolean name)] else [.decided .yes] := by
      simp only [demands, Feature.name, known_of_judges found judges, knownDemands,
        Knowledge.canBeFalsy]
      cases canBeZero <;> rfl
    cases canBeZero with
    | true => exact .single demanded rfl (.ask plain)
    | false =>
      refine .single demanded ?_ (.decided (by decide))
      rw [holds, measures.boolean]
      simp [Comparison.accepts, judges.nonzero rfl, Demand.truth]
  · cases asked.1

/-- A limit and a value are the comparison of the feature without the limit. -/
theorem plain_demanded {limit : Option Limit} {constraints : List Constraint} {value : Value}
    (resolved : FeatureTable.resolve? name = some (limit, spec))
    (asked : (plain name value).asked? m limit spec = some constraints)
    (plainClauses : ∀ c ∈ (plain name value).clauses m, c.Plain ratios)
    (among : spec.Among m (ratios spec.key) [value])
    (measures : spec.Measures m d [value] read v)
    (judges : spec.Judges m kind canBeZero extraValues [value] read v) :
    (plain name value).Demanded d ratios m := by
  have holds := anyHolds_clauses (d := d)
    (constraints?_eq_some (f := plain name value).2 ⟨limit, spec, resolved, rfl, asked⟩)
  obtain ⟨c, made, rfl⟩ := Option.map_eq_some_iff.1 asked
  have mem : value ∈ [value] := List.mem_singleton.2 rfl
  have means := measures.plain limit value mem
  rw [made, Option.map_some] at means
  obtain ⟨x, legal, accepts⟩ := Option.map_eq_some_iff.1 means.symm
  rw [List.any_cons, List.any_nil, Bool.or_false, ← accepts] at holds
  obtain ⟨rfl, found⟩ | ⟨bound, base, rfl, absent, divided, found, _⟩ :=
    FeatureTable.resolve?_eq_some resolved
  · have demanded : (plain name value).demands Knowledge.builtIn m =
        [compareDemand m (.range kind canBeZero false extraValues) (plain name value) .eq
          value] := by
      simp [demands, Feature.name, known_of_judges found judges, knownDemands]
    change _ = Comparison.eq.accepts (Endpoint.compare v x) at holds
    obtain ⟨met, definite⟩ := compareDemand_truth judges mem legal holds plainClauses
    exact .single demanded (met.trans holds.symm) definite
  · have demanded : (plain name value).demands Knowledge.builtIn m =
        [compareDemand m (.range kind canBeZero false extraValues)
          (compare base bound.comparison value) bound.comparison value] := by
      simp [demands, Feature.name, Knowledge.get?_builtIn, absent, unknownDemands, divided,
        found, judges.known]
    obtain ⟨met, definite⟩ := compareDemand_compare_truth found measures among judges mem legal
      bound.comparison
    exact .single demanded (met.trans holds.symm) definite

theorem range_demanded {limit : Option Limit} {constraints : List Constraint}
    {left : Option (Value × Comparison)} {right : Option (Comparison × Value)}
    (resolved : FeatureTable.resolve? name = some (limit, spec))
    (asked : (range name left right).asked? m limit spec = some constraints)
    (sided : (range name left right).isSided = true)
    (among : spec.Among m (ratios spec.key) (FeatureSpec.sideValues left right))
    (measures : spec.Measures m d (FeatureSpec.sideValues left right) read v)
    (judges : spec.Judges m kind canBeZero extraValues (FeatureSpec.sideValues left right)
      read v) :
    (range name left right).Demanded d ratios m := by
  have holds := anyHolds_clauses (d := d)
    (constraints?_eq_some (f := range name left right).2 ⟨limit, spec, resolved, rfl, asked⟩)
  simp only [asked?, Option.ite_none_right_eq_some] at asked
  obtain ⟨bare, asked⟩ := asked
  obtain ⟨c, made, rfl⟩ := Option.map_eq_some_iff.1 asked
  have means := measures.range left right fun value mem => mem
  rw [made, Option.map_some] at means
  obtain ⟨⟨left', right'⟩, sides, accepts⟩ := Option.map_eq_some_iff.1 means.symm
  rw [List.any_cons, List.any_nil, Bool.or_false, ← accepts] at holds
  obtain ⟨_, found⟩ | ⟨_, _, rfl, _⟩ := FeatureTable.resolve?_eq_some resolved
  · have one {value : Value} (mem : value ∈ FeatureSpec.sideValues left right) {x : α}
        (legal : read value = some x) (op : Comparison) :=
      compareDemand_compare_truth found measures among judges mem legal op
    have demanded := demands_sides (m := m) (known_of_judges found judges) sided
    refine ⟨?_, fun demand mem => ?_⟩
    · -- Each side is met where the value compares so.
      refine holds.trans ?_
      rw [demanded, comparisons, List.map_append, List.all_append]
      obtain ⟨first, second⟩ := FeatureSpec.sides?_cases sides
      refine congrArg₂ and ?_ ?_
      · rcases first with ⟨rfl, rfl⟩ | ⟨a, low, x, rfl, legal, rfl⟩
        · rfl
        · simp [one (by simp [FeatureSpec.sideValues]) legal low.flip, Comparison.admits,
            Comparison.fromRight]
      · rcases second with ⟨rfl, rfl⟩ | ⟨high, b, y, rfl, legal, rfl⟩
        · rfl
        · simp [one (by simp [FeatureSpec.sideValues]) legal high, Comparison.admits]
    · rw [demanded] at mem
      obtain ⟨⟨op, value⟩, inside, rfl⟩ := List.mem_map.1 mem
      have listed := mem_values_of_comparisons inside
      obtain ⟨x, legal⟩ := FeatureSpec.exists_of_sides? sides value listed
      exact (one listed legal op).2
  · cases bare

/-- A test that compares a number or a ratio is true where all of its demands are met. -/
theorem demanded_of_measures {limit : Option Limit} {constraints : List Constraint}
    (resolved : FeatureTable.resolve? f.name = some (limit, spec))
    (asked : f.asked? m limit spec = some constraints) (sided : f.isSided = true)
    (within : f.Within ratios m) (measures : spec.Measures m d f.values read v)
    (judges : spec.Judges m kind canBeZero extraValues f.values read v) :
    f.Demanded d ratios m := by
  have understood := constraints?_eq_some.2 ⟨limit, spec, resolved, rfl, asked⟩
  have plain := plain_clauses_of_within (by simp [isUnreadable, understood]) within
  have among := within limit spec resolved
  cases f with
  | boolean name => exact boolean_demanded resolved asked plain measures judges
  | plain name value => exact plain_demanded resolved asked plain among measures judges
  | range name left right => exact range_demanded resolved asked sided among measures judges

end Ranges

section Words

variable {limit : Option Limit} {spec : FeatureSpec} {constraints : List Constraint}

/-- The bare name of a feature with words of which none stands for nothing asks for nothing. -/
private theorem ofBoolean_always : ∀ spec ∈ FeatureTable.all, spec.isRange = false →
    (Knowledge.ofSpec spec).canBeFalsy = false →
      (spec.ofBoolean.any fun c => match c with | .always => true | _ => false) = true := by
  decide

theorem discreteText?_of_ident {value : Value} {word : String} (ident : value.ident? = some word) :
    value.discreteText? = some word := by
  cases value <;> simp_all [Value.ident?, Value.discreteText?]

theorem discreteText?_of_integer {value : Value} {n : Int} (integer : value.integer? = some n) :
    value.discreteText? = some (toString n) := by
  cases value <;> simp_all [Value.integer?, Value.discreteText?]

theorem discreteText?_mem {value : Value} {words : List String} {canBeFalse : Bool}
    {c : Constraint} (known : Knowledge.ofSpec spec = .discrete words canBeFalse)
    (made : spec.ofPlain? m limit value = some c) :
    value.discreteText?.any words.contains = true := by
  cases Knowledge.wordsOf_of_ofSpec known with
  | discrete kind =>
    simp only [FeatureSpec.ofPlain?, kind] at made
    obtain ⟨found, legal, _⟩ := Option.map_eq_some_iff.1 made
    have listed := FeatureSpec.discreteValue?_listed kind legal
    simp only [FeatureSpec.discreteValue?, kind] at legal
    have named := List.find?_some legal
    have text : value.discreteText? = some found.text := by
      cases found with
      | keyword word => exact discreteText?_of_ident (eq_of_beq named)
      | integer n => exact discreteText?_of_integer (eq_of_beq named)
    rw [text, Option.any_some, List.contains_iff_mem]
    exact List.mem_map_of_mem listed
  | gamut kind =>
    simp only [FeatureSpec.ofPlain?, kind] at made
    obtain ⟨band, named, _⟩ := Option.map_eq_some_iff.1 made
    obtain ⟨word, ident, named⟩ := Option.bind_eq_some_iff.1 named
    rw [discreteText?_of_ident ident]
    unfold GamutBand.ofName? at named
    split at named <;> cases named <;> rfl
  | orientation kind =>
    simp only [FeatureSpec.ofPlain?, kind] at made
    split at made <;> cases made
    · rename_i ident
      rw [discreteText?_of_ident ident]
      rfl
    · rename_i ident
      rw [discreteText?_of_ident ident]
      rfl

/-- A test of a feature with words is true where its demand is met. -/
theorem demanded_of_words (resolved : FeatureTable.resolve? f.name = some (limit, spec))
    (asked : f.asked? m limit spec = some constraints) (words : spec.isRange = false)
    (plainClauses : ∀ c ∈ f.clauses m, c.Plain ratios) :
    f.Demanded d ratios m := by
  have listed := FeatureTable.resolve?_mem resolved
  have holds := anyHolds_clauses (d := d)
    (constraints?_eq_some.2 ⟨limit, spec, resolved, rfl, asked⟩)
  have asks (demanded : f.demands Knowledge.builtIn m = [.ask f]) : f.Demanded d ratios m :=
    .single demanded rfl (.ask plainClauses)
  obtain ⟨_, found⟩ := FeatureTable.resolve?_words resolved words
  have known : Knowledge.builtIn.get? f.name = some (Knowledge.ofSpec spec) := by
    rw [Knowledge.get?_builtIn, found, Option.map_some]
  cases f with
  | boolean name =>
    have demanded : (boolean name).demands Knowledge.builtIn m =
        if (Knowledge.ofSpec spec).canBeFalsy then [.ask (boolean name)]
          else [.decided .yes] := by
      simp only [demands, known, knownDemands]
    by_cases falsy : (Knowledge.ofSpec spec).canBeFalsy = true
    · exact asks (by rw [demanded, if_pos falsy])
    · rw [if_neg falsy] at demanded
      simp only [asked?, Option.ite_none_right_eq_some] at asked
      cases asked.2
      have always := ofBoolean_always spec listed words (by simpa using falsy)
      obtain ⟨c, mem, same⟩ := List.any_eq_true.1 always
      have true : c.holds d spec.key = true := by cases c <;> first | rfl | cases same
      rw [List.any_eq_true.2 ⟨c, mem, true⟩] at holds
      exact .single demanded holds.symm (.decided (by decide))
  | plain name value =>
    obtain ⟨c, made, _⟩ := Option.map_eq_some_iff.1 asked
    obtain ⟨legal, canBeFalse, knowledge⟩ := Knowledge.ofSpec_words words
    refine asks ?_
    rw [knowledge] at known
    simp only [demands, known, knownDemands, discreteText?_mem knowledge made, if_true]
  | range name left right =>
    simp only [asked?, Option.ite_none_right_eq_some] at asked
    obtain ⟨c, made, _⟩ := Option.map_eq_some_iff.1 asked.2
    unfold FeatureSpec.ofRange? at made
    unfold FeatureSpec.isRange at words
    cases kind : spec.kind <;> simp only [kind] at made words <;> first | cases made | cases words

end Words

end Feature

end MediaQuery
