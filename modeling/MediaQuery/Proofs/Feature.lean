import MediaQuery.Clause.OfFeature
import MediaQuery.Proofs.Clause

set_option autoImplicit false

namespace MediaQuery

namespace FeatureSpec

/-- The kind of what the device is asked for: an orientation is a side of a ratio, and a pixel
ratio a resolution. -/
def valueKind (spec : FeatureSpec) : FeatureKind :=
  match spec.kind with
  | .orientation => .ratio
  | .pixelRatio => .numeric .resolution
  | kind => kind

theorem kind?_key : ∀ spec ∈ FeatureTable.all,
    FeatureTable.kind? spec.key = some spec.valueKind := by
  decide

end FeatureSpec

namespace FeatureTable

/-- A name is a known one, or a limit in front of a known one that takes limits. -/
theorem resolve?_eq_some {name : String} {limit : Option Limit} {spec : FeatureSpec}
    (resolved : resolve? name = some (limit, spec)) :
    limit = none ∧ lookup? name = some spec ∨
      ∃ bound base, limit = some bound ∧ lookup? name = none ∧
        splitLimit? name = some (bound, base) ∧ lookup? base = some spec ∧
        spec.isRange = true := by
  unfold resolve? at resolved
  split at resolved
  · rename_i found
    cases resolved
    exact .inl ⟨rfl, found⟩
  · rename_i absent
    obtain ⟨⟨bound, base⟩, divided, resolved⟩ := Option.bind_eq_some_iff.1 resolved
    obtain ⟨spec', found, resolved⟩ := Option.bind_eq_some_iff.1 resolved
    split at resolved <;> cases resolved
    rename_i takes
    exact .inr ⟨bound, base, rfl, absent, divided, found, takes⟩

theorem resolve?_of_lookup? {name : String} {spec : FeatureSpec}
    (found : lookup? name = some spec) : resolve? name = some (none, spec) := by
  rw [resolve?, found]

theorem resolve?_mem {name : String} {limit : Option Limit} {spec : FeatureSpec}
    (resolved : resolve? name = some (limit, spec)) : spec ∈ all := by
  rcases resolve?_eq_some resolved with ⟨_, found⟩ | ⟨_, _, _, _, _, found, _⟩
  · exact lookup?_mem found
  · exact lookup?_mem found

theorem resolve?_words {name : String} {limit : Option Limit} {spec : FeatureSpec}
    (resolved : resolve? name = some (limit, spec)) (words : spec.isRange = false) :
    limit = none ∧ lookup? name = some spec := by
  rcases resolve?_eq_some resolved with bare | ⟨_, _, _, _, _, _, takes⟩
  · exact bare
  · rw [words] at takes
    cases takes

end FeatureTable

structure Constraint.EndsIn (ratios : Ratio → Prop) (c : Constraint) : Prop where
  numbers : ∀ interval, c = .number interval → interval.EndsIn fun x => Number.isNaN x = false
  ratios : ∀ interval, c = .ratio interval → interval.EndsIn ratios

namespace FeatureSpec

variable {spec : FeatureSpec} {m : Metrics} {unit : NumericKind} {value : Value}
  {ratios : Ratio → Prop} {c : Constraint}

theorem kind_of_numeric (numeric : spec.valueKind = .numeric unit) :
    spec.kind = .numeric unit ∨ spec.kind = .pixelRatio := by
  unfold valueKind at numeric
  split at numeric
  · cases numeric
  · exact .inr ‹_›
  · exact .inl numeric

theorem ofBoolean_numeric (numeric : spec.valueKind = .numeric unit) :
    spec.ofBoolean = ((Interval.exact 0).complement numberDomain).map .number := by
  rcases kind_of_numeric numeric with kind | kind <;> simp only [ofBoolean, kind]

theorem ofPlain?_numeric (numeric : spec.valueKind = .numeric unit) (limit : Option Limit) :
    spec.ofPlain? m limit value =
      (spec.number? m value).map fun x => .number (Limit.interval limit x) := by
  rcases kind_of_numeric numeric with kind | kind <;> simp only [ofPlain?, kind]

theorem ofRange?_numeric (numeric : spec.valueKind = .numeric unit)
    (left : Option (Value × Comparison)) (right : Option (Comparison × Value)) :
    spec.ofRange? m left right = (sides? (spec.number? m) left right).map fun (left, right) =>
      .ofNumbers? (Interval.between? left right) := by
  rcases kind_of_numeric numeric with kind | kind <;> simp only [ofRange?, kind]

def ratio? (m : Metrics) (value : Value) : Option Ratio := (Quantity.ofValue m value).ratio?

theorem ofBoolean_ratio (kind : spec.kind = .ratio) :
    spec.ofBoolean = ((Interval.exact Endpoint.zero).complement ratioDomain).map .ratio := by
  simp only [ofBoolean, kind]

theorem ofPlain?_ratio (kind : spec.kind = .ratio) (limit : Option Limit) :
    spec.ofPlain? m limit value =
      (ratio? m value).map fun r => .ratio (Limit.interval limit r) := by
  simp only [ofPlain?, kind, ratio?]

theorem ofRange?_ratio (kind : spec.kind = .ratio)
    (left : Option (Value × Comparison)) (right : Option (Comparison × Value)) :
    spec.ofRange? m left right = (sides? (ratio? m) left right).map fun (left, right) =>
      .ofRatios? (Interval.between? left right) := by
  simp only [ofRange?, kind]
  rfl

theorem discreteValue?_listed {values : List DiscreteValue} (kind : spec.kind = .discrete values)
    {ident : Option String} {integer : Option Int} {found : DiscreteValue}
    (legal : spec.discreteValue? ident integer = some found) : found ∈ values := by
  simp only [discreteValue?, kind] at legal
  exact List.mem_of_find?_eq_some legal

inductive NameAsks (spec : FeatureSpec) : Constraint → Prop
  | always : spec.NameAsks .always
  | discrete {values : List DiscreteValue} {found : DiscreteValue}
      (kind : spec.kind = .discrete values) (listed : found ∈ values) :
      spec.NameAsks (.discrete found)
  | gamut (kind : spec.kind = .gamut) : spec.NameAsks (.gamut (.covering .srgb))
  | number {unit : NumericKind} {interval : Interval Float}
      (numeric : spec.valueKind = .numeric unit)
      (part : interval ∈ (Interval.exact 0).complement numberDomain) :
      spec.NameAsks (.number interval)
  | ratio {interval : Interval Ratio} (kind : spec.kind = .ratio)
      (part : interval ∈ (Interval.exact Endpoint.zero).complement ratioDomain) :
      spec.NameAsks (.ratio interval)

theorem nameAsks_of_mem (made : c ∈ spec.ofBoolean) : spec.NameAsks c := by
  have numbers (unit : NumericKind) (numeric : spec.valueKind = .numeric unit) :
      spec.NameAsks c := by
    rw [ofBoolean_numeric numeric] at made
    obtain ⟨interval, part, rfl⟩ := List.mem_map.1 made
    exact .number numeric part
  cases kind : spec.kind with
  | discrete values =>
    simp only [ofBoolean, kind] at made
    split at made
    · obtain ⟨found, listed, rfl⟩ := List.mem_map.1 made
      exact .discrete kind (List.mem_filter.1 listed).1
    · cases List.mem_singleton.1 made
      exact .always
  | gamut =>
    simp only [ofBoolean, kind] at made
    cases List.mem_singleton.1 made
    exact .gamut kind
  | orientation =>
    simp only [ofBoolean, kind] at made
    cases List.mem_singleton.1 made
    exact .always
  | numeric unit => exact numbers unit (by simp only [valueKind, kind])
  | pixelRatio => exact numbers .resolution (by simp only [valueKind, kind])
  | ratio =>
    rw [ofBoolean_ratio kind] at made
    obtain ⟨interval, part, rfl⟩ := List.mem_map.1 made
    exact .ratio kind part

inductive ValueAsks (spec : FeatureSpec) (m : Metrics) (limit : Option Limit) (value : Value) :
    Constraint → Prop
  | universal {found : DiscreteValue}
      (legal : spec.discreteValue? value.ident? value.integer? = some found) :
      spec.ValueAsks m limit value .always
  | discrete {values : List DiscreteValue} {found : DiscreteValue}
      (kind : spec.kind = .discrete values)
      (legal : spec.discreteValue? value.ident? value.integer? = some found) :
      spec.ValueAsks m limit value (.discrete found)
  | gamut {band : GamutBand} (kind : spec.kind = .gamut)
      (named : value.ident?.bind GamutBand.ofName? = some band) :
      spec.ValueAsks m limit value (.gamut (.covering band))
  | portrait (kind : spec.kind = .orientation) (named : value.ident? = some "portrait") :
      spec.ValueAsks m limit value (.ratio ⟨true, Endpoint.zero, ⟨1, 1⟩, true⟩)
  | landscape (kind : spec.kind = .orientation) (named : value.ident? = some "landscape") :
      spec.ValueAsks m limit value (.ratio (.atLeast ⟨1, 1⟩ false))
  | number {unit : NumericKind} {x : Float} (numeric : spec.valueKind = .numeric unit)
      (read : spec.number? m value = some x) :
      spec.ValueAsks m limit value (.number (Limit.interval limit x))
  | ratio {r : Ratio} (kind : spec.kind = .ratio) (read : ratio? m value = some r) :
      spec.ValueAsks m limit value (.ratio (Limit.interval limit r))

theorem valueAsks_of_eq_some {limit : Option Limit} (made : spec.ofPlain? m limit value = some c) :
    spec.ValueAsks m limit value c := by
  have numbers (unit : NumericKind) (numeric : spec.valueKind = .numeric unit) :
      spec.ValueAsks m limit value c := by
    rw [ofPlain?_numeric numeric] at made
    obtain ⟨x, read, rfl⟩ := Option.map_eq_some_iff.1 made
    exact .number numeric read
  cases kind : spec.kind with
  | discrete values =>
    simp only [ofPlain?, kind, Option.map_eq_some_iff] at made
    obtain ⟨found, legal, rfl⟩ := made
    split
    · exact .universal legal
    · exact .discrete kind legal
  | gamut =>
    simp only [ofPlain?, kind, Option.map_eq_some_iff] at made
    obtain ⟨band, named, rfl⟩ := made
    exact .gamut kind named
  | orientation =>
    simp only [ofPlain?, kind] at made
    split at made <;> cases made
    · exact .portrait kind ‹_›
    · exact .landscape kind ‹_›
  | numeric unit => exact numbers unit (by simp only [valueKind, kind])
  | pixelRatio => exact numbers .resolution (by simp only [valueKind, kind])
  | ratio =>
    rw [ofPlain?_ratio kind] at made
    obtain ⟨r, read, rfl⟩ := Option.map_eq_some_iff.1 made
    exact .ratio kind read

inductive SidesAsk (spec : FeatureSpec) (m : Metrics) (left : Option (Value × Comparison))
    (right : Option (Comparison × Value)) : Constraint → Prop
  | number {unit : NumericKind} {low : Option (Float × Comparison)}
      {high : Option (Comparison × Float)} (numeric : spec.valueKind = .numeric unit)
      (read : sides? (spec.number? m) left right = some (low, high)) :
      spec.SidesAsk m left right (.ofNumbers? (Interval.between? low high))
  | ratio {low : Option (Ratio × Comparison)} {high : Option (Comparison × Ratio)}
      (kind : spec.kind = .ratio) (read : sides? (ratio? m) left right = some (low, high)) :
      spec.SidesAsk m left right (.ofRatios? (Interval.between? low high))

theorem sidesAsk_of_eq_some {left : Option (Value × Comparison)}
    {right : Option (Comparison × Value)} (made : spec.ofRange? m left right = some c) :
    spec.SidesAsk m left right c := by
  have numbers (unit : NumericKind) (numeric : spec.valueKind = .numeric unit) :
      spec.SidesAsk m left right c := by
    rw [ofRange?_numeric numeric] at made
    obtain ⟨⟨low, high⟩, read, rfl⟩ := Option.map_eq_some_iff.1 made
    exact .number numeric read
  cases kind : spec.kind with
  | discrete values => simp only [ofRange?, kind] at made; cases made
  | gamut => simp only [ofRange?, kind] at made; cases made
  | orientation => simp only [ofRange?, kind] at made; cases made
  | numeric unit => exact numbers unit (by simp only [valueKind, kind])
  | pixelRatio => exact numbers .resolution (by simp only [valueKind, kind])
  | ratio =>
    rw [ofRange?_ratio kind] at made
    obtain ⟨⟨low, high⟩, read, rfl⟩ := Option.map_eq_some_iff.1 made
    exact .ratio kind read

theorem NameAsks.suits (asks : spec.NameAsks c) (ends : c.EndsIn ratios) :
    c.Suits ratios spec.valueKind := by
  cases asks with
  | always => exact .always
  | discrete kind listed =>
    simp only [valueKind, kind]
    exact .discrete listed
  | gamut kind =>
    simp only [valueKind, kind]
    exact .gamut
  | number numeric part =>
    rw [numeric]
    exact .number (ends.numbers _ rfl)
  | ratio kind part =>
    simp only [valueKind, kind]
    exact .ratio (ends.ratios _ rfl)

theorem ValueAsks.suits {limit : Option Limit} (asks : spec.ValueAsks m limit value c)
    (ends : c.EndsIn ratios) : c.Suits ratios spec.valueKind := by
  cases asks with
  | universal legal => exact .always
  | discrete kind legal =>
    simp only [valueKind, kind]
    exact .discrete (discreteValue?_listed kind legal)
  | gamut kind named =>
    simp only [valueKind, kind]
    exact .gamut
  | portrait kind named | landscape kind named | ratio kind read =>
    simp only [valueKind, kind]
    exact .ratio (ends.ratios _ rfl)
  | number numeric read =>
    rw [numeric]
    exact .number (ends.numbers _ rfl)

theorem SidesAsk.suits {left : Option (Value × Comparison)} {right : Option (Comparison × Value)}
    (asks : spec.SidesAsk m left right c) (ends : c.EndsIn ratios) :
    c.Suits ratios spec.valueKind := by
  cases asks with
  | number numeric read =>
    rw [numeric]
    exact Constraint.suits_ofNumbers? fun part between => by
      rw [between] at ends
      exact ends.numbers part rfl
  | ratio kind read =>
    simp only [valueKind, kind]
    exact Constraint.suits_ofRatios? fun part between => by
      rw [between] at ends
      exact ends.ratios part rfl

end FeatureSpec

namespace Feature

variable {f : Feature} {m : Metrics}

/-- What a test asks of a feature, by its form: a limit only goes with a value behind a colon. -/
def asked? (m : Metrics) (limit : Option Limit) (spec : FeatureSpec) :
    Feature → Option (List Constraint)
  | .boolean _ => if limit.isNone then some spec.ofBoolean else none
  | .plain _ value => (spec.ofPlain? m limit value).map fun c => [c]
  | .range _ left right =>
    if limit.isNone then (spec.ofRange? m left right).map fun c => [c] else none

theorem constraints?_eq (f : Feature) (m : Metrics) :
    f.constraints? m = (FeatureTable.resolve? f.name).bind fun (limit, spec) =>
      (f.asked? m limit spec).map fun constraints => (spec.key, constraints) := by
  unfold constraints? asked?
  cases FeatureTable.resolve? f.name with
  | none => rfl
  | some found =>
    obtain ⟨limit, spec⟩ := found
    cases f <;> cases limit <;>
      simp [bind, pure, Option.map_eq_bind, Option.bind_assoc]

theorem constraints?_eq_some {key : String} {constraints : List Constraint} :
    f.constraints? m = some (key, constraints) ↔
      ∃ limit spec, FeatureTable.resolve? f.name = some (limit, spec) ∧ spec.key = key ∧
        f.asked? m limit spec = some constraints := by
  rw [constraints?_eq, Option.bind_eq_some_iff]
  constructor
  · rintro ⟨⟨limit, spec⟩, resolved, asked⟩
    obtain ⟨_, asked, same⟩ := Option.map_eq_some_iff.1 asked
    cases same
    exact ⟨limit, spec, resolved, rfl, asked⟩
  · rintro ⟨limit, spec, resolved, rfl, asked⟩
    exact ⟨(limit, spec), resolved, by simp [asked]⟩

inductive AsksFor (m : Metrics) (limit : Option Limit) (spec : FeatureSpec) (c : Constraint) :
    Feature → Prop
  | name {name : String} (asks : spec.NameAsks c) : AsksFor m limit spec c (.boolean name)
  | value {name : String} {value : Value} (asks : spec.ValueAsks m limit value c) :
      AsksFor m limit spec c (.plain name value)
  | sides {name : String} {left : Option (Value × Comparison)}
      {right : Option (Comparison × Value)} (asks : spec.SidesAsk m left right c) :
      AsksFor m limit spec c (.range name left right)

theorem asksFor_of_asked? {limit : Option Limit} {spec : FeatureSpec}
    {constraints : List Constraint} {c : Constraint}
    (asked : f.asked? m limit spec = some constraints) (mem : c ∈ constraints) :
    f.AsksFor m limit spec c := by
  cases f with
  | boolean name =>
    simp only [asked?, Option.ite_none_right_eq_some] at asked
    cases asked.2
    exact .name (FeatureSpec.nameAsks_of_mem mem)
  | plain name value =>
    obtain ⟨only, made, rfl⟩ := Option.map_eq_some_iff.1 asked
    cases List.mem_singleton.1 mem
    exact .value (FeatureSpec.valueAsks_of_eq_some made)
  | range name left right =>
    simp only [asked?, Option.ite_none_right_eq_some] at asked
    obtain ⟨only, made, rfl⟩ := Option.map_eq_some_iff.1 asked.2
    cases List.mem_singleton.1 mem
    exact .sides (FeatureSpec.sidesAsk_of_eq_some made)

theorem AsksFor.suits {limit : Option Limit} {spec : FeatureSpec} {c : Constraint}
    {ratios : Ratio → Prop} (asks : f.AsksFor m limit spec c) (ends : c.EndsIn ratios) :
    c.Suits ratios spec.valueKind := by
  cases asks with
  | name asks => exact asks.suits ends
  | value asks => exact asks.suits ends
  | sides asks => exact asks.suits ends

/-- The constraints of a test are of the kind of the feature that the device is asked for. -/
theorem suits_constraints? (ratios : String → Ratio → Prop) {key : String}
    {constraints : List Constraint} (understood : f.constraints? m = some (key, constraints)) :
    ∃ kind, FeatureTable.kind? key = some kind ∧
      ∀ c ∈ constraints, c.EndsIn (ratios key) → c.Suits (ratios key) kind := by
  obtain ⟨limit, spec, resolved, rfl, asked⟩ := constraints?_eq_some.1 understood
  exact ⟨spec.valueKind, FeatureSpec.kind?_key spec (FeatureTable.resolve?_mem resolved),
    fun c mem ends => (asksFor_of_asked? asked mem).suits ends⟩

/-- A clause of a test is what the test asks for, or carries its name as unreadable. -/
theorem exists_asksFor {c : Clause} (mem : c ∈ f.clauses m) :
    f.isUnreadable m = true ∧ c = Clause.unreadable f.name ∨
      ∃ limit spec x, FeatureTable.resolve? f.name = some (limit, spec) ∧
        f.AsksFor m limit spec x ∧ c = Clause.single spec.key x := by
  unfold clauses at mem
  cases understood : f.constraints? m with
  | none =>
    rw [understood] at mem
    exact .inl ⟨by rw [isUnreadable, understood]; rfl, List.mem_singleton.1 mem⟩
  | some pair =>
    obtain ⟨key, constraints⟩ := pair
    rw [understood] at mem
    obtain ⟨x, listed, rfl⟩ := List.mem_map.1 mem
    obtain ⟨limit, spec, resolved, rfl, asked⟩ := constraints?_eq_some.1 understood
    exact .inr ⟨limit, spec, x, resolved, asksFor_of_asked? asked listed, rfl⟩

/-- The clauses of a test that is understood, if their ends are numbers and such ratios. -/
theorem plain_clauses {ratios : String → Ratio → Prop} (readable : f.isUnreadable m = false)
    (ends : ∀ c ∈ f.clauses m, ∀ key constraint, c.tests.get? key = some constraint →
      constraint.EndsIn (ratios key)) :
    ∀ c ∈ f.clauses m, c.Plain ratios := by
  intro c mem
  rcases exists_asksFor mem with ⟨unreadable, _⟩ | ⟨limit, spec, x, resolved, asks, rfl⟩
  · rw [readable] at unreadable
    cases unreadable
  · exact Clause.plain_single (FeatureSpec.kind?_key spec (FeatureTable.resolve?_mem resolved))
      (asks.suits (ends _ mem spec.key x (by simp [Clause.single, KeyMap.get?_single])))

end Feature

end MediaQuery
