import MediaQuery.Proofs.Knowledge
import MediaQuery.Proofs.Lists
import MediaQuery.Proofs.Solver

set_option autoImplicit false

namespace MediaQuery

section Tests

variable {d : Device} {m : Metrics} {ratios : String → Ratio → Prop} {f : Feature}

/-- A test on which a solver and a device agree: it is understood, a comparison in it has a value,
its numbers are numbers, and it asks for no ratio but the orientation. -/
structure Feature.Judged (ratios : String → Ratio → Prop) (m : Metrics) (f : Feature) : Prop where
  readable : f.isUnreadable m = false
  sided : f.isSided = true
  within : f.Within ratios m
  noRatio : ∀ limit spec, FeatureTable.resolve? f.name = some (limit, spec) → spec.kind ≠ .ratio

theorem Feature.Judged.demanded (judged : f.Judged ratios m) (sound : d.Sound ratios)
    (real : d.Real) : f.Demanded d ratios m := by
  obtain ⟨⟨key, constraints⟩, understood⟩ := Option.isSome_iff_exists.1 (by
    simpa [isUnreadable] using judged.readable : (f.constraints? m).isSome = true)
  obtain ⟨limit, spec, resolved, rfl, asked⟩ := constraints?_eq_some.1 understood
  have listed := FeatureTable.resolve?_mem resolved
  have among := judged.within limit spec resolved
  have plain := plain_clauses_of_within judged.readable judged.within
  have number {unit : NumericKind} (numeric : spec.valueKind = .numeric unit) :
      f.Demanded d ratios m := by
    obtain ⟨v, found, measures⟩ := FeatureSpec.measures_number sound listed numeric among
    obtain ⟨kind, extraValues, judges⟩ :=
      FeatureSpec.judges_number m f.values real sound.valid listed numeric found
    exact demanded_of_measures resolved asked judged.sided judged.within measures judges
  cases shape : spec.kind with
  | discrete | gamut | orientation =>
    exact demanded_of_words resolved asked (by simp only [FeatureSpec.isRange, shape]) plain
  | numeric unit => exact @number unit (by simp only [FeatureSpec.valueKind, shape])
  | pixelRatio => exact number (by simp only [FeatureSpec.valueKind, shape]; rfl)
  | ratio => exact absurd shape (judged.noRatio limit spec resolved)

/-- With a device to ask, the verdict on a test is its truth value there. -/
theorem Feature.Judged.verdict_ofDevice (judged : f.Judged ratios m) (sound : d.Sound ratios)
    (real : d.Real) :
    f.verdict (SolverConfig.ofDevice d m) = Kleene.ofBool (Clause.anyHolds d (f.clauses m)) := by
  obtain ⟨truth, definite⟩ := judged.demanded sound real
  rw [truth]
  exact Kleene.respected_exact.all fun demand mem => Demand.verdict_ofDevice sound
    (definite demand mem)

/-- Without a device to ask, the verdict on a test is its truth value on every real device, unless
it is unknown. -/
theorem Feature.Judged.verdict_silent (judged : f.Judged ratios {}) (sound : d.Sound ratios)
    (real : d.Real) (known : f.verdict {} ≠ .unknown) :
    f.verdict {} = Kleene.ofBool (Clause.anyHolds d (f.clauses {})) := by
  rw [(judged.demanded sound real).truth]
  exact Kleene.respected_known.all (fun demand _ => Demand.verdict_silent) known

end Tests

section Lists

variable {d : Device} {m : Metrics} {ratios : String → Ratio → Prop} {list : QueryList}

/-- What a list is on a device: one of its queries is true there. -/
def QueryList.holds (list : QueryList) (m : Metrics) (d : Device) : Bool :=
  list.truth d.mediaType (fun f => Clause.anyHolds d (f.clauses m)) fun _ => false

theorem QueryList.matches_of_judged (sound : d.Sound ratios) (noText : list.texts = [])
    (judged : ∀ f ∈ list.features, f.Judged ratios m) :
    (list.compile m).matches d = .ok (list.holds m d) :=
  QueryList.matches_of_compiles _ sound list
    (fun f mem => ⟨Feature.plain_clauses_of_within (judged f mem).readable (judged f mem).within,
      rfl⟩) noText

/-- With a device to ask, the verdict on a list is what the list is there. -/
theorem QueryList.verdict_ofDevice (sound : d.Sound ratios) (real : d.Real)
    (noText : list.texts = []) (judged : ∀ f ∈ list.features, f.Judged ratios m) :
    list.verdict (SolverConfig.ofDevice d m) = Kleene.ofBool (list.holds m d) :=
  QueryList.verdict_truth _ Kleene.respected_exact rfl rfl list
    (fun f mem => (judged f mem).verdict_ofDevice sound real) noText

theorem QueryList.exists_form_of_parse {source : String}
    (parsed : QueryList.parse source = .ok list) :
    ∀ f ∈ list.features, ∃ ts, Feature.Form ts f := by
  obtain ⟨ps, pieces, _⟩ := bind_eq_ok.1 parsed
  obtain ⟨ts, lexed, _⟩ := bind_eq_ok.1 pieces
  have derives := (QueryList.parse_eq_ok_iff lexed).1 parsed
  intro f mem
  obtain ⟨us, _, reads⟩ := derives.features f mem
  exact ⟨us, reads.1⟩

theorem QueryList.isSided_of_parse {source : String} (parsed : QueryList.parse source = .ok list) :
    ∀ f ∈ list.features, f.isSided = true := by
  intro f mem
  obtain ⟨ts, form⟩ := exists_form_of_parse parsed f mem
  cases form <;> rfl

end Lists

section Devices

variable {d : Device} {m : Metrics} {list : QueryList}

/-- The ratio of a device, and those that the orientation is asked for with. -/
def Device.Sides (d : Device) (key : String) (r : Ratio) : Prop :=
  r ∈ [(⟨0, 1⟩ : Ratio), ⟨1, 1⟩, ⟨Number.infinity, 1⟩] ∨ d.ratio? key = some r

theorem Device.Valid.totalOn_sides {key : String} (valid : d.Valid) {r : Ratio}
    (found : d.ratio? key = some r) : Endpoint.TotalOn (d.Sides key) := by
  obtain ⟨numerator, denominator⟩ := valid.ratio? found
  refine (MediaQuery.totalOn_sides numerator denominator).mono fun s side => ?_
  rcases side with side | side
  · simp only [List.mem_cons, List.not_mem_nil, or_false] at side ⊢
    tauto
  · cases found.symm.trans side
    simp

/-- Whether a test compares a ratio of the device with other ratios. -/
def Feature.asksRatio (key : String) (f : Feature) : Bool :=
  (FeatureTable.resolve? f.name).any fun (_, spec) => spec.kind == .ratio && spec.key == key

theorem Device.Valid.sound_sides (valid : d.Valid) : d.Sound d.Sides where
  valid := valid
  total found := valid.totalOn_sides found
  ends _ := ⟨.inl (by simp [ratioDomain, Interval.nonNegative, Endpoint.zero]),
    .inl (by simp [ratioDomain, Interval.nonNegative, Endpoint.infinity])⟩
  among found := .inr found

/-- A list without unread text, whose tests are all understood and whose values are made of
numbers. -/
structure QueryList.Understood (list : QueryList) (m : Metrics) : Prop where
  noText : list.texts = []
  readable : ∀ f ∈ list.features, ∀ c ∈ f.clauses m, c.isInvalid = false
  numbers : ∀ f ∈ list.features, ∀ value ∈ f.values, ∀ x ∈ (Quantity.ofValue m value).numbers,
    Number.isNaN x = false

instance (list : QueryList) (m : Metrics) : Decidable (list.Understood m) :=
  decidable_of_iff (list.texts = [] ∧
      (∀ f ∈ list.features, ∀ c ∈ f.clauses m, c.isInvalid = false) ∧
      ∀ f ∈ list.features, ∀ value ∈ f.values, ∀ x ∈ (Quantity.ofValue m value).numbers,
        Number.isNaN x = false)
    ⟨fun ⟨noText, readable, numbers⟩ => ⟨noText, readable, numbers⟩,
      fun ⟨noText, readable, numbers⟩ => ⟨noText, readable, numbers⟩⟩

theorem FeatureTable.ratio_key : ∀ spec ∈ FeatureTable.all, spec.kind = .ratio →
    spec.key = "aspect-ratio" ∨ spec.key = "device-aspect-ratio" := by
  decide +kernel

theorem Feature.key_of_asksRatio {key : String} {f : Feature} (asks : f.asksRatio key = true) :
    key = "aspect-ratio" ∨ key = "device-aspect-ratio" := by
  rw [Feature.asksRatio, Option.any_eq_true] at asks
  obtain ⟨⟨limit, spec⟩, resolved, asks⟩ := asks
  simp only [Bool.and_eq_true, beq_iff_eq] at asks
  rw [← asks.2]
  exact FeatureTable.ratio_key spec (FeatureTable.resolve?_mem resolved) asks.1

theorem Feature.kind_ne_ratio {f : Feature} (noRatio : f.asksRatio "aspect-ratio" = false ∧
      f.asksRatio "device-aspect-ratio" = false) {limit : Option Limit} {spec : FeatureSpec}
    (resolved : FeatureTable.resolve? f.name = some (limit, spec)) : spec.kind ≠ .ratio := by
  intro shape
  have asks : f.asksRatio spec.key = true := by simp [asksRatio, resolved, shape]
  rcases key_of_asksRatio asks with same | same
  · rw [same, noRatio.1] at asks
    cases asks
  · rw [same, noRatio.2] at asks
    cases asks

/-- A test that is understood and asks for no ratio but the orientation is judged rightly. -/
theorem Feature.judged_sides {f : Feature} (readable : f.isUnreadable m = false)
    (sided : f.isSided = true)
    (numbers : ∀ value ∈ f.values, ∀ x ∈ (Quantity.ofValue m value).numbers,
      Number.isNaN x = false)
    (noRatio : ∀ limit spec, FeatureTable.resolve? f.name = some (limit, spec) →
      spec.kind ≠ .ratio) : f.Judged d.Sides m where
  readable := readable
  sided := sided
  within limit spec resolved := ⟨numbers, fun shape => absurd shape (noRatio limit spec resolved),
    fun shape => absurd shape (noRatio limit spec resolved),
    fun _ => ⟨.inl (by simp [Endpoint.zero]), .inl (by simp), .inl (by simp [Endpoint.infinity])⟩⟩
  noRatio := noRatio

end Devices

section Runs

/-- Whether a source is read as a list that passes a test. -/
def QueryList.isRead (source : String) (test : QueryList → Bool) : Bool :=
  match QueryList.parse source with
  | .ok list => test list
  | .error _ => false

theorem QueryList.exists_of_isRead (source : String) (test : QueryList → Bool)
    (read : QueryList.isRead source test = true) :
    ∃ list, QueryList.parse source = .ok list ∧ test list = true := by
  unfold QueryList.isRead at read
  split at read
  · exact ⟨_, ‹_›, read⟩
  · cases read

theorem Outcome.matches_of_validate {o : Outcome} {d : Device} (valid : d.validate = .ok ()) :
    o.matches d = .ok (Clause.anyHolds d o.clauses) := by
  rw [Outcome.matches, valid]
  rfl

end Runs

/-- Solving with a device to ask agrees with matching. On a list that is read and understood, and
that asks for no ratio but the orientation, the solver reaches the verdict that the compiled list
has on the device. -/
theorem QueryList.solve_eq_match {source : String} {list : QueryList} (m : Metrics) (d : Device)
    (parsed : QueryList.parse source = .ok list) (understood : list.Understood m)
    (noRatio : ∀ f ∈ list.features, f.asksRatio "aspect-ratio" = false ∧
      f.asksRatio "device-aspect-ratio" = false)
    (valid : d.validate = .ok ()) (real : d.Real) :
    (list.verdict (SolverConfig.ofDevice d m) = .yes ↔
        (list.compile m).matches d = .ok true) ∧
      (list.verdict (SolverConfig.ofDevice d m) = .no ↔
        (list.compile m).matches d = .ok false) ∧
      list.verdict (SolverConfig.ofDevice d m) ≠ .unknown := by
  have sound := (Device.validate_eq_ok.1 valid).sound_sides
  have judged (f : Feature) (mem : f ∈ list.features) : f.Judged d.Sides m :=
    Feature.judged_sides (Feature.isUnreadable_eq_false (understood.readable f mem))
      (QueryList.isSided_of_parse parsed f mem) (understood.numbers f mem)
      fun _ _ resolved => Feature.kind_ne_ratio (noRatio f mem) resolved
  rw [QueryList.verdict_ofDevice sound real understood.noText judged,
    QueryList.matches_of_judged sound understood.noText judged]
  simp

/-- A landscape screen matches, since the solver says so. -/
theorem QueryList.solve_eq_match_landscape :
    ∃ list, QueryList.parse "(min-width: 600px) and (orientation: landscape)" = .ok list ∧
      (list.compile {}).matches {} = .ok true := by
  obtain ⟨list, parsed, tested⟩ := QueryList.exists_of_isRead
    "(min-width: 600px) and (orientation: landscape)"
    (fun list => decide (list.Understood {} ∧
      (∀ f ∈ list.features, f.asksRatio "aspect-ratio" = false ∧
        f.asksRatio "device-aspect-ratio" = false) ∧
      list.verdict (SolverConfig.ofDevice {} {}) = .yes)) (by decide +kernel)
  obtain ⟨understood, noRatio, yes⟩ := of_decide_eq_true tested
  have real : Device.Real {} := ⟨by decide +kernel, by decide +kernel, by decide, by decide⟩
  exact ⟨list, parsed,
    (QueryList.solve_eq_match {} {} parsed understood noRatio rfl real).1.1 yes⟩

end MediaQuery
