import MediaQuery.Proofs.Agreement
import MediaQuery.Proofs.WrittenRatio

set_option autoImplicit false

namespace MediaQuery

/-- Whether a value of a device compares as a test says, where `read` tells what the written values
stand for. The name alone says that the value is not zero, and only a name with a value behind a
colon may begin with a limit. -/
def Feature.compares {α : Type} [Endpoint α] (read : Value → Option α) (limit : Option Limit)
    (v : α) : Feature → Bool
  | .boolean _ => limit.isNone && !(Endpoint.compare v Endpoint.zero == .eq)
  | .plain _ value =>
    (read value).any fun x => (Limit.operator limit).accepts (Endpoint.compare v x)
  | .range _ left right => limit.isNone &&
      (left.all fun (value, op) => (read value).any fun x => op.accepts (Endpoint.compare x v)) &&
      right.all fun (op, value) => (read value).any fun x => op.accepts (Endpoint.compare v x)

namespace FeatureSpec

def describesWord (spec : FeatureSpec) (word : Option DiscreteValue) : Feature → Bool
  | .boolean _ => !spec.kind.values.any DiscreteValue.isFalsy || word.any fun w => !w.isFalsy
  | .plain _ value => (spec.discreteValue? value.ident? value.integer?).any fun legal =>
      spec.isUniversal legal || word == some legal
  | .range .. => false

def describesGamut (band : GamutBand) : Feature → Bool
  | .boolean _ => decide (GamutBand.srgb.index ≤ band.index)
  | .plain _ value => (value.ident?.bind GamutBand.ofName?).any fun least =>
      decide (least.index ≤ band.index)
  | .range .. => false

def describesOrientation (width height : Float) : Feature → Bool
  | .boolean _ => true
  | .plain _ value => match value.ident? with
    | some "portrait" => Number.order width height != .gt
    | some "landscape" => Number.order width height == .gt
    | _ => false
  | .range .. => false

/-- Whether a test of a feature describes a device. -/
def describes (spec : FeatureSpec) (m : Metrics) (d : Device) (limit : Option Limit) (f : Feature) :
    Bool :=
  match spec.kind with
  | .numeric _ | .pixelRatio => (d.number? spec.key).any fun x =>
      f.compares (spec.number? m) limit x
  | .ratio => (d.ratio? spec.key).any fun r => f.compares (ratio? m) limit r
  | .discrete _ => spec.describesWord (d.discrete? spec.key) f
  | .gamut => (d.gamut? spec.key).any fun band => describesGamut band f
  | .orientation => describesOrientation d.widthPx d.heightPx f

variable {spec : FeatureSpec} {m : Metrics} {d : Device} {limit : Option Limit} {f : Feature}

/-- Both sides of a comparison are admitted iff each of them is legal and holds as it is written. -/
theorem any_sides? {α : Type} [Endpoint α] {read : Value → Option α} {v : α}
    (swap : ∀ x y : α, (Endpoint.compare x y).swap = Endpoint.compare y x)
    (left : Option (Value × Comparison)) (right : Option (Comparison × Value)) :
    ((sides? read left right).any fun (left, right) =>
        Comparison.admits v (Comparison.fromRight left) && Comparison.admits v right) =
      ((left.all fun (value, op) => (read value).any fun x =>
          op.accepts (Endpoint.compare x v)) &&
        right.all fun (op, value) => (read value).any fun x =>
          op.accepts (Endpoint.compare v x)) := by
  rcases left with _ | ⟨a, low⟩ <;> rcases right with _ | ⟨high, b⟩
  · rfl
  · rw [sides?_right]
    cases second : read b <;> simp [Comparison.admits, Comparison.fromRight, second]
  · rw [sides?_left]
    cases first : read a <;>
      simp [Comparison.admits, Comparison.fromRight, Comparison.accepts_flip, swap, first]
  · rw [sides?_both]
    cases first : read a <;> cases second : read b <;>
      simp [Comparison.admits, Comparison.fromRight, Comparison.accepts_flip, swap, first, second]

theorem Measures.any_asked? {α : Type} [Endpoint α] {read : Value → Option α} {v : α}
    (measures : spec.Measures m d f.values read v)
    (swap : ∀ x y : α, (Endpoint.compare x y).swap = Endpoint.compare y x) :
    (f.asked? m limit spec).any (·.any (·.holds d spec.key)) = f.compares read limit v := by
  have any_map {β γ : Type} {o : Option β} {o' : Option γ} {p : β → Bool} {q : γ → Bool}
      (same : o.map p = o'.map q) : o.any p = o'.any q := by
    cases o <;> cases o' <;> simp_all
  cases f with
  | boolean name =>
    cases limit with
    | none => simp [Feature.asked?, Feature.compares, measures.boolean, Comparison.accepts]
    | some bound => rfl
  | plain name value =>
    rw [Feature.asked?, Feature.compares, ← any_map (measures.plain limit value List.mem_cons_self)]
    cases spec.ofPlain? m limit value <;> simp
  | range name left right =>
    cases limit with
    | some bound => rfl
    | none =>
      rw [Feature.asked?, Feature.compares, Option.isNone_none, Bool.true_and, ← any_sides? swap,
        ← any_map (measures.range left right fun value mem => mem)]
      cases spec.ofRange? m left right <;> simp

/-- A test of a feature with a closed list of values asks for the words that it describes. -/
theorem any_asked?_discrete {values : List DiscreteValue} (kind : spec.kind = .discrete values)
    (answers : d.Answers spec.key (.discrete values)) :
    (f.asked? m none spec).any (·.any (·.holds d spec.key)) =
      spec.describesWord (d.discrete? spec.key) f := by
  obtain ⟨word, listed, found⟩ := answers
  cases f with
  | boolean name =>
    simp only [Feature.asked?, ofBoolean, kind, describesWord, FeatureKind.values, found,
      Option.isNone_none, if_true, Option.any_some]
    by_cases falsy : values.any DiscreteValue.isFalsy = true
    · rw [if_pos falsy, falsy, Bool.not_true, Bool.false_or, List.any_map, Bool.eq_iff_iff]
      simp only [List.any_eq_true, List.mem_filter, Function.comp_apply,
        Constraint.holds_discrete, found, Option.some_beq_some, beq_iff_eq]
      constructor
      · rintro ⟨other, ⟨_, truthy⟩, rfl⟩
        exact truthy
      · exact fun truthy => ⟨word, ⟨listed, truthy⟩, rfl⟩
    · rw [if_neg falsy, Bool.not_eq_true _ |>.mp falsy]
      rfl
  | plain name value =>
    simp only [Feature.asked?, ofPlain?, kind, describesWord]
    cases spec.discreteValue? value.ident? value.integer? with
    | none => rfl
    | some legal =>
      cases universal : spec.isUniversal legal <;>
        simp [universal, Constraint.holds_discrete]
  | range name left right => simp [Feature.asked?, ofRange?, kind, describesWord]

theorem any_asked?_gamut (kind : spec.kind = .gamut) {band : GamutBand}
    (found : d.gamut? spec.key = some band) :
    (f.asked? m none spec).any (·.any (·.holds d spec.key)) = describesGamut band f := by
  cases f with
  | boolean name =>
    simp [Feature.asked?, ofBoolean, kind, describesGamut, Constraint.holds_gamut found,
      GamutMask.contains_covering]
  | plain name value =>
    simp only [Feature.asked?, ofPlain?, kind, describesGamut]
    cases value.ident?.bind GamutBand.ofName? with
    | none => rfl
    | some least => simp [Constraint.holds_gamut found, GamutMask.contains_covering]
  | range name left right => simp [Feature.asked?, ofRange?, kind, describesGamut]

/-- A viewport is wider than high iff its ratio is above one. -/
theorem order_one {width height : Float} (numerator : Device.IsLength width)
    (denominator : Device.IsLength height) :
    (Ratio.order ⟨width, height⟩ ⟨1, 1⟩ == .gt) = (Number.order width height == .gt) := by
  by_cases both : (⟨width, height⟩ : Ratio).isZeroOverZero = true
  · have low : Ratio.order ⟨width, height⟩ ⟨1, 1⟩ = .lt := by
      have one : (⟨1, 1⟩ : Ratio).isDegenerate = false := by decide
      simp [Ratio.order, both, one]
    simp only [Ratio.isZeroOverZero, Bool.and_eq_true] at both
    rw [low, Number.order_eq_compare_rank numerator.number denominator.number,
      (Number.isZero_iff_rank _).1 both.1, (Number.isZero_iff_rank _).1 both.2]
    rfl
  · rw [order_one_eq_compare numerator denominator (by simpa using both),
      Number.order_eq_compare_rank numerator.number denominator.number]

theorem any_asked?_orientation (kind : spec.kind = .orientation) (valid : d.Valid) :
    (f.asked? m none spec).any (·.any (·.holds d spec.key)) =
      describesOrientation d.widthPx d.heightPx f := by
  have found : d.ratio? spec.key = some ⟨d.widthPx, d.heightPx⟩ := by
    rw [key, kind]
    rfl
  have above := ratio_order_zero (r := ⟨d.widthPx, d.heightPx⟩) valid.width valid.height
    (by decide : Number.isZero 0 = true)
  have below := ratio_order_infinity (r := ⟨d.widthPx, d.heightPx⟩) valid.height.nonNegative
  have wide := order_one valid.width valid.height
  have portrait : (Constraint.ratio ⟨true, Endpoint.zero, ⟨1, 1⟩, true⟩).holds d spec.key =
      (Number.order d.widthPx d.heightPx != .gt) := by
    rw [Constraint.holds_ratio found, bne, ← wide]
    change Ratio.order _ Endpoint.zero ≠ .lt at above
    simp only [Interval.contains, Interval.aboveMin, Interval.belowMax, Endpoint.compare]
    cases low : Ratio.order ⟨d.widthPx, d.heightPx⟩ Endpoint.zero <;>
      cases Ratio.order ⟨d.widthPx, d.heightPx⟩ ⟨1, 1⟩ <;> simp_all
  have landscape : (Constraint.ratio (.atLeast ⟨1, 1⟩ false)).holds d spec.key =
      (Number.order d.widthPx d.heightPx == .gt) := by
    rw [Constraint.holds_ratio found, ← wide]
    change Ratio.order _ Endpoint.infinity ≠ .gt at below
    simp only [Interval.contains, Interval.aboveMin, Interval.belowMax, Endpoint.compare,
      Interval.atLeast]
    cases high : Ratio.order ⟨d.widthPx, d.heightPx⟩ Endpoint.infinity <;>
      cases Ratio.order ⟨d.widthPx, d.heightPx⟩ ⟨1, 1⟩ <;> simp_all
  cases f with
  | boolean name => simp [Feature.asked?, ofBoolean, kind, describesOrientation]
  | plain name value =>
    simp only [Feature.asked?, ofPlain?, kind, describesOrientation]
    split <;> simp_all
  | range name left right => simp [Feature.asked?, ofRange?, kind, describesOrientation]

end FeatureSpec

/-- Whether a device matches what is compiled for a feature of which one of some constraints has to
hold. -/
def Constraint.anyMatched (d : Device) (key : String) (constraints : List Constraint) : Bool :=
  Clause.anyHolds d (Outcome.ofClauses (constraints.map (Clause.single key))).clauses

section Single

variable {d : Device} {key : String} {c : Constraint}

/-- A clause with one constraint is kept as what the domain leaves of it. -/
theorem Outcome.anyHolds_ofClauses_single :
    Clause.anyHolds d (ofClauses [Clause.single key c]).clauses = c.simplify.holds d key := by
  cases simple : c.simplify <;>
    simp [ofClauses, Clause.single, KeyMap.single, Clause.isInvalid, Clause.falseKeys,
      KeyMap.filterMap, KeyMap.keys, simple, Constraint.isNever, Clause.anyHolds,
      Clause.dropRedundant, Clause.isRedundant, Clause.simplify, Clause.simplifyTests,
      Clause.holds]

theorem Constraint.holds_simplify_ratio {r : Ratio} (found : d.ratio? key = some r)
    (interval : Interval Ratio) :
    (Constraint.ratio interval).simplify.holds d key =
      (interval.bound ratioDomain).contains r := by
  rw [simplify]
  cases interval.bound ratioDomain with
  | whole => rfl
  | nothing => rfl
  | part part => exact holds_ratio found

theorem Constraint.holds_simplify_ofRatios? {r : Ratio} (found : d.ratio? key = some r)
    (interval : Option (Interval Ratio)) :
    (ofRatios? interval).simplify.holds d key =
      interval.any fun part => (part.bound ratioDomain).contains r := by
  cases interval with
  | none => rfl
  | some part => exact holds_simplify_ratio found part

theorem Constraint.anyMatched_single : anyMatched d key [c] = c.simplify.holds d key :=
  Outcome.anyHolds_ofClauses_single

end Single

theorem complement_zero : (Interval.exact Endpoint.zero).complement ratioDomain =
    [Interval.atLeast Endpoint.zero false] := by
  rfl

namespace Feature

/-- A test of a ratio of a device with at most one side, whose value, if it has one, is clear of the
ends of the domain, and is not zero over zero where it is compared with a ratio that has a part that
is zero. -/
structure IsClear (m : Metrics) (r : Ratio) (f : Feature) : Prop where
  oneSided : ∀ name left right, f = .range name left right → left = none ∨ right = none
  single : ∀ name left right, f = .range name left right → ∀ value ∈ f.values, ∀ v,
    FeatureSpec.ratio? m value = some v → v.isZeroOverZero = true → r.isDegenerate = false
  clear : ∀ value ∈ f.values, ∀ v, FeatureSpec.ratio? m value = some v → r.IsClear v

variable {f : Feature} {m : Metrics} {d : Device} {limit : Option Limit} {spec : FeatureSpec}
  {r : Ratio}

/-- What a single test compiles to is what it asks of its feature, if it is understood. -/
theorem anyHolds_eq_any_asked? (resolved : FeatureTable.resolve? f.name = some (limit, spec)) :
    Clause.anyHolds d (Outcome.ofClauses (f.clauses m)).clauses =
      (f.asked? m limit spec).any (Constraint.anyMatched d spec.key) := by
  rw [clauses, constraints?_eq, resolved]
  simp only [Option.bind_some]
  cases f.asked? m limit spec with
  | none => rfl
  | some constraints => rfl

/-- A comparison of ratios is met where what the domain leaves of its interval holds the ratio. -/
theorem any_asked?_between (kind : spec.kind = .ratio) (found : d.ratio? spec.key = some r)
    (name : String) (left : Option (Value × Comparison)) (right : Option (Comparison × Value)) :
    (asked? m none spec (.range name left right)).any (Constraint.anyMatched d spec.key) =
      (FeatureSpec.sides? (FeatureSpec.ratio? m) left right).any fun (left, right) =>
        (Interval.between? left right).any fun part => (part.bound ratioDomain).contains r := by
  simp only [asked?, FeatureSpec.ofRange?_ratio kind]
  cases FeatureSpec.sides? (FeatureSpec.ratio? m) left right with
  | none => rfl
  | some pair => simp [Constraint.anyMatched_single, Constraint.holds_simplify_ofRatios? found]

theorem any_between?_of_isClear {name : String} {left : Option (Value × Comparison)}
    {right : Option (Comparison × Value)} {left' : Option (Ratio × Comparison)}
    {right' : Option (Comparison × Ratio)} (inside : r.IsInside)
    (clear : (range name left right).IsClear m r)
    (made : FeatureSpec.sides? (FeatureSpec.ratio? m) left right = some (left', right')) :
    ((Interval.between? left' right').any fun part => (part.bound ratioDomain).contains r) =
      (Comparison.admits r (Comparison.fromRight left') && Comparison.admits r right') := by
  obtain ⟨first, second⟩ := FeatureSpec.sides?_eq_some made
  have fits (value : Value) (v : Ratio) (mem : value ∈ FeatureSpec.sideValues left right)
      (read : FeatureSpec.ratio? m value = some v) : r.Fits v :=
    ⟨Ratio.isWritten_of_ratio? read, clear.single name left right rfl value mem v read,
      clear.clear value mem v read⟩
  refine Ratio.any_contains_between? inside ?_ (fun v op side => ?_) (fun op v side => ?_)
  · rcases clear.oneSided name left right rfl with rfl | rfl
    · exact .inl (Option.eq_none_iff_forall_ne_some.2 fun (x, op) side =>
        nomatch first x op side)
    · exact .inr (Option.eq_none_iff_forall_ne_some.2 fun (op, x) side =>
        nomatch second op x side)
  · obtain ⟨value, rfl, read⟩ := first v op side
    exact fits value v (by simp) read
  · obtain ⟨value, rfl, read⟩ := second op v side
    exact fits value v (by simp) read

/-- A test of a ratio asks for those that compare as it is written. -/
theorem any_asked?_ratio (kind : spec.kind = .ratio) (found : d.ratio? spec.key = some r)
    (inside : r.IsInside) (clear : f.IsClear m r) :
    (f.asked? m limit spec).any (Constraint.anyMatched d spec.key) =
      f.compares (FeatureSpec.ratio? m) limit r := by
  cases f with
  | boolean name =>
    cases limit with
    | some bound => rfl
    | none =>
      have zero : r.IsClear Endpoint.zero :=
        ⟨fun _ => inside.above, fun top => absurd top (by decide +kernel)⟩
      have above := Ratio.contains_bound_atLeast Ratio.isInside_zero inside zero false
      simp only [asked?, Option.isNone_none, if_true, FeatureSpec.ofBoolean_ratio kind,
        complement_zero, List.map_cons, List.map_nil, Option.any_some, compares,
        Constraint.anyMatched_single, Constraint.holds_simplify_ratio found, above]
      have low := inside.above
      cases verdict : Endpoint.compare r Endpoint.zero <;> simp_all [Comparison.accepts]
  | plain name value =>
    simp only [asked?, FeatureSpec.ofPlain?_ratio kind, compares]
    cases read : FeatureSpec.ratio? m value with
    | none => rfl
    | some v =>
      simp only [Option.map_some, Option.any_some, Constraint.anyMatched_single,
        Constraint.holds_simplify_ratio found, Limit.interval_eq]
      exact Ratio.contains_bound_interval (Ratio.isWritten_of_ratio? read).isInside inside
        (clear.clear value List.mem_cons_self v read) _
  | range name left right =>
    cases limit with
    | some bound => rfl
    | none =>
      rw [any_asked?_between kind found, compares, Option.isNone_none, Bool.true_and,
        ← FeatureSpec.any_sides? Ratio.compare_swap]
      cases made : FeatureSpec.sides? (FeatureSpec.ratio? m) left right with
      | none => rfl
      | some pair => exact any_between?_of_isClear inside clear made

/-- A test of a feature without ratios holds where one of its constraints does. -/
theorem anyHolds_of_kind_ne_ratio (resolved : FeatureTable.resolve? f.name = some (limit, spec))
    (valid : d.Valid) (kind : spec.kind ≠ .ratio)
    (numbers : ∀ value ∈ f.values, ∀ x ∈ (Quantity.ofValue m value).numbers,
      Number.isNaN x = false) :
    Clause.anyHolds d (Outcome.ofClauses (f.clauses m)).clauses =
      (f.asked? m limit spec).any (·.any (·.holds d spec.key)) := by
  rw [anyHolds_eq_any_asked? resolved]
  cases asked : f.asked? m limit spec with
  | none => rfl
  | some constraints =>
    have understood : f.constraints? m = some (spec.key, constraints) :=
      constraints?_eq_some.2 ⟨limit, spec, resolved, rfl, asked⟩
    have made : f.clauses m = constraints.map (Clause.single spec.key) := by
      rw [clauses, understood]
    have within : f.Within d.Sides m := by
      intro limit' spec' resolved'
      cases resolved.symm.trans resolved'
      exact ⟨numbers, fun ratio => absurd ratio kind, fun ratio => absurd ratio kind,
        fun _ => ⟨.inl (by simp [Endpoint.zero]), .inl (by simp),
          .inl (by simp [Endpoint.infinity])⟩⟩
    have plain := plain_clauses_of_within (by simp [isUnreadable, understood]) within
    rw [Option.any_some, Option.any_some, Constraint.anyMatched, ← anyHolds_clauses understood,
      ← made]
    exact Outcome.anyHolds_ofClauses valid.sound_sides fun c mem => (plain c mem).suits

/-- A test of a feature with numbers asks for those that compare as it is written. -/
theorem any_asked?_numeric {unit : NumericKind} (numeric : spec.valueKind = .numeric unit)
    (listed : spec ∈ FeatureTable.all) (valid : d.Valid)
    (numbers : ∀ value ∈ f.values, ∀ x ∈ (Quantity.ofValue m value).numbers,
      Number.isNaN x = false) :
    (f.asked? m limit spec).any (·.any (·.holds d spec.key)) =
      (d.number? spec.key).any fun x => f.compares (spec.number? m) limit x := by
  have among : spec.Among m (fun _ => True) f.values :=
    ⟨numbers, fun _ => ⟨trivial, trivial, trivial⟩, fun _ _ _ _ _ => trivial,
      fun _ => ⟨trivial, trivial, trivial⟩⟩
  obtain ⟨x, found, measures⟩ :=
    FeatureSpec.measures_number valid.sound_sides listed numeric among
  rw [found, Option.any_some]
  exact measures.any_asked? Number.order_swap

/-- A test matches a device exactly where it describes the device. Of a ratio that is not clear of
the ends of the domain nothing is said. -/
theorem matches_eq_describes (resolved : FeatureTable.resolve? f.name = some (limit, spec))
    (numbers : ∀ value ∈ f.values, ∀ x ∈ (Quantity.ofValue m value).numbers,
      Number.isNaN x = false)
    (clear : spec.kind = .ratio → ∀ r, d.ratio? spec.key = some r → f.IsClear m r)
    (valid : d.validate = .ok ()) :
    (Outcome.ofClauses (f.clauses m)).matches d = .ok (spec.describes m d limit f) := by
  rw [Outcome.matches_of_validate valid]
  refine congrArg Except.ok ?_
  have real := Device.validate_eq_ok.1 valid
  have listed := FeatureTable.resolve?_mem resolved
  have answers := Device.answers_of_kind? (d := d) (FeatureSpec.kind?_key spec listed)
  have named (words : spec.isRange = false) := (FeatureTable.resolve?_words resolved words).1
  have number {unit : NumericKind} (numeric : spec.valueKind = .numeric unit) :
      (f.asked? m limit spec).any (·.any (·.holds d spec.key)) = _ :=
    any_asked?_numeric numeric listed real numbers
  have asked (kind : spec.kind ≠ .ratio) := anyHolds_of_kind_ne_ratio resolved real kind numbers
  unfold FeatureSpec.valueKind at answers number
  unfold FeatureSpec.describes
  cases kind : spec.kind with
  | ratio =>
    simp only [kind] at answers
    obtain ⟨r, found⟩ := answers
    have lengths := real.ratio? found
    have inside : r.IsInside := ⟨ratio_order_zero lengths.1 lengths.2 (by decide),
      ratio_order_infinity lengths.2.nonNegative⟩
    rw [anyHolds_eq_any_asked? resolved, any_asked?_ratio kind found inside (clear kind r found),
      found]
    rfl
  | numeric unit => exact (asked (by simp [kind])).trans (number (by rw [kind]))
  | pixelRatio => exact (asked (by simp [kind])).trans (number (by rw [kind]))
  | discrete values =>
    simp only [kind] at answers
    cases named (by simp only [FeatureSpec.isRange, kind])
    exact (asked (by simp [kind])).trans (FeatureSpec.any_asked?_discrete kind answers)
  | gamut =>
    simp only [kind] at answers
    obtain ⟨band, found⟩ := answers
    cases named (by simp only [FeatureSpec.isRange, kind])
    rw [asked (by simp [kind]), found]
    exact FeatureSpec.any_asked?_gamut kind found
  | orientation =>
    cases named (by simp only [FeatureSpec.isRange, kind])
    exact (asked (by simp [kind])).trans (FeatureSpec.any_asked?_orientation kind real)

/-- The usual viewport is wider than four to three. -/
theorem matches_eq_describes_wider :
    ∃ spec, FeatureTable.resolve? "aspect-ratio" = some (none, spec) ∧
      (Outcome.ofClauses ((range "aspect-ratio" none (some (.gt, .ratio 4 3))).clauses {})).matches
        {} = .ok true := by
  refine ⟨_, rfl, (matches_eq_describes rfl (by decide +kernel) (fun _ r found => ?_) rfl).trans
    (congrArg Except.ok (by decide +kernel))⟩
  have valid : Device.Valid {} := Device.validate_eq_ok.1 rfl
  have lengths := valid.ratio? found
  have read : FeatureSpec.ratio? {} (.ratio 4 3) = some ⟨4, 3⟩ := rfl
  have written (v : Ratio) (same : FeatureSpec.ratio? {} (.ratio 4 3) = some v) : v = ⟨4, 3⟩ :=
    (Option.some.inj (read.symm.trans same)).symm
  refine ⟨fun _ _ _ shape => .inl (by cases shape; rfl), fun _ _ _ _ value mem v same => ?_,
    fun value mem v same => ?_⟩
  · cases List.mem_singleton.1 mem
    cases written v same
    exact fun both => absurd both (by decide +kernel)
  · cases List.mem_singleton.1 mem
    cases written v same
    exact Ratio.isClear_of_wide ⟨by decide +kernel, by decide +kernel⟩
      ⟨by decide +kernel, by decide +kernel⟩ (by decide +kernel) lengths.1 lengths.2

/-- Zero over zero is on a level with the ratio of a viewport that has no width, and it is below the
least ratio, from which on a comparison looks for the ratio. -/
theorem exists_described_unmatched :
    ∃ spec, FeatureTable.resolve? "aspect-ratio" = some (none, spec) ∧
      spec.describes {} { widthPx := 0 } none
        (.range "aspect-ratio" none (some (.eq, .ratio 0 0))) = true ∧
      (Outcome.ofClauses ((range "aspect-ratio" none (some (.eq, .ratio 0 0))).clauses {})).matches
        { widthPx := 0 } = .ok false := by
  refine ⟨_, rfl, by decide +kernel, ?_⟩
  rw [Outcome.matches_of_validate rfl]
  exact congrArg Except.ok (by decide +kernel)

end Feature

end MediaQuery
