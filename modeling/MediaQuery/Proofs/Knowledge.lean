import MediaQuery.Proofs.Demand

set_option autoImplicit false

namespace MediaQuery

/-- A device with a screen and a viewport of at least one part. -/
structure Device.Real (d : Device) : Prop where
  deviceWidth : Number.below 0 d.deviceWidthPx = true
  deviceHeight : Number.below 0 d.deviceHeightPx = true
  horizontalSegments : 1 ≤ d.horizontalViewportSegments
  verticalSegments : 1 ≤ d.verticalViewportSegments

theorem Number.isZero_of_below {x : Float} (above : Number.below 0 x = true) :
    Number.isZero x = false := by
  simp only [Number.below, Bool.and_eq_true, decide_eq_true_iff, Number.rank_zero] at above
  rw [← Bool.not_eq_true, Number.isZero_iff_rank]
  omega

theorem Device.isZero_ofCount_of_pos {count : UInt32} (positive : 1 ≤ count) :
    Number.isZero (Device.ofCount count) = false := by
  rw [Device.isZero_ofCount, beq_eq_false_iff_ne]
  rintro rfl
  exact absurd positive (by decide)

theorem Device.Real.nonzero {d : Device} (real : d.Real) (valid : d.Valid) {spec : FeatureSpec}
    (listed : spec ∈ FeatureTable.all) (never : Knowledge.neverZero.contains spec.name = true)
    {v : Float} (found : d.number? spec.key = some v) : Number.isZero v = false := by
  have keys : ∀ spec ∈ FeatureTable.all, Knowledge.neverZero.contains spec.name = true →
      spec.key ∈ ["device-width", "device-height", "resolution", "horizontal-viewport-segments",
        "vertical-viewport-segments"] := by
    decide
  have key := keys spec listed never
  simp only [List.mem_cons, List.not_mem_nil, or_false] at key
  rcases key with key | key | key | key | key <;> rw [key] at found <;> cases found
  · exact Number.isZero_of_below real.deviceWidth
  · exact Number.isZero_of_below real.deviceHeight
  · rw [← Bool.not_eq_true, Number.isZero_iff_rank]
    have positive := valid.density.2
    omega
  · exact isZero_ofCount_of_pos real.horizontalSegments
  · exact isZero_ofCount_of_pos real.verticalSegments

theorem Quantity.ofValue_ident (m : Metrics) (name : String) :
    Quantity.ofValue m (.ident name) =
      if name = "infinite" then .infinite else .ident name := by
  split
  · subst name
    rfl
  · simp only [Quantity.ofValue]

theorem Quantity.ofDimension_ne (m : Metrics) (x : Float) (unit : String) :
    Quantity.ofDimension m x unit ≠ .infinite ∧
      ∀ r, Quantity.ofDimension m x unit ≠ .ratio r := by
  unfold Quantity.ofDimension
  split
  · exact ⟨nofun, nofun⟩
  · split
    · exact ⟨nofun, nofun⟩
    · split <;> exact ⟨nofun, nofun⟩

/-- A quantity as a number of some kind; a ratio is taken for its quotient. -/
def Quantity.inKind? (kind : RangeKind) (q : Quantity) : Option Float :=
  match kind with
  | .integer => q.integer?
  | .number => q.number?
  | .length => q.length?
  | .resolution => match q with
    | .resolution dppx => some dppx
    | _ => none
  | .ratio => match q with
    | .number x _ => some x
    | .ratio _ => q.ratio?.map Ratio.quotient
    | _ => none

/-- A value that is no word is read off its quantity alone. -/
theorem Value.inRange?_eq_inKind? {value : Value} (noWord : ∀ name, value ≠ .ident name)
    (m : Metrics) (kind : RangeKind) (extraValues : List String) :
    value.inRange? m kind extraValues = (Quantity.ofValue m value).inKind? kind := by
  cases value with
  | ident name => exact absurd rfl (noWord name)
  | _ => cases kind <;> rfl

namespace FeatureSpec

variable {spec : FeatureSpec} {m : Metrics} {d : Device} {values : List Value} {value : Value}
  {kind : RangeKind} {canBeZero : Bool} {extraValues : List String}

/-- The only word that is read as a number is the one for an infinite resolution. -/
theorem number?_ident {name : String} {x : Float} (read : spec.number? m (.ident name) = some x) :
    spec.kind = .numeric .resolution ∧ name = "infinite" ∧ x = Number.infinity := by
  simp only [number?, Quantity.ofValue_ident] at read
  split at read
  · split at read <;> cases read
  · split at read <;> cases read
  · rename_i shape
    split at read <;> cases read
    rename_i infinite
    exact ⟨shape, infinite, rfl⟩
  · split at read <;> cases read
  · cases read

/-- The two ways in which a value is read as a number agree. -/
theorem inRange?_of_number? {x : Float} (read : spec.number? m value = some x)
    (known : Knowledge.ofSpec spec = .range kind canBeZero false extraValues) :
    value.inRange? m kind extraValues = some x := by
  have range := Knowledge.rangeOf_of_ofSpec known
  by_cases word : ∃ name, value = .ident name
  · obtain ⟨name, rfl⟩ := word
    obtain ⟨shape, rfl, rfl⟩ := number?_ident read
    cases range with
    | resolution _ => rfl
    | length other | integer other | ratio other | number other => cases shape.symm.trans other
  · rw [Value.inRange?_eq_inKind? (not_exists.1 word)]
    cases range with
    | length shape | integer shape | number shape =>
      simp only [number?, shape] at read
      exact read
    | ratio shape => simp only [number?, shape, reduceCtorEq] at read
    | resolution shape =>
      have finite : Quantity.ofValue m value ≠ .infinite := by
        cases value with
        | ident name => exact absurd ⟨name, rfl⟩ word
        | dimension y unit => exact (Quantity.ofDimension_ne m y unit).1
        | _ => exact nofun
      simp only [number?, shape] at read
      generalize Quantity.ofValue m value = q at read finite
      cases q <;> first | exact read | exact absurd rfl finite

/-- What is known of a feature with numbers is right for the number of a real device. -/
theorem judges_number (m : Metrics) (values : List Value) (real : d.Real) (valid : d.Valid)
    (listed : spec ∈ FeatureTable.all) {unit : NumericKind}
    (numeric : spec.valueKind = .numeric unit) {v : Float}
    (found : d.number? spec.key = some v) :
    ∃ kind extraValues, spec.Judges m kind (!Knowledge.neverZero.contains spec.name) extraValues
      values (spec.number? m) v := by
  have possible (never : (!Knowledge.neverZero.contains spec.name) = false) :
      Number.isZero v = false :=
    real.nonzero valid listed (by simpa using never) found
  have takes : spec.isRange = true := by
    rcases kind_of_numeric numeric with shape | shape <;> simp only [isRange, shape]
  obtain ⟨kind, extraValues, known⟩ := Knowledge.ofSpec_range takes
  have above := valid.number? found
  have number := ((Number.isNonNegative_iff v).1 above).1
  refine ⟨kind, extraValues, known, fun never => ?_, fun value mem x read => ?_⟩
  · have nonzero := possible never
    rw [← Bool.not_eq_true, Number.isZero_iff_rank] at nonzero
    change Number.order v 0 ≠ .eq
    rw [Number.order_eq_compare_rank number Number.isNaN_zero, Number.rank_zero, ne_eq,
      compare_eq_iff_eq]
    exact nonzero
  · refine ⟨x, inRange?_of_number? read known, fun op verdict isNumber decided => ?_⟩
    exact Comparison.decide?_number above possible isNumber decided

end FeatureSpec

namespace Ratio

/-- A ratio whose quotient is zero or infinite only where the ratio is on a level with zero or
infinity: the quotient is not rounded that far. -/
structure Faithful (r : Ratio) : Prop where
  zero : Number.isZero r.quotient = true → order r Endpoint.zero = .eq
  infinite : Number.same r.quotient Number.infinity = true → order r Endpoint.infinity = .eq

theorem isNegative_quotient {r : Ratio} (numerator : Number.isNonNegative r.numerator = true)
    (denominator : Number.isNonNegative r.denominator = true) :
    Number.isNegative r.quotient = false := by
  have up : ∀ x, Number.isNonNegative x = true → Number.isNegative x = false := by
    intro x above
    simp only [Number.isNonNegative, Bool.and_eq_true, decide_eq_true_iff] at above
    simp [Number.isNegative, above.2]
  rw [quotient]
  split
  · split
    · decide
    · rename_i zero
      obtain ⟨_, sign | zero'⟩ := (Number.isNonNegative_iff _).1 numerator
      · rw [Number.withSignOf, sign]
        decide
      · exact absurd zero' zero
  · rename_i nonzero
    by_cases number : Number.isNaN (r.numerator / r.denominator) = true
    · simp [Number.isNegative, number]
    · exact up _ (Number.isNonNegative_div numerator denominator (by simpa using nonzero)
        (by simpa using number))

end Ratio

namespace Number

theorem eq_of_toBits {x y : Float} (same : x.toBits = y.toBits) : x = y := by
  obtain ⟨⟨bits, valid⟩⟩ := x
  obtain ⟨⟨bits', valid'⟩⟩ := y
  have equal : bits = bits' := same
  subst equal
  rfl

/-- On every level but that of zero there is one double. -/
theorem eq_of_rank {x y : Float} (level : rank x = rank y) (nonzero : rank x ≠ 0) : x = y := by
  have hx := (isZero_iff_rank x).not.2 nonzero
  have hy := (isZero_iff_rank y).not.2 (level ▸ nonzero)
  refine eq_of_toBits (UInt64.toNat_inj.1 ?_)
  simp only [isZero, beq_iff_eq] at hx hy
  simp only [rank, signBit, magnitude, decide_eq_true_eq] at level hx hy
  have := x.toBits.toNat_lt
  have := y.toBits.toNat_lt
  split at level <;> split at level <;> omega

theorem eq_infinity_of_same {x : Float} (level : same x infinity = true) : x = infinity := by
  simp only [same, Bool.and_eq_true, beq_iff_eq] at level
  refine eq_of_rank level.2 ?_
  rw [level.2, rank_infinity]
  decide

end Number

namespace FeatureSpec

variable {spec : FeatureSpec} {m : Metrics} {d : Device} {values : List Value} {value : Value}
  {ratios : String → Ratio → Prop} {v r : Ratio}

/-- A ratio is read off a number, or off a ratio, whose parts are not below zero. -/
theorem ratio?_eq_some (read : ratio? m value = some r) :
    (∃ x integer, Quantity.ofValue m value = .number x integer ∧ r = ⟨x, 1⟩ ∧
      Number.isNonNegative x = true) ∨
      (Quantity.ofValue m value = .ratio r ∧ Number.isNonNegative r.numerator = true ∧
        Number.isNonNegative r.denominator = true) := by
  unfold ratio? Quantity.ratio? at read
  generalize Quantity.ofValue m value = q at read ⊢
  cases q with
  | number x integer =>
    simp only [Option.ite_none_right_eq_some, Bool.and_eq_true] at read
    exact .inl ⟨x, integer, rfl, (Option.some.inj read.2).symm, read.1.1⟩
  | ratio r' =>
    simp only [Option.ite_none_right_eq_some, Bool.and_eq_true] at read
    cases read.2
    exact .inr ⟨rfl, read.1.1, read.1.2⟩
  | _ => cases read

end FeatureSpec

end MediaQuery
