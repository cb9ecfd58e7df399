import MediaQuery.Proofs.Constraint
import MediaQuery.Proofs.Ends

set_option autoImplicit false

namespace MediaQuery

theorem Endpoint.Bounded.of_contains {α : Type} [Endpoint α] {P : α → Prop} {v : α}
    (total : TotalOn P) (low : P Endpoint.negInfinity) (zero : P Endpoint.zero) (hv : P v)
    (below : Endpoint.compare (Endpoint.negInfinity : α) Endpoint.zero ≠ .gt)
    (inside : (Interval.nonNegative : Interval α).contains v = true) : Endpoint.Bounded v := by
  rw [Interval.contains, Bool.and_eq_true] at inside
  obtain ⟨above, under⟩ := inside
  have positive : Endpoint.compare Endpoint.zero v ≠ .gt := by
    rw [← total.swap hv zero]
    simp only [Interval.aboveMin, Interval.nonNegative] at above
    cases verdict : Endpoint.compare v Endpoint.zero <;> simp_all [Ordering.swap]
  constructor
  · rw [← total.swap low hv]
    have order := total.trans low zero hv below positive
    cases verdict : Endpoint.compare Endpoint.negInfinity v <;> simp_all [Ordering.swap]
  · simp only [Interval.belowMax, Interval.nonNegative] at under
    cases verdict : Endpoint.compare v Endpoint.infinity <;> simp_all

namespace FeatureSpec

/-- A device has a value for a feature that is compared with what the written values are read
as. -/
structure Measures {α : Type} [Endpoint α] (spec : FeatureSpec) (m : Metrics) (d : Device)
    (values : List Value) (read : Value → Option α) (v : α) : Prop where
  boolean : spec.ofBoolean.any (·.holds d spec.key) =
    !Comparison.eq.accepts (Endpoint.compare v Endpoint.zero)
  plain : ∀ limit, ∀ value ∈ values,
    (spec.ofPlain? m limit value).map (·.holds d spec.key) =
      (read value).map fun x => (Limit.operator limit).accepts (Endpoint.compare v x)
  range : ∀ left right, (∀ value ∈ sideValues left right, value ∈ values) →
    (spec.ofRange? m left right).map (·.holds d spec.key) =
      (sides? read left right).map fun (left, right) =>
        Comparison.admits v (Comparison.fromRight left) && Comparison.admits v right

variable {spec : FeatureSpec} {m : Metrics} {d : Device} {values : List Value}
  {ratios : String → Ratio → Prop}

theorem any_contains_nonzero {α : Type} [Endpoint α] {P : α → Prop} {v : α}
    (placed : Interval.Placed P Interval.nonNegative v) :
    ((Interval.exact Endpoint.zero).complement Interval.nonNegative).any (·.contains v) =
      !Comparison.eq.accepts (Endpoint.compare v Endpoint.zero) := by
  have zero : P Endpoint.zero := placed.ends.min
  rw [Interval.any_contains_complement placed.total ⟨zero, zero⟩ placed.ends placed.among,
    placed.inside, Bool.true_and]
  simp only [Interval.contains, Interval.aboveMin, Interval.belowMax, Interval.exact]
  cases Endpoint.compare v Endpoint.zero <;> rfl

/-- A device measures a feature with numbers by its own number. -/
theorem measures_number {P : Ratio → Prop} (sound : d.Sound ratios)
    (listed : spec ∈ FeatureTable.all) {unit : NumericKind}
    (numeric : spec.valueKind = .numeric unit) (among : spec.Among m P values) :
    ∃ v, d.number? spec.key = some v ∧ spec.Measures m d values (spec.number? m) v := by
  have known := kind?_key spec listed
  rw [numeric] at known
  obtain ⟨v, found, placed⟩ := sound.number known
  have bounded : Endpoint.Bounded v := .of_contains placed.total Number.isNaN_negInfinity
    placed.ends.min placed.among (by decide) placed.inside
  refine ⟨v, found, ?_, ?_, ?_⟩
  · rw [ofBoolean_numeric numeric, List.any_map, ← any_contains_nonzero placed]
    exact List.any_congr rfl fun interval => Constraint.holds_number found
  · intro limit value mem
    rw [ofPlain?_numeric numeric, Option.map_map]
    refine congrArg (Option.map · _) (funext fun x => ?_)
    rw [Function.comp_apply, Constraint.holds_number found, Limit.interval_eq,
      Comparison.contains_interval bounded]
  · intro left right inside
    rw [ofRange?_numeric numeric, Option.map_map]
    refine Option.map_congr fun sides read => ?_
    obtain ⟨first, second⟩ := sides?_mem
      (fun value mem x => among.number (inside value mem)) read
    rw [Function.comp_apply, Constraint.holds_ofNumbers? found]
    exact Interval.any_contains_between? placed.total Number.isNaN_negInfinity
      Number.isNaN_infinity placed.among bounded first second

end FeatureSpec

end MediaQuery
