import MediaQuery.Proofs.DoubleNegation
import MediaQuery.Proofs.Meaning

set_option autoImplicit false

/- The ways to write one test of a range. A limit and a value behind a colon are a comparison, a
comparison may be read from either side, and one with two sides is the conjunction of both. The
result is the same, up to how the ends of an interval are written: a value behind a colon makes an
interval at once, a comparison cuts it out of all values, which zero over zero is below. -/
namespace MediaQuery

/-- Two results that the same devices match, with the same lists beside them. -/
structure Outcome.Alike (o o' : Outcome) : Prop where
  onDevices : ∀ d, o.matches d = o'.matches d
  falsified : o.falsified = o'.falsified
  invalid : o.invalid = o'.invalid

theorem Outcome.Alike.refl (o : Outcome) : o.Alike o := ⟨fun _ => rfl, rfl, rfl⟩

/-- Two constraints of a feature that the same devices satisfy, of which both or none is never
satisfied. -/
structure Constraint.Alike (key : String) (c c' : Constraint) : Prop where
  holds : ∀ d : Device, d.Valid → c.simplify.holds d key = c'.simplify.holds d key
  never : c.simplify.isNever = c'.simplify.isNever

theorem Constraint.Alike.of_simplify {key : String} {c c' : Constraint}
    (same : c.simplify = c'.simplify) : c.Alike key c' :=
  ⟨fun _ _ => by rw [same], by rw [same]⟩

theorem Outcome.falsified_ofClauses_single {key : String} {c : Constraint} :
    (ofClauses [Clause.single key c]).falsified =
      KeyMap.sortNames (if c.simplify.isNever then [key] else []) := by
  cases never : c.simplify.isNever <;>
    simp [ofClauses, Clause.single, KeyMap.single, Clause.isInvalid, Clause.falseKeys,
      KeyMap.filterMap, KeyMap.keys, never]

theorem Outcome.alike_ofClauses_single {key : String} {c c' : Constraint}
    (alike : c.Alike key c') :
    (ofClauses [Clause.single key c]).Alike (ofClauses [Clause.single key c']) where
  onDevices d := by
    cases valid : d.validate with
    | error e => rw [Outcome.matches, Outcome.matches, valid]; rfl
    | ok _ =>
      rw [matches_of_validate valid, matches_of_validate valid, anyHolds_ofClauses_single,
        anyHolds_ofClauses_single, alike.holds d (Device.validate_eq_ok.1 valid)]
  falsified := by rw [falsified_ofClauses_single, falsified_ofClauses_single, alike.never]
  invalid := rfl

namespace QueryList

/-- The list of the one query that asks for some tests. -/
def asking (fs : List Feature) : QueryList := [.ofCondition (.and (fs.map .feature))]

variable {m : Metrics} {f g : Feature} {key : String} {c c' : Constraint}

private theorem compile_asking_of_clauses {fs : List Feature}
    (clauses : Condition.clauses m (.and (fs.map .feature)) = [Clause.single key c]) :
    (asking fs).compile m = Outcome.ofClauses [Clause.single key c] := by
  have untagged : ∀ part ∈ Condition.clauses m (.and (fs.map .feature)), part.tag = none := by
    rw [clauses, List.forall_mem_singleton]
    rfl
  rw [asking, compile_ofCondition untagged, clauses]

theorem compile_asking_one (made : f.constraints? m = some (key, [c])) :
    (asking [f]).compile m = Outcome.ofClauses [Clause.single key c] := by
  refine compile_asking_of_clauses ?_
  simp only [List.map_cons, List.map_nil, Condition.clauses, InParens.allClauses,
    InParens.clauses, Feature.clauses, made]
  rfl

theorem compile_asking_two (made : f.constraints? m = some (key, [c]))
    (made' : g.constraints? m = some (key, [c'])) :
    (asking [f, g]).compile m = Outcome.ofClauses [Clause.single key (c.inter c')] := by
  refine compile_asking_of_clauses ?_
  simp only [List.map_cons, List.map_nil, Condition.clauses, InParens.allClauses,
    InParens.clauses, Feature.clauses, made, made']
  simp [Clause.product, Clause.and, Clause.single, Clause.top, KeyMap.merge, KeyMap.single,
    KeyMap.empty, KeyMap.insertWith, KeyMap.put]

end QueryList

namespace Interval

variable {α : Type} [Endpoint α] {a b : α} {op op' : Comparison}

/-- A comparison says the same from either side. -/
theorem between?_mirror :
    between? (some (a, op)) none = between? none (some (op.flip, a)) := by
  simp [between?, restrict?]

theorem between?_right (side : Option (Comparison × α)) :
    between? none side = (unbounded : Interval α).restrict? side := rfl

/-- Both sides of a comparison are its left side and its right side, if cutting the right side out
of all values first changes nothing for what the left side leaves. -/
theorem between?_both
    (cut : ∀ x : Interval α, between? (some (a, op)) none = some x →
      (between? none (some (op', b))).bind x.inter? = x.inter? (op'.interval b)) :
    between? (some (a, op)) (some (op', b)) =
      (between? (some (a, op)) none).bind fun x =>
        (between? none (some (op', b))).bind x.inter? := by
  have left : between? (some (a, op)) (some (op', b)) =
      (between? (some (a, op)) none).bind fun x => x.inter? (op'.interval b) := by
    simp only [between?, restrict?]
    rw [Option.bind_assoc]
    rfl
  rw [left]
  cases first : between? (some (a, op)) none with
  | none => rfl
  | some x => exact (cut x first).symm

/-- An upper end matters to an intersection only by how that of the other interval compares with it,
as long as this one is not above it. -/
theorem inter?_congr_max {x : Interval α} (below : Endpoint.compare x.max a ≠ .gt)
    (same : Endpoint.compare x.max a = Endpoint.compare x.max b) (minInclusive : Bool) (low : α)
    (maxInclusive : Bool) :
    x.inter? ⟨minInclusive, low, a, maxInclusive⟩ =
      x.inter? ⟨minInclusive, low, b, maxInclusive⟩ := by
  have upper : upperEnd x ⟨minInclusive, low, a, maxInclusive⟩ =
      upperEnd x ⟨minInclusive, low, b, maxInclusive⟩ := by
    simp only [upperEnd, ← same]
    cases verdict : Endpoint.compare x.max a with
    | gt => exact absurd verdict below
    | _ => rfl
  simp only [inter?, overlap, upper]
  rfl

end Interval

namespace Number

/-- On one level, unless it is that of zero, there is one number. -/
theorem eq_of_order {x y : Float} (hx : isNaN x = false) (hy : isNaN y = false)
    (nonzero : rank x ≠ 0) (level : order x y = .eq) : x = y := by
  rw [order_eq_compare_rank hx hy, compare_eq_iff_eq] at level
  exact eq_of_rank level nonzero

theorem overlap_unbounded {a : Interval Float} (ends : a.EndsIn fun x => isNaN x = false) :
    Interval.unbounded.overlap a = a := by
  obtain ⟨minInclusive, low, high, maxInclusive⟩ := a
  have lower : Interval.lowerEnd Interval.unbounded ⟨minInclusive, low, high, maxInclusive⟩ =
      (minInclusive, low) := by
    simp only [Interval.lowerEnd, Interval.unbounded, Endpoint.compare, Endpoint.negInfinity]
    cases verdict : order negInfinity low with
    | lt => rfl
    | eq => rw [eq_of_order isNaN_negInfinity ends.min (by decide) verdict, Bool.true_and]
    | gt => exact absurd verdict (negInfinity_order low)
  have upper : Interval.upperEnd Interval.unbounded ⟨minInclusive, low, high, maxInclusive⟩ =
      (high, maxInclusive) := by
    simp only [Interval.upperEnd, Interval.unbounded, Endpoint.compare, Endpoint.infinity]
    cases verdict : order infinity high with
    | lt =>
      rw [← order_swap, Ordering.swap_eq_lt] at verdict
      exact absurd verdict (order_infinity high)
    | eq => rw [eq_of_order isNaN_infinity ends.max (by decide) verdict, Bool.true_and]
    | gt => rfl
  rw [Interval.overlap, lower, upper]

section

variable {a b : Float} {op op' : Comparison} {x : Interval Float}

theorem endsIn_interval (number : isNaN b = false) :
    (op.interval b).EndsIn fun x => isNaN x = false :=
  Comparison.endsIn_interval (P := fun x => isNaN x = false) isNaN_negInfinity isNaN_infinity
    number op

/-- The numbers that a comparison cuts out of all are those of its interval. -/
theorem between?_right (number : isNaN b = false) :
    Interval.between? none (some (op, b)) =
      if (op.interval b).isEmpty then none else some (op.interval b) := by
  rw [Interval.between?_right, Interval.restrict?, Interval.inter?,
    overlap_unbounded (endsIn_interval number)]

theorem between?_both (first : isNaN a = false) (second : isNaN b = false) :
    Interval.between? (some (a, op)) (some (op', b)) =
      (Interval.between? (some (a, op)) none).bind fun x =>
        (Interval.between? none (some (op', b))).bind x.inter? := by
  refine Interval.between?_both fun x made => ?_
  have left : x.EndsIn fun x => isNaN x = false :=
    .between? isNaN_negInfinity isNaN_infinity (fun _ _ side => by cases side; exact first)
      (fun _ _ side => by cases side) made
  have right : (op'.interval b).EndsIn fun x => isNaN x = false := endsIn_interval second
  -- Of an infinity a comparison may leave nothing, and then nothing is left of the intersection.
  rw [between?_right second]
  cases empty : (op'.interval b).isEmpty with
  | false => rfl
  | true =>
    obtain ⟨β, _, level, leveled⟩ := totalOn.exists_level
    have none : (op'.interval b).span level = ∅ := by
      rw [← Set.not_nonempty_iff_eq_empty, Interval.span_nonempty_iff leveled right, empty]
      decide
    exact ((Interval.inter?_eq_none_iff leveled left right).2 (by
      rw [none, Set.inter_empty])).symm

end

end Number

namespace Ratio

open Endpoint (compare zero infinity negInfinity)

variable {a b v w : Ratio} {op op' : Comparison} {x : Interval Ratio}

/-- A ratio that is on a level with one on a level with infinity is so itself, if it is not zero
over zero. -/
def ReachesTop (a b : Ratio) : Prop :=
  a.isZeroOverZero = false → compare b infinity = .eq → compare a b = .eq →
    compare a infinity = .eq

/-- Below infinity a comparison admits the ratios of its interval. -/
theorem range?_of_below (below : compare b infinity ≠ .eq) :
    op.range? b = some (op.interval b) := by
  cases op <;> simp [Comparison.range?, Comparison.interval, capped, below, Interval.exact]

/-- An interval as a comparison leaves it of all ratios, seen from a ratio on a level with infinity:
its upper end compares with that as with infinity, its lower end is not above that, and if it
reaches that both ends are on one level. -/
structure Meets (x : Interval Ratio) (b : Ratio) : Prop where
  high : compare x.max infinity ≠ .gt
  top : compare x.max b = compare x.max infinity
  low : compare x.min b ≠ .gt
  tight : compare x.min b = .eq → compare x.min x.max = .eq

theorem Meets.isEmpty_above (meets : Meets x b) :
    (Interval.overlap x (Interval.atLeast b false)).isEmpty = true := by
  obtain ⟨high, top, low, tight⟩ := meets
  have above : compare b x.max = (compare x.max infinity).swap := by rw [← top, compare_swap]
  simp only [Interval.overlap, Interval.lowerEnd, Interval.upperEnd, Interval.isEmpty,
    Interval.atLeast]
  cases lower : compare x.min b with
  | gt => exact absurd lower low
  | lt => cases upper : compare x.max infinity <;> simp_all [Ordering.swap]
  | eq => cases upper : compare x.max infinity <;> simp_all

theorem Meets.bind_range? (meets : Meets x b) (level : compare b infinity = .eq) :
    (op.range? b).bind x.inter? = x.inter? (op.interval b) := by
  have capped : b.capped = infinity := if_pos level
  have upper := Interval.inter?_congr_max meets.high meets.top.symm
  cases op with
  | ge => rfl
  | lt =>
    rw [Comparison.range?, capped]
    exact upper true _ false
  | le =>
    rw [Comparison.range?, capped]
    exact upper true _ true
  | eq =>
    rw [Comparison.range?, capped]
    exact upper true _ true
  | gt =>
    rw [Comparison.range?, if_pos level]
    exact (if_pos meets.isEmpty_above).symm

/-- A written ratio that reaches infinity with another one compares with that as with infinity. -/
theorem IsWritten.compare_top (first : a.IsWritten) (second : b.IsWritten)
    (level : compare b infinity = .eq)
    (reaches : compare a b = .eq → compare a infinity = .eq) :
    compare a b = compare a infinity := by
  have ordered : compare a b ≠ .gt := first.order_ne_gt second level
  cases top : compare a infinity with
  | gt => exact absurd top first.isInside.below
  | lt => cases verdict : compare a b <;> simp_all
  | eq =>
    have down : compare b a ≠ .gt := second.order_ne_gt first top
    rw [← compare_swap] at down
    cases verdict : compare a b <;> simp_all

theorem IsWritten.compare_ends (written : b.IsWritten) (level : compare b infinity = .eq) :
    compare negInfinity b = .lt ∧ compare infinity b = .eq :=
  ⟨written.order_negInfinity (isZeroOverZero_eq_false_of_top level), by
    rw [← compare_swap, level]
    rfl⟩

theorem meets_of_range? (first : a.IsWritten) (second : b.IsWritten)
    (level : compare b infinity = .eq) (reaches : compare a b = .eq → compare a infinity = .eq)
    (made : op.range? a = some x) : Meets x b := by
  obtain ⟨least, greatest⟩ := second.compare_ends level
  have ordered : compare a b ≠ .gt := first.order_ne_gt second level
  have tops := first.compare_top second level reaches
  have high : compare a.capped infinity ≠ .gt := first.isInside.capped.below
  have capped : compare a.capped b = compare a.capped infinity := by
    unfold Ratio.capped
    split
    · rw [greatest, compare_self]
    · exact tops
  cases op with
  | lt | le =>
    cases made
    constructor <;> simp [Interval.atMost, capped, high, least]
  | gt =>
    rw [Comparison.range?, Option.ite_none_left_eq_some] at made
    cases made.2
    constructor <;> simp [Interval.atLeast, compare_self, greatest, ordered, ← tops]
  | ge =>
    cases made
    constructor <;> simp [Interval.atLeast, compare_self, greatest, ordered, ← tops]
  | eq =>
    cases made
    exact ⟨high, capped, ordered, fun _ => compare_capped a⟩

/-- What a comparison leaves of all ratios meets every ratio that it reaches infinity with. -/
theorem meets_of_between? (first : a.IsWritten) (second : b.IsWritten)
    (level : compare b infinity = .eq) (reaches : a.ReachesTop b)
    (made : Interval.between? none (some (op, a)) = some x) : Meets x b := by
  rw [Interval.between?_right] at made
  -- Zero over zero leaves all ratios or none, and any other ratio is an end of what it leaves.
  by_cases both : a.isZeroOverZero = true
  · obtain ⟨least, greatest⟩ := second.compare_ends level
    rw [restrict?_of_overZero both] at made
    cases greater : op.isGreater <;> simp only [greater] at made <;> cases made
    constructor <;> simp [Interval.unbounded, compare_self, greatest, least]
  · have single : a.isZeroOverZero = false := by simpa using both
    rw [first.restrict?_unbounded single] at made
    exact meets_of_range? first second level (reaches single level) made

/-- The values between two ratios are those that both sides leave of all ratios. -/
theorem between?_both (first : a.IsWritten) (second : b.IsWritten)
    (single : b.isZeroOverZero = false) (reaches : a.ReachesTop b) :
    Interval.between? (some (a, op)) (some (op', b)) =
      (Interval.between? (some (a, op)) none).bind fun x =>
        (Interval.between? none (some (op', b))).bind x.inter? := by
  refine Interval.between?_both fun x made => ?_
  rw [Interval.between?_right, second.restrict?_unbounded single]
  by_cases level : compare b infinity = .eq
  · rw [Interval.between?_mirror] at made
    exact (meets_of_between? first second level reaches made).bind_range? level
  · rw [range?_of_below level]
    rfl

/-- The ratios from one on a level with zero on are all of the domain. -/
theorem simplify_atLeast (inside : v.IsInside) (level : compare v zero = .eq) :
    (Constraint.ratio (.atLeast v true)).simplify = .always := by
  have whole : (Interval.atLeast v true).bound ratioDomain = .whole :=
    (bound_closed inside isInside_infinity inside.below).trans (if_pos ⟨level, compare_self _⟩)
  rw [Constraint.simplify, whole]
  rfl

theorem simplify_atMost (inside : v.IsInside) (level : compare v infinity = .eq) :
    (Constraint.ratio (.atMost v true)).simplify = .always := by
  have occupied : (⟨true, zero, v, true⟩ : Interval Ratio).isEmpty = false := by
    have low := inside.above
    rw [Interval.isEmpty, ← compare_swap]
    cases verdict : compare v zero <;> simp_all [Ordering.swap]
  have whole : (⟨true, zero, v, true⟩ : Interval Ratio).sameAs ratioDomain = true := by
    simp [Interval.sameAs, ratioDomain, Interval.nonNegative, level, compare_self]
  rw [Constraint.simplify, Interval.bound, Interval.inter?, overlap_atMost inside, occupied,
    if_neg Bool.false_ne_true]
  simp only [whole, if_true]
  rfl

section Spellings

variable {key : String} (written : v.IsWritten)

include written

/-- A lower limit is the comparison that admits what is not below it. -/
theorem IsWritten.alike_atLeast :
    (Constraint.ratio (.atLeast v true)).Alike key
      (.ofRatios? (Interval.between? none (some (.ge, v)))) := by
  by_cases both : v.isZeroOverZero = true
  · have level : compare v zero = .eq := by
      have degenerate : (zero : Ratio).isDegenerate = true := by decide
      simp [Endpoint.compare, order, both, degenerate]
    refine .of_simplify ?_
    rw [Interval.between?_right, restrict?_of_overZero both,
      simplify_atLeast written.isInside level]
    exact (simplify_atMost isInside_infinity (compare_self _)).symm
  · rw [Interval.between?_right, written.restrict?_unbounded (by simpa using both)]
    exact .of_simplify rfl

variable (single : v.isZeroOverZero = false)

include single

theorem IsWritten.alike_atMost :
    (Constraint.ratio (.atMost v true)).Alike key
      (.ofRatios? (Interval.between? none (some (.le, v)))) := by
  rw [Interval.between?_right, written.restrict?_unbounded single]
  by_cases level : compare v infinity = .eq
  · have capped : compare v.capped infinity = .eq := by rw [capped, if_pos level, compare_self]
    refine .of_simplify ((simplify_atMost written.isInside level).trans ?_)
    exact (simplify_atMost written.isInside.capped capped).symm
  · rw [range?_of_below level]
    exact .of_simplify rfl

theorem IsWritten.alike_exact :
    (Constraint.ratio (.exact v)).Alike key
      (.ofRatios? (Interval.between? none (some (.eq, v)))) := by
  rw [Interval.between?_right, written.restrict?_unbounded single]
  by_cases level : compare v infinity = .eq
  · have short := bound_closed written.isInside written.isInside (by simp [compare_self])
    have long := bound_closed written.isInside isInside_infinity written.isInside.below
    simp only [level, compare_self, and_true] at short long
    rw [Comparison.range?, capped, if_pos level]
    change (Constraint.ratio ⟨true, v, v, true⟩).Alike key (.ratio ⟨true, v, infinity, true⟩)
    by_cases bottom : compare v zero = .eq
    · refine .of_simplify ?_
      rw [Constraint.simplify, Constraint.simplify, short, long, if_pos bottom, if_pos bottom]
    · rw [if_neg bottom] at short long
      refine ⟨fun d valid => ?_, by rw [Constraint.simplify, Constraint.simplify, short, long]; rfl⟩
      rw [Constraint.simplify, Constraint.simplify, short, long]
      change (d.ratio? key).any _ = (d.ratio? key).any _
      cases found : d.ratio? key with
      | none => rfl
      | some r =>
        -- Nothing is above either end, so that both hold what is on a level with the lower one.
        have lengths := valid.ratio? found
        have device : r.IsWritten := ⟨lengths.1.nonNegative, lengths.2.nonNegative⟩
        have below : compare r v ≠ .gt := device.order_ne_gt written level
        have below' : compare r infinity ≠ .gt := device.isInside.below
        simp only [Option.any_some, Interval.contains, Interval.aboveMin, Interval.belowMax]
        cases first : compare r v <;> cases second : compare r infinity <;> simp_all
  · rw [range?_of_below level]
    exact .of_simplify rfl

end Spellings

/-- A limit is the comparison that it stands for. -/
theorem alike_limit {key : String} {limit : Option Limit} (written : v.IsWritten)
    (single : limit = some .min ∨ v.isZeroOverZero = false) :
    (Constraint.ratio (Limit.interval limit v)).Alike key
      (.ofRatios? (Interval.between? none (some (Limit.operator limit, v)))) := by
  rcases limit with _ | _ | _
  · exact written.alike_exact (by simpa using single)
  · exact written.alike_atLeast
  · exact written.alike_atMost (by simpa using single)

end Ratio

deriving instance DecidableEq for FeatureSpec

namespace FeatureSpec

/-- The name of a feature with a limit in front of it; a vendor's mark stays at the very front. -/
def nameWith (spec : FeatureSpec) : Option Limit → String
  | none => spec.name
  | some limit =>
    let word := match limit with
      | .min => "min-"
      | .max => "max-"
    match Text.dropStart? "-webkit-".toList spec.name.toList with
    | some rest => "-webkit-" ++ word ++ String.ofList rest
    | none => word ++ spec.name

theorem resolve?_nameWith : ∀ spec ∈ FeatureTable.all, spec.isRange = true → ∀ limit,
    FeatureTable.resolve? (spec.nameWith limit) = some (limit, spec) := by
  have one (limit : Option Limit) (mem : limit ∈ [none, some .min, some .max]) :
      ∀ spec ∈ FeatureTable.all, spec.isRange = true →
        FeatureTable.resolve? (spec.nameWith limit) = some (limit, spec) := by
    revert limit
    decide +kernel
  intro spec listed range limit
  refine one limit ?_ spec listed range
  rcases limit with _ | _ | _ <;> simp

example : nameWith ⟨"-webkit-device-pixel-ratio", .pixelRatio⟩ (some .min) =
    "-webkit-min-device-pixel-ratio" := by decide +kernel

/-- A value that has a meaning for a feature, and no number of which is none. -/
structure Legal (spec : FeatureSpec) (m : Metrics) (value : Value) : Prop where
  meaning : (spec.ofPlain? m none value).isSome = true
  numbers : ∀ x ∈ (Quantity.ofValue m value).numbers, Number.isNaN x = false

def IsSingle (spec : FeatureSpec) (m : Metrics) (value : Value) : Prop :=
  spec.kind = .ratio → ∀ v, ratio? m value = some v → v.isZeroOverZero = false

def ReachesTop (spec : FeatureSpec) (m : Metrics) (first second : Value) : Prop :=
  spec.kind = .ratio → ∀ v w, ratio? m first = some v → ratio? m second = some w → v.ReachesTop w

variable {spec : FeatureSpec} {m : Metrics} {limit : Option Limit} {a b value : Value}
  {op : Comparison}

theorem numeric_or_ratio (range : spec.isRange = true) :
    (∃ unit, spec.valueKind = .numeric unit) ∨ spec.kind = .ratio := by
  unfold isRange at range
  unfold valueKind
  cases kind : spec.kind with
  | numeric unit => exact .inl ⟨unit, rfl⟩
  | pixelRatio => exact .inl ⟨_, rfl⟩
  | ratio => exact .inr rfl
  | _ => simp [kind] at range

theorem ofRange?_mirror :
    spec.ofRange? m (some (value, op)) none = spec.ofRange? m none (some (op.flip, value)) := by
  unfold ofRange?
  cases spec.kind with
  | numeric _ | pixelRatio =>
    simp only [sides?_left, sides?_right]
    cases spec.number? m value <;> simp [Interval.between?_mirror]
  | ratio =>
    simp only [sides?_left, sides?_right]
    cases (Quantity.ofValue m value).ratio? <;> simp [Interval.between?_mirror]
  | _ => rfl

/-- What a limit asks for is alike what the comparison asks for that it stands for. -/
theorem exists_ofRange?_alike (range : spec.isRange = true) (legal : spec.Legal m value)
    (single : limit = some .min ∨ spec.IsSingle m value) :
    ∃ c c', spec.ofPlain? m limit value = some c ∧
      spec.ofRange? m none (some (Limit.operator limit, value)) = some c' ∧
      c.Alike spec.key c' := by
  obtain ⟨meaning, numbers⟩ := legal
  rcases numeric_or_ratio range with ⟨unit, numeric⟩ | kind
  · simp only [ofPlain?_numeric numeric, ofRange?_numeric numeric, sides?_right,
      Option.isSome_map] at meaning ⊢
    obtain ⟨x, read⟩ := Option.isSome_iff_exists.1 meaning
    have number := number?_number read numbers
    have occupied := Limit.isEmpty_number number limit
    rw [Limit.interval_eq] at occupied
    refine ⟨.number (Limit.interval limit x), .number (Limit.interval limit x), by rw [read]; rfl,
      ?_, .of_simplify rfl⟩
    simp [read, Number.between?_right number, occupied, Limit.interval_eq, Constraint.ofNumbers?]
  · simp only [ofPlain?_ratio kind, ofRange?_ratio kind, sides?_right, Option.isSome_map]
      at meaning ⊢
    obtain ⟨v, read⟩ := Option.isSome_iff_exists.1 meaning
    simp only [read, Option.map_some]
    exact ⟨_, _, rfl, rfl, Ratio.alike_limit (Ratio.isWritten_of_ratio? read)
      (single.imp id fun single => single kind v read)⟩

/-- Both sides of a comparison ask together for what they ask for one by one. -/
theorem exists_ofRange?_both (op op' : Comparison) (range : spec.isRange = true)
    (first : spec.Legal m a) (second : spec.Legal m b) (single : spec.IsSingle m b)
    (reaches : spec.ReachesTop m a b) :
    ∃ c c', spec.ofRange? m (some (a, op)) none = some c ∧
      spec.ofRange? m none (some (op', b)) = some c' ∧
      spec.ofRange? m (some (a, op)) (some (op', b)) = some (c.inter c') := by
  obtain ⟨meaning, numbers⟩ := first
  obtain ⟨meaning', numbers'⟩ := second
  rcases numeric_or_ratio range with ⟨unit, numeric⟩ | kind
  · simp only [ofPlain?_numeric numeric, ofRange?_numeric numeric, sides?_right, sides?_left,
      sides?_both, Option.isSome_map] at meaning meaning' ⊢
    obtain ⟨x, read⟩ := Option.isSome_iff_exists.1 meaning
    obtain ⟨y, read'⟩ := Option.isSome_iff_exists.1 meaning'
    refine ⟨_, _, by rw [read]; rfl, by rw [read']; rfl, ?_⟩
    simp [read, read', Constraint.inter_ofNumbers?,
      Number.between?_both (number?_number read numbers) (number?_number read' numbers')]
  · simp only [ofPlain?_ratio kind, ofRange?_ratio kind, sides?_right, sides?_left, sides?_both,
      Option.isSome_map] at meaning meaning' ⊢
    obtain ⟨v, read⟩ := Option.isSome_iff_exists.1 meaning
    obtain ⟨w, read'⟩ := Option.isSome_iff_exists.1 meaning'
    refine ⟨_, _, by rw [read]; rfl, by rw [read']; rfl, ?_⟩
    simp [read, read', Constraint.inter_ofRatios?, Ratio.between?_both
      (Ratio.isWritten_of_ratio? read) (Ratio.isWritten_of_ratio? read') (single kind w read')
      (reaches kind v w read read')]

end FeatureSpec

namespace QueryList

variable {spec : FeatureSpec} {m : Metrics} {f g : Feature}

/-- Tests of one name that ask for the same are compiled to the same. -/
theorem compile_asking_congr (same : f.constraints? m = g.constraints? m) (name : f.name = g.name) :
    (asking [f]).compile m = (asking [g]).compile m := by
  have clauses : Condition.clauses m (.and [.feature f]) =
      Condition.clauses m (.and [.feature g]) := by
    simp only [Condition.clauses, InParens.allClauses, InParens.clauses, Feature.clauses, name,
      same]
  simp [asking, compile, QueryList.clauses, Query.clauses, Query.ofCondition, clauses]

/-- The spellings of one test of a range are compiled alike: a limit or a value alone and the
comparison that it stands for, a comparison and its mirror image, both sides of a comparison and
their conjunction. Of zero over zero this is only said where it is a lower limit or on the left, and
of two sides only where the left one reaches infinity with the right one. -/
theorem alike_spellings (listed : spec ∈ FeatureTable.all) (range : spec.isRange = true) :
    (∀ limit value, spec.Legal m value → limit = some .min ∨ spec.IsSingle m value →
      ((asking [.plain (spec.nameWith limit) value]).compile m).Alike
        ((asking [.range spec.name none (some (Limit.operator limit, value))]).compile m)) ∧
    (∀ value op,
      ((asking [.range spec.name (some (value, op)) none]).compile m).Alike
        ((asking [.range spec.name none (some (op.flip, value))]).compile m)) ∧
    ∀ a op op' b, spec.Legal m a → spec.Legal m b → spec.IsSingle m b → spec.ReachesTop m a b →
      ((asking [.range spec.name (some (a, op)) (some (op', b))]).compile m).Alike
        ((asking [.range spec.name (some (a, op)) none,
          .range spec.name none (some (op', b))]).compile m) := by
  have resolved := FeatureSpec.resolve?_nameWith spec listed range
  have ranged {left : Option (Value × Comparison)} {right : Option (Comparison × Value)}
      {c : Constraint} (made : spec.ofRange? m left right = some c) :
      (Feature.range spec.name left right).constraints? m = some (spec.key, [c]) :=
    Feature.constraints?_eq_some.2
      ⟨none, spec, resolved none, rfl, by simp [Feature.asked?, made]⟩
  refine ⟨fun limit value legal single => ?_, fun value op => ?_,
    fun a op op' b first second single reaches => ?_⟩
  · obtain ⟨c, c', plain, compared, alike⟩ :=
      FeatureSpec.exists_ofRange?_alike range legal single
    have asked : (Feature.plain (spec.nameWith limit) value).constraints? m =
        some (spec.key, [c]) :=
      Feature.constraints?_eq_some.2
        ⟨limit, spec, resolved limit, rfl, by simp [Feature.asked?, plain]⟩
    rw [compile_asking_one asked, compile_asking_one (ranged compared)]
    exact Outcome.alike_ofClauses_single alike
  · have same : (Feature.range spec.name (some (value, op)) none).constraints? m =
        (Feature.range spec.name none (some (op.flip, value))).constraints? m := by
      rw [Feature.constraints?_eq, Feature.constraints?_eq]
      simp only [Feature.name, Feature.asked?, FeatureSpec.ofRange?_mirror]
    rw [compile_asking_congr same rfl]
    exact .refl _
  · obtain ⟨c, c', left, right, both⟩ :=
      FeatureSpec.exists_ofRange?_both op op' range first second single reaches
    rw [compile_asking_one (ranged both), compile_asking_two (ranged left) (ranged right)]
    exact .refl _

/-- Tests of the ratio of a viewport: up to four to three, and above one as well. -/
theorem alike_spellings_fourToThree :
    ((asking [.plain "max-aspect-ratio" (.ratio 4 3)]).compile {}).Alike
        ((asking [.range "aspect-ratio" none (some (.le, .ratio 4 3))]).compile {}) ∧
      ((asking [.range "aspect-ratio" (some (.ratio 1 1, .lt)) (some (.le, .ratio 4 3))]).compile
          {}).Alike
        ((asking [.range "aspect-ratio" (some (.ratio 1 1, .lt)) none,
          .range "aspect-ratio" none (some (.le, .ratio 4 3))]).compile {}) := by
  obtain ⟨limits, _, sides⟩ :=
    @alike_spellings ⟨"aspect-ratio", .ratio⟩ {} (by simp [FeatureTable.all]) rfl
  have single : FeatureSpec.IsSingle ⟨"aspect-ratio", .ratio⟩ {} (.ratio 4 3) := by
    intro _ v read
    cases read
    decide
  refine ⟨limits (some .max) _ ⟨rfl, by decide +kernel⟩ (.inr single),
    sides _ _ _ _ ⟨rfl, by decide +kernel⟩ ⟨rfl, by decide +kernel⟩ single ?_⟩
  intro _ v w _ read _ top
  cases read
  exact absurd top (by decide +kernel)

/-- Zero over zero is on a level with the ratio of a viewport that has no width. As a limit it
admits that ratio, in a comparison it does not. -/
theorem exists_unlike_spellings :
    ∃ spec ∈ FeatureTable.all, spec.isRange = true ∧ spec.Legal {} (.ratio 0 0) ∧
      ((asking [.plain (spec.nameWith (some .max)) (.ratio 0 0)]).compile {}).matches
        { widthPx := 0 } = .ok true ∧
      ((asking [.range spec.name none (some (.le, .ratio 0 0))]).compile {}).matches
        { widthPx := 0 } = .ok false := by
  refine ⟨⟨"aspect-ratio", .ratio⟩, by simp [FeatureTable.all], rfl, ⟨rfl, by decide +kernel⟩, ?_,
    ?_⟩
  · rw [Outcome.matches_of_validate rfl]
    exact congrArg Except.ok (by decide +kernel)
  · rw [Outcome.matches_of_validate rfl]
    exact congrArg Except.ok (by decide +kernel)

end QueryList

end MediaQuery
