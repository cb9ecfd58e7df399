import MediaQuery.Proofs.Occupied

set_option autoImplicit false

namespace MediaQuery

open Float.Model Float.Model.UnpackedFloat

namespace Number

theorem upward_mul {u v : UnpackedFloat} (left : Upward u) (right : Upward v) :
    Upward (UnpackedFloat.mul Format.binary64 u v) := by
  cases u <;> cases v <;> try trivial
  all_goals
    cases left
    cases right
  case finite.finite => exact upward_roundWithAccuracy rfl _ _ _
  all_goals rfl

/-- A product of numbers from zero on is such a number, unless it is none. -/
theorem isNonNegative_mul {x y : Float} (hx : isNonNegative x = true)
    (hy : isNonNegative y = true) (number : isNaN (x * y) = false) :
    isNonNegative (x * y) = true := by
  rw [mul_eq_packed] at number ⊢
  exact isNonNegative_packed number
    (upward_mul (upward_of_isNonNegative hx) (upward_of_isNonNegative hy))

theorem not_isNaN_mul {x y : Float} (finite : isFinite x = true) (finite' : isFinite y = true) :
    isNaN (x * y) = false := by
  rw [← Bool.not_eq_true, mul_eq_packed, isNaN_packed]
  rw [isFinite, decide_eq_true_iff] at finite finite'
  have view := unpacks x
  have view' := unpacks y
  generalize unpacked x = u at view
  generalize unpacked y = u' at view'
  cases view with
  | notANumber above => omega
  | infinity s level => omega
  | zero s level =>
    cases view' with
    | notANumber above => omega
    | infinity s level => omega
    | _ =>
      intro none
      cases none
  | finite s m e positive canonical above below =>
    cases view' with
    | notANumber above => omega
    | infinity s level => omega
    | zero s level =>
      intro none
      cases none
    | finite s m e positive canonical above below => exact roundWithAccuracy_ne_notANumber _ _ _ _

theorem unpacked_negInfinity : unpacked negInfinity = .infinity .negative := by
  have bits : word negInfinity = 0xFFF0000000000000#64 := by decide
  change UnpackedFloat.unpack Format.binary64 (word negInfinity) = _
  rw [bits]
  rfl

theorem isNaN_negInfinity_mul {y : Float} (zero : isZero y = true) :
    isNaN (negInfinity * y) = true :=
  isNaN_infinite_mul unpacked_negInfinity zero

theorem negInfinity_mul {y : Float} (above : isNonNegative y = true) (nonzero : isZero y = false) :
    negInfinity * y = negInfinity :=
  infinite_mul unpacked_negInfinity above nonzero

/-- Infinity over a number above zero is infinity, unless it is none. -/
theorem infinity_div {y : Float} (above : isNonNegative y = true) (nonzero : isZero y = false)
    (number : isNaN (infinity / y) = false) : infinity / y = infinity := by
  have upward := upward_of_isNonNegative above
  rw [← Bool.not_eq_true, isZero_iff_unpacked, not_exists] at nonzero
  change isNaN (packed (UnpackedFloat.div Format.binary64 (unpacked infinity) (unpacked y))) = _
    at number
  rw [← Bool.not_eq_true, isNaN_packed, unpacked_infinity] at number
  change packed (UnpackedFloat.div Format.binary64 (unpacked infinity) (unpacked y)) = _
  have same : UnpackedFloat.div Format.binary64 (.infinity .positive) (unpacked y) =
      .infinity .positive := by
    generalize unpacked y = u at number nonzero upward
    cases u with
    | notANumber => exact absurd rfl number
    | zero s => exact absurd rfl (nonzero s)
    | infinity s => exact absurd rfl number
    | finite s m e positive =>
      cases upward
      rfl
  rw [unpacked_infinity, same, ← unpacked_infinity, packed_unpacked]

end Number

namespace Ratio

/-- A ratio as it may be written: no part is below zero. -/
structure IsWritten (v : Ratio) : Prop where
  numerator : Number.isNonNegative v.numerator = true
  denominator : Number.isNonNegative v.denominator = true

theorem isWritten_of_ratio? {m : Metrics} {value : Value} {v : Ratio}
    (read : FeatureSpec.ratio? m value = some v) : v.IsWritten := by
  rcases FeatureSpec.ratio?_eq_some read with ⟨x, _, _, rfl, above⟩ | ⟨_, numerator, denominator⟩
  · exact ⟨above, (by decide : Number.isNonNegative 1 = true)⟩
  · exact ⟨numerator, denominator⟩

variable {r v : Ratio}

theorem isZeroOverZero_eq_false_of_wide (wide : Number.isZero v.denominator = false) :
    v.isZeroOverZero = false := by simp [isZeroOverZero, wide]

/-- A quotient over zero is infinite, unless it is that of zero over zero. -/
theorem IsWritten.quotient_of_flat (written : v.IsWritten) (single : v.isZeroOverZero = false)
    (flat : Number.isZero v.denominator = true) : v.quotient = Number.infinity := by
  have tall : Number.isZero v.numerator = false := by simpa [isZeroOverZero, flat] using single
  obtain ⟨_, sign | zero⟩ := (Number.isNonNegative_iff _).1 written.numerator
  · rw [quotient, if_pos flat, tall, if_neg (by decide), Number.withSignOf, sign]
    decide
  · rw [tall] at zero
    cases zero

/-- The least ratio is below every written one but zero over zero. -/
theorem IsWritten.order_negInfinity (written : v.IsWritten) (single : v.isZeroOverZero = false) :
    order ⟨Number.negInfinity, 1⟩ v = .lt := by
  have above (x : Float) (hx : Number.isNonNegative x = true) :
      Number.order Number.negInfinity x = .lt := by
    have number := ((Number.isNonNegative_iff x).1 hx).1
    simp only [Number.isNonNegative, Bool.and_eq_true, decide_eq_true_iff] at hx
    rw [Number.order_eq_compare_rank Number.isNaN_negInfinity number, compare_lt_iff_lt,
      Number.rank_negInfinity]
    have positive : (0 : Int) < Number.infiniteMagnitude := by decide
    omega
  rw [order_eq_crossOrder (by decide) single, crossOrder]
  simp only [Number.mul_one]
  by_cases flat : Number.isZero v.denominator = true
  · rw [Number.isNaN_negInfinity_mul flat, Bool.true_or, if_pos rfl,
      written.quotient_of_flat single flat]
    decide
  · have wide : Number.isZero v.denominator = false := by simpa using flat
    rw [Number.negInfinity_mul written.denominator wide, Number.isNaN_negInfinity,
      ((Number.isNonNegative_iff _).1 written.numerator).1]
    exact above _ written.numerator

theorem IsWritten.numerator_eq_infinity (written : v.IsWritten)
    (infinite : Number.isFinite v.numerator = false) : v.numerator = Number.infinity := by
  have above := written.numerator
  rcases Number.eq_of_not_isFinite ((Number.isNonNegative_iff _).1 above).1 infinite with
    same | same
  · exact same
  · rw [same] at above
    exact absurd above (by decide)

/-- A ratio that is on a level with infinity has a part that says so. -/
theorem IsWritten.numerator_eq_infinity_of_top (written : v.IsWritten)
    (wide : Number.isZero v.denominator = false)
    (top : order v ⟨Number.infinity, 1⟩ = .eq) : v.numerator = Number.infinity := by
  have number := ((Number.isNonNegative_iff _).1 written.numerator).1
  rw [order_eq_crossOrder (isZeroOverZero_eq_false_of_wide wide) (by decide), crossOrder] at top
  simp only [Number.mul_one, Number.infinity_mul written.denominator wide, number,
    Number.isNaN_infinity, Bool.or_self, Bool.false_eq_true, if_false] at top
  exact Number.eq_infinity_of_same (Number.same_of_order number Number.isNaN_infinity top)

theorem isZeroOverZero_eq_false_of_top (top : order v ⟨Number.infinity, 1⟩ = .eq) :
    v.isZeroOverZero = false := by
  rw [← Bool.not_eq_true]
  intro both
  have degenerate : (⟨Number.infinity, 1⟩ : Ratio).isDegenerate = false := by decide
  simp [order, both, degenerate] at top

/-- By cross products no written ratio is above one over zero: its left product is zero, and the
right one is not below that. -/
theorem IsWritten.crossOrder_ne_gt_of_flat (first : r.IsWritten) (second : v.IsWritten)
    (single : v.isZeroOverZero = false) (flat : Number.isZero v.denominator = true) :
    crossOrder r v ≠ .gt := by
  rw [crossOrder, second.quotient_of_flat single flat]
  split
  · exact Number.order_infinity _
  · rename_i numbers
    simp only [Bool.or_eq_true, not_or, Bool.not_eq_true] at numbers
    have finite : Number.isFinite r.numerator = true := by
      by_contra infinite
      rw [first.numerator_eq_infinity (by simpa using infinite),
        Number.isNaN_infinity_mul flat] at numbers
      cases numbers.1
    have product : Number.isZero (r.numerator * v.denominator) = true := by
      rw [Number.mul_comm]
      exact Number.isZero_mul flat finite
    rw [← Number.order_swap]
    have low := Number.order_zero
      (Number.isNonNegative_mul second.numerator first.denominator numbers.2) product
    cases verdict : Number.order (v.numerator * r.denominator) (r.numerator * v.denominator)
    · exact absurd verdict low
    · decide
    · decide

/-- By cross products no written ratio is above one with an infinite numerator: the right product is
infinite, and if it is none the quotient is so, unless that is none as well. -/
theorem IsWritten.crossOrder_ne_gt_of_wide (first : r.IsWritten) (second : v.IsWritten)
    (wide : Number.isZero v.denominator = false) (infinite : v.numerator = Number.infinity) :
    crossOrder r v ≠ .gt := by
  rw [crossOrder, infinite]
  split
  · have divided : v.quotient = Number.infinity / v.denominator := by
      rw [quotient, if_neg (by simpa using wide), infinite]
    rw [divided]
    by_cases number : Number.isNaN (Number.infinity / v.denominator) = true
    · simp [Number.order, number]
    · rw [Number.infinity_div second.denominator wide (by simpa using number)]
      exact Number.order_infinity _
  · rename_i numbers
    simp only [Bool.or_eq_true, not_or] at numbers
    have wide' : Number.isZero r.denominator = false := by
      by_contra flat
      exact numbers.2 (Number.isNaN_infinity_mul (by simpa using flat))
    rw [Number.infinity_mul first.denominator wide']
    exact Number.order_infinity _

/-- No written ratio is above one that is on a level with infinity. -/
theorem IsWritten.order_ne_gt (first : r.IsWritten) (second : v.IsWritten)
    (top : order v ⟨Number.infinity, 1⟩ = .eq) : order r v ≠ .gt := by
  have single := isZeroOverZero_eq_false_of_top top
  by_cases both : r.isZeroOverZero = true
  · rw [order, if_pos both]
    split <;> decide
  · rw [order_eq_crossOrder (by simpa using both) single]
    cases flat : Number.isZero v.denominator with
    | true => exact first.crossOrder_ne_gt_of_flat second single flat
    | false =>
      exact first.crossOrder_ne_gt_of_wide second flat
        (second.numerator_eq_infinity_of_top flat top)

end Ratio

/-- A restriction to a domain holds a value as the common part does, if this one is not empty where
it should hold the value, and not all of the domain where it should not. -/
theorem Interval.contains_bound_of_overlap {α : Type} [Endpoint α] {a domain part : Interval α}
    {v : α} {verdict : Bool} (common : overlap a domain = part)
    (inside : part.contains v = verdict) (empty : part.isEmpty = true → verdict = false)
    (whole : part.sameAs domain = true → verdict = true) :
    (a.bound domain).contains v = verdict := by
  rw [bound, inter?, common]
  cases none : part.isEmpty with
  | true => exact (empty none).symm
  | false =>
    cases all : part.sameAs domain with
    | true => simp [all, whole all, Bounded.contains]
    | false => simp [all, inside, Bounded.contains]

namespace Ratio

open Endpoint (compare zero infinity negInfinity)

variable {r v w : Ratio}

theorem compare_swap (x y : Ratio) : (compare x y).swap = compare y x := order_swap x y

theorem compare_self (x : Ratio) : compare x x = .eq := order_self x

theorem compare_negInfinity_zero : compare (negInfinity : Ratio) zero = .lt := by decide +kernel

/-- A ratio between the ends of the domain. -/
structure IsInside (v : Ratio) : Prop where
  above : compare v zero ≠ .lt
  below : compare v infinity ≠ .gt

theorem IsWritten.isInside (written : v.IsWritten) : v.IsInside :=
  ⟨order_zero_ne_lt written.numerator written.denominator,
    ratio_order_infinity written.denominator⟩

theorem isInside_zero : (zero : Ratio).IsInside := ⟨by decide +kernel, by decide +kernel⟩

theorem isInside_infinity : (infinity : Ratio).IsInside := ⟨by decide +kernel, by decide +kernel⟩

/-- A ratio is compared with another one that is on a level with an end of the domain as an order
would have it: it is not below zero, and it is compared as with infinity. -/
structure IsClear (r v : Ratio) : Prop where
  low : compare v zero = .eq → compare r v ≠ .lt
  top : compare v infinity = .eq → compare r v = compare r infinity

theorem contains_bound_atLeast (inside : v.IsInside) (device : r.IsInside) (clear : r.IsClear v)
    (inclusive : Bool) :
    ((Interval.atLeast v inclusive).bound ratioDomain).contains r =
      (if inclusive then Comparison.ge else .gt).accepts (compare r v) := by
  have self : compare (infinity : Ratio) infinity = .eq := compare_self _
  have common : Interval.overlap (Interval.atLeast v inclusive) ratioDomain =
      Interval.atLeast v inclusive :=
    Interval.isClosed_ratioDomain.overlap_eq_left inside.above fun above =>
      nomatch self.symm.trans above
  have below := device.below
  refine Interval.contains_bound_of_overlap common ?_ (fun empty => ?_) (fun whole => ?_)
  · simp only [Interval.contains, Interval.aboveMin, Interval.belowMax, Interval.atLeast]
    cases inclusive <;> cases compare r v <;> cases limit : compare r infinity <;>
      simp_all [Comparison.accepts]
  · have top : compare v infinity = .eq ∧ inclusive = false := by
      have high := inside.below
      simp only [Interval.isEmpty, Interval.atLeast] at empty
      cases limit : compare v infinity <;> simp_all
    rw [top.2, clear.top top.1]
    simpa [Comparison.accepts] using below
  · simp only [Interval.sameAs, Interval.atLeast, ratioDomain, Interval.nonNegative,
      Bool.and_eq_true, beq_iff_eq] at whole
    rw [whole.1.1.1]
    simpa [Comparison.accepts] using clear.low whole.1.2

/-- What the domain holds of the ratios up to one begins at zero. -/
theorem overlap_atMost (inside : v.IsInside) (inclusive : Bool) :
    Interval.overlap (Interval.atMost v inclusive) ratioDomain = ⟨true, zero, v, inclusive⟩ := by
  have high := inside.below
  simp only [Interval.overlap, Interval.lowerEnd, Interval.upperEnd, Interval.atMost,
    ratioDomain, Interval.nonNegative, compare_negInfinity_zero]
  cases limit : compare v infinity <;> simp_all

theorem contains_bound_atMost (inside : v.IsInside) (device : r.IsInside) (clear : r.IsClear v)
    (inclusive : Bool) :
    ((Interval.atMost v inclusive).bound ratioDomain).contains r =
      (if inclusive then Comparison.le else .lt).accepts (compare r v) := by
  have above := device.above
  refine Interval.contains_bound_of_overlap (overlap_atMost inside inclusive) ?_ (fun empty => ?_)
    (fun whole => ?_)
  · simp only [Interval.contains, Interval.aboveMin, Interval.belowMax]
    cases inclusive <;> cases compare r v <;> cases limit : compare r zero <;>
      simp_all [Comparison.accepts]
  · have bottom : compare v zero = .eq ∧ inclusive = false := by
      have low := inside.above
      simp only [Interval.isEmpty, ← compare_swap v zero] at empty
      cases limit : compare v zero <;> simp_all [Ordering.swap]
    rw [bottom.2]
    simpa [Comparison.accepts] using clear.low bottom.1
  · simp only [Interval.sameAs, ratioDomain, Interval.nonNegative, Bool.and_eq_true,
      beq_iff_eq] at whole
    rw [whole.1.1.2, clear.top whole.2]
    simpa [Comparison.accepts] using device.below

/-- An interval with both its ends, which are between those of the domain, is all of the domain or
is left as it is. -/
theorem bound_closed (lower : v.IsInside) (upper : w.IsInside) (ordered : compare v w ≠ .gt) :
    (⟨true, v, w, true⟩ : Interval Ratio).bound ratioDomain =
      if compare v zero = .eq ∧ compare w infinity = .eq then .whole
      else .part ⟨true, v, w, true⟩ := by
  have common : Interval.overlap ⟨true, v, w, true⟩ ratioDomain = ⟨true, v, w, true⟩ :=
    Interval.isClosed_ratioDomain.overlap_eq_left lower.above upper.below
  have occupied : (⟨true, v, w, true⟩ : Interval Ratio).isEmpty = false := by
    simp only [Interval.isEmpty]
    cases verdict : compare v w <;> simp_all
  rw [Interval.bound, Interval.inter?, common, occupied, if_neg Bool.false_ne_true]
  simp [Interval.sameAs, ratioDomain, Interval.nonNegative]

/-- The interval between ratios on one level. -/
theorem contains_bound_between (lower : v.IsInside) (upper : w.IsInside) (device : r.IsInside)
    (clear : r.IsClear v) (clear' : r.IsClear w) (level : compare v w = .eq)
    (same : compare r w = compare r v) :
    ((⟨true, v, w, true⟩ : Interval Ratio).bound ratioDomain).contains r =
      Comparison.eq.accepts (compare r v) := by
  rw [bound_closed lower upper (by simp [level])]
  split
  · rename_i whole
    have low := clear.low whole.1
    have high := clear'.top whole.2
    have below := device.below
    rw [same] at high
    cases verdict : compare r v <;> simp_all [Comparison.accepts, Bounded.contains]
  · simp only [Bounded.contains, Interval.contains, Interval.aboveMin, Interval.belowMax, same]
    cases compare r v <;> rfl

/-- What is left of the interval of a comparison holds the ratios that compare so, if these are
clear of the ends of the domain. -/
theorem contains_bound_interval (inside : v.IsInside) (device : r.IsInside) (clear : r.IsClear v)
    (op : Comparison) :
    ((op.interval v).bound ratioDomain).contains r = op.accepts (compare r v) := by
  cases op with
  | lt => exact contains_bound_atMost inside device clear false
  | le => exact contains_bound_atMost inside device clear true
  | gt => exact contains_bound_atLeast inside device clear false
  | ge => exact contains_bound_atLeast inside device clear true
  | eq => exact contains_bound_between inside inside device clear clear (compare_self v) rfl

/-- A ratio, or infinity if it is on a level with it. -/
def capped (v : Ratio) : Ratio := if compare v infinity = .eq then infinity else v

theorem compare_capped (v : Ratio) : compare v v.capped = .eq := by
  unfold capped
  split
  · assumption
  · exact compare_self v

theorem IsInside.capped (inside : v.IsInside) : v.capped.IsInside := by
  unfold Ratio.capped
  split
  · exact isInside_infinity
  · exact inside

theorem IsClear.capped (clear : r.IsClear v) : r.IsClear v.capped := by
  unfold Ratio.capped
  split
  · refine ⟨fun low => ?_, fun _ => rfl⟩
    exact absurd low (by decide +kernel)
  · exact clear

theorem IsClear.compare_capped (clear : r.IsClear v) : compare r v.capped = compare r v := by
  unfold Ratio.capped
  split
  · rename_i top
    exact (clear.top top).symm
  · rfl

end Ratio

/-- The part of all ratios that a comparison admits. -/
def Comparison.range? (op : Comparison) (v : Ratio) : Option (Interval Ratio) :=
  match op with
  | .lt => some (.atMost v.capped false)
  | .le => some (.atMost v.capped true)
  | .gt => if Endpoint.compare v Endpoint.infinity = .eq then none else some (.atLeast v false)
  | .ge => some (.atLeast v true)
  | .eq => some ⟨true, v, v.capped, true⟩

namespace Ratio

open Endpoint (compare zero infinity negInfinity)

variable {r v w : Ratio}

/-- A comparison with a written ratio that is above the least one. -/
theorem IsWritten.restrict?_unbounded (written : v.IsWritten) (single : v.isZeroOverZero = false)
    (op : Comparison) :
    (Interval.unbounded : Interval Ratio).restrict? (some (op, v)) = op.range? v := by
  have least : compare (negInfinity : Ratio) v = .lt := written.order_negInfinity single
  have self : compare (negInfinity : Ratio) negInfinity = .eq := compare_self _
  have self' : compare (infinity : Ratio) infinity = .eq := compare_self _
  have width : compare (negInfinity : Ratio) infinity = .lt := by decide +kernel
  have high := written.isInside.below
  have swapped := compare_swap v infinity
  have same := compare_self v
  unfold Comparison.range? capped
  cases top : compare v infinity with
  | gt => exact absurd top high
  | eq =>
    rw [top] at swapped
    cases op <;>
      simp [Interval.restrict?, Interval.inter?, Interval.overlap, Interval.lowerEnd,
        Interval.upperEnd, Interval.isEmpty, Interval.unbounded, Comparison.interval,
        Interval.atMost, Interval.atLeast, Interval.exact, least, self, self', width, top,
        ← swapped]
  | lt =>
    rw [top] at swapped
    cases op <;>
      simp [Interval.restrict?, Interval.inter?, Interval.overlap, Interval.lowerEnd,
        Interval.upperEnd, Interval.isEmpty, Interval.unbounded, Comparison.interval,
        Interval.atMost, Interval.atLeast, Interval.exact, least, self, self', same, top,
        ← swapped]

/-- Zero over zero is below all ratios that have no part that is zero. -/
theorem compare_overZero (wide : r.isDegenerate = false) (both : v.isZeroOverZero = true) :
    compare r v = .gt := by
  have single : r.isZeroOverZero = false := by
    rw [← Bool.not_eq_true]
    intro both
    rw [isDegenerate_of_isZeroOverZero r both] at wide
    cases wide
  simp [Endpoint.compare, order, both, wide, single]

/-- Zero over zero is below the least ratio: a comparison that admits what is above leaves all
ratios, and any other comparison nothing. -/
theorem restrict?_of_overZero (both : v.isZeroOverZero = true) (op : Comparison) :
    (Interval.unbounded : Interval Ratio).restrict? (some (op, v)) =
      if op.isGreater then some .unbounded else none := by
  have least : compare (negInfinity : Ratio) v = .gt := compare_overZero (by decide) both
  have greatest : compare (infinity : Ratio) v = .gt := compare_overZero (by decide) both
  have self : compare (negInfinity : Ratio) negInfinity = .eq := compare_self _
  have self' : compare (infinity : Ratio) infinity = .eq := compare_self _
  have width : compare (negInfinity : Ratio) infinity = .lt := by decide +kernel
  cases op <;>
    simp [Interval.restrict?, Interval.inter?, Interval.overlap, Interval.lowerEnd,
      Interval.upperEnd, Interval.isEmpty, Interval.unbounded, Comparison.interval,
      Interval.atMost, Interval.atLeast, Interval.exact, least, greatest, self, self', width,
      Comparison.isGreater]

/-- What a comparison admits, as far as the domain holds it, are the ratios that compare so. -/
theorem any_contains_range? (inside : v.IsInside) (device : r.IsInside) (clear : r.IsClear v)
    (op : Comparison) :
    ((op.range? v).any fun part => (part.bound ratioDomain).contains r) =
      op.accepts (compare r v) := by
  rw [← clear.compare_capped]
  cases op with
  | lt => exact contains_bound_atMost inside.capped device clear.capped false
  | le => exact contains_bound_atMost inside.capped device clear.capped true
  | gt =>
    rw [clear.compare_capped, Comparison.range?]
    split
    · rename_i top
      have below := device.below
      rw [clear.top top]
      cases verdict : compare r infinity <;> simp_all [Comparison.accepts]
    · exact contains_bound_atLeast inside device clear false
  | ge =>
    rw [clear.compare_capped]
    exact contains_bound_atLeast inside device clear true
  | eq =>
    rw [clear.compare_capped]
    exact contains_bound_between inside inside.capped device clear clear.capped
      (compare_capped v) clear.compare_capped

theorem contains_bound_unbounded (device : r.IsInside) :
    ((Interval.unbounded : Interval Ratio).bound ratioDomain).contains r = true := by
  have top : r.IsClear infinity := ⟨fun low => absurd low (by decide +kernel), fun _ => rfl⟩
  have below := device.below
  refine (contains_bound_atMost isInside_infinity device top true).trans ?_
  simpa [Comparison.accepts] using below

/-- A ratio that a test may compare another one with: written, clear of the ends of the domain, and
not zero over zero if the other one has a part that is zero. -/
structure Fits (r v : Ratio) : Prop where
  written : v.IsWritten
  single : v.isZeroOverZero = true → r.isDegenerate = false
  clear : r.IsClear v

theorem Fits.any_contains_restrict? (fits : r.Fits v) (device : r.IsInside) (op : Comparison) :
    (((Interval.unbounded : Interval Ratio).restrict? (some (op, v))).any fun part =>
      (part.bound ratioDomain).contains r) = op.accepts (compare r v) := by
  by_cases both : v.isZeroOverZero = true
  · rw [restrict?_of_overZero both, compare_overZero (fits.single both) both]
    cases op <;> simp [Comparison.isGreater, Comparison.accepts, contains_bound_unbounded device]
  · rw [fits.written.restrict?_unbounded (by simpa using both)]
    exact any_contains_range? fits.written.isInside device fits.clear op

/-- A comparison on one side admits the ratios that compare so, as far as the domain holds them. -/
theorem any_contains_between? {left : Option (Ratio × Comparison)}
    {right : Option (Comparison × Ratio)} (device : r.IsInside)
    (oneSided : left = none ∨ right = none) (first : ∀ v op, left = some (v, op) → r.Fits v)
    (second : ∀ op v, right = some (op, v) → r.Fits v) :
    ((Interval.between? left right).any fun part => (part.bound ratioDomain).contains r) =
      (Comparison.admits r (Comparison.fromRight left) && Comparison.admits r right) := by
  rcases left with _ | ⟨v, op⟩
  · rcases right with _ | ⟨op, v⟩
    · exact contains_bound_unbounded device
    · exact (second op v rfl).any_contains_restrict? device op
  · obtain rfl : right = none := by simpa using oneSided
    have holds := (first v op rfl).any_contains_restrict? device op.flip
    simpa [Interval.between?, Interval.restrict?, Comparison.admits, Comparison.fromRight]
      using holds

/-- Ratios of lengths are clear of the ends of the domain, unless they are over zero. -/
theorem isClear_of_wide (numerator : Device.IsLength v.numerator)
    (denominator : Device.IsLength v.denominator) (wide : Number.isZero v.denominator = false)
    (numerator' : Device.IsLength r.numerator) (denominator' : Device.IsLength r.denominator) :
    r.IsClear v where
  low level := by
    have single := isZeroOverZero_eq_false_of_wide wide
    change order v ⟨0, 1⟩ = .eq at level
    rw [order_zero_eq_compare numerator denominator single, compare_eq_iff_eq,
      ← Number.isZero_iff_rank] at level
    change order r v ≠ .lt
    by_cases both : r.isZeroOverZero = true
    · simp [order, both, isDegenerate, level]
    · have product := Number.isZero_mul level denominator'.finite
      have number := Number.not_isNaN_mul numerator'.finite denominator.finite
      rw [order_eq_crossOrder (by simpa using both) single, crossOrder, number,
        Number.not_isNaN_of_isZero product]
      exact Number.order_zero (Number.isNonNegative_mul numerator'.nonNegative
        denominator.nonNegative number) product
  top level := by
    have below := order_infinity_of_not_flat numerator denominator
      (isZeroOverZero_eq_false_of_wide wide) wide
    exact absurd (below.symm.trans level) (by decide)

end Ratio

end MediaQuery
