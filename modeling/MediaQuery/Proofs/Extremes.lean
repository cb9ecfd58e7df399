import MediaQuery.Proofs.WrittenRatio

set_option autoImplicit false

namespace MediaQuery

open Endpoint (compare zero infinity negInfinity)

namespace Ratio

variable {rs : List Ratio} {v : Ratio}

/-- The ratios on a level with zero, but for zero over zero, compare with the others, and with
infinity, as zero does. -/
def Grounded (rs : List Ratio) : Prop :=
  ∀ x ∈ rs, x.isZeroOverZero = false → order x zero = .eq →
    ∀ y ∈ infinity :: rs, order x y = order zero y

instance (rs : List Ratio) : Decidable (Grounded rs) :=
  inferInstanceAs (Decidable (∀ x ∈ rs, x.isZeroOverZero = false → order x zero = .eq →
    ∀ y ∈ infinity :: rs, order x y = order zero y))

/-- A written ratio on a level with zero has no numerator, or it is over infinity. -/
theorem IsWritten.order_one (written : v.IsWritten) (single : v.isZeroOverZero = false)
    (low : order v ⟨0, 1⟩ = .eq) (high : order v ⟨Number.infinity, 1⟩ = .lt) :
    order v ⟨1, 1⟩ = .lt := by
  have number := ((Number.isNonNegative_iff _).1 written.numerator).1
  have number' := ((Number.isNonNegative_iff _).1 written.denominator).1
  rw [order_eq_crossOrder single (by decide), crossOrder] at low high ⊢
  simp only [Number.mul_one, Number.one_mul, number, number', Bool.or_self, Bool.false_eq_true,
    if_false] at low high ⊢
  by_cases finite : Number.isFinite v.denominator = true
  · have product := Number.isZero_mul (by decide : Number.isZero 0 = true) finite
    have numberProduct := Number.not_isNaN_of_isZero product
    rw [numberProduct, if_neg (by decide), Number.order_eq_compare_rank number numberProduct,
      (Number.isZero_iff_rank _).1 product, compare_eq_iff_eq] at low
    have wide : ¬Number.isZero v.denominator = true := by
      simpa [isZeroOverZero, (Number.isZero_iff_rank _).2 low] using single
    have above := written.denominator
    simp only [Number.isNonNegative, Bool.and_eq_true, decide_eq_true_iff] at above
    rw [Number.isZero_iff_rank] at wide
    rw [Number.order_eq_compare_rank number number', low, compare_lt_iff_lt]
    omega
  · have endless : v.denominator = Number.infinity := by
      rcases Number.eq_of_not_isFinite number' (by simpa using finite) with same | same
      · exact same
      · have above := written.denominator
        rw [same] at above
        exact absurd above (by decide)
    rw [endless, Number.infinity_mul (by decide) (by decide), Number.isNaN_infinity] at high
    rw [endless]
    exact high

theorem compare_ne_gt_of_overZero (both : v.isZeroOverZero = true) (w : Ratio) :
    compare v w ≠ .gt := by
  cases degenerate : w.isDegenerate <;> simp [Endpoint.compare, order, both, degenerate]

/-- Ratios that the intervals of tests end with: written ones, of which those on a level with zero
compare as zero does, and the ends of the domain and its middle. -/
structure Ends (P : Ratio → Prop) : Prop where
  written : ∀ {x}, P x → x.IsWritten
  least : P zero
  middle : P ⟨1, 1⟩
  greatest : P infinity
  level : ∀ {x y}, P x → P y → x.isZeroOverZero = false → compare x zero = .eq →
    compare x y = compare zero y

theorem Grounded.ends (grounded : Grounded rs) (written : ∀ r ∈ rs, r.IsWritten) :
    Ends fun r => r ∈ rs ∨ r ∈ [zero, ⟨1, 1⟩, infinity] where
  written := by
    rintro x (listed | extreme)
    · exact written x listed
    · simp only [List.mem_cons, List.not_mem_nil, or_false] at extreme
      rcases extreme with rfl | rfl | rfl <;> exact ⟨by decide, by decide⟩
  least := by simp
  middle := by simp
  greatest := by simp
  level := by
    rintro x y (listed | extreme) hy single low
    · have top := grounded x listed single low infinity List.mem_cons_self
      rcases hy with hy | hy
      · exact grounded x listed single low y (List.mem_cons_of_mem _ hy)
      · simp only [List.mem_cons, List.not_mem_nil, or_false] at hy
        rcases hy with rfl | rfl | rfl
        · exact low
        · exact (written x listed).order_one single low top
        · exact top
    · simp only [List.mem_cons, List.not_mem_nil, or_false] at extreme
      rcases extreme with rfl | rfl | rfl
      · rfl
      · exact absurd low (by decide +kernel)
      · exact absurd low (by decide +kernel)

section Ends

variable {P : Ratio → Prop} {x y : Ratio}

theorem Ends.zero_ne_gt (ends : Ends P) (hy : P y) : compare zero y ≠ .gt := by
  have above := (ends.written hy).isInside.above
  rw [← compare_swap y zero]
  cases verdict : compare y zero <;> simp_all [Ordering.swap]

/-- Nothing is below a ratio on a level with zero. -/
theorem Ends.ne_gt (ends : Ends P) (hx : P x) (hy : P y) (low : compare x zero = .eq) :
    compare x y ≠ .gt := by
  by_cases both : x.isZeroOverZero = true
  · exact compare_ne_gt_of_overZero both y
  · rw [ends.level hx hy (by simpa using both) low]
    exact ends.zero_ne_gt hy

theorem Ends.lt_infinity (ends : Ends P) (hx : P x) (low : compare x zero = .eq) :
    compare x infinity = .lt := by
  by_cases both : x.isZeroOverZero = true
  · simp [Endpoint.compare, order, both, (by decide : (infinity : Ratio).isDegenerate = false)]
  · rw [ends.level hx ends.greatest (by simpa using both) low]
    decide +kernel

end Ends

end Ratio

namespace Interval

variable {P : Ratio → Prop} {a b c : Interval Ratio} {r : Ratio}

/-- The ends of an interval are such ratios, but for the least one at the lower end. -/
structure Loose (P : Ratio → Prop) (a : Interval Ratio) : Prop where
  min : a.min = negInfinity ∨ P a.min
  max : P a.max

/-- An interval that reaches from one end of the domain to the other. -/
structure Wide (a : Interval Ratio) : Prop where
  minInclusive : a.minInclusive = true
  min : a.min = negInfinity ∨ compare a.min zero = .eq
  max : compare a.max infinity = .eq
  maxInclusive : a.maxInclusive = true

/-- An interval that ends where the domain begins. -/
structure Low (a : Interval Ratio) : Prop where
  single : a.max.isZeroOverZero = false
  max : compare a.max zero = .eq
  maxExclusive : a.maxInclusive = false

theorem wide_ratioDomain : ratioDomain.Wide :=
  ⟨rfl, .inr (Ratio.compare_self _), Ratio.compare_self _, rfl⟩

theorem wide_unbounded : (unbounded : Interval Ratio).Wide :=
  ⟨rfl, .inl rfl, Ratio.compare_self _, rfl⟩

theorem Loose.overlap (left : a.Loose P) (right : b.Loose P) : (overlap a b).Loose P := by
  constructor
  · simp only [Interval.overlap, lowerEnd]
    split
    · exact left.min
    · exact right.min
    · exact left.min
  · simp only [Interval.overlap, upperEnd]
    split
    · exact left.max
    · exact right.max
    · exact left.max

theorem Loose.inter? (left : a.Loose P) (right : b.Loose P) (common : inter? a b = some c) :
    c.Loose P := by
  rw [(inter?_eq_some common).1]
  exact left.overlap right

theorem Wide.overlap (left : a.Wide) (right : b.Wide) : (overlap a b).Wide := by
  constructor
  · simp only [Interval.overlap, lowerEnd]
    split <;> simp [left.minInclusive, right.minInclusive]
  · simp only [Interval.overlap, lowerEnd]
    split
    · exact left.min
    · exact right.min
    · exact left.min
  · simp only [Interval.overlap, upperEnd]
    split
    · exact left.max
    · exact right.max
    · exact left.max
  · simp only [Interval.overlap, upperEnd]
    split <;> simp [left.maxInclusive, right.maxInclusive]

section Ends

variable (ends : Ratio.Ends P)

include ends

theorem loose_ratioDomain : ratioDomain.Loose P := ⟨.inr ends.least, ends.greatest⟩

theorem loose_unbounded : (unbounded : Interval Ratio).Loose P := ⟨.inl rfl, ends.greatest⟩

theorem Wide.isEmpty (wide : a.Wide) (loose : a.Loose P) : a.isEmpty = false := by
  have below : compare a.min a.max ≠ .gt := by
    rcases wide.min with least | level
    · have lower := (ends.written loose.max).order_negInfinity
        (Ratio.isZeroOverZero_eq_false_of_top wide.max)
      rw [least]
      exact fun above => Ordering.noConfusion (lower.symm.trans above)
    · rcases loose.min with least | inside
      · rw [least] at level
        exact absurd level (by decide +kernel)
      · exact ends.ne_gt inside loose.max level
  rw [Interval.isEmpty, wide.minInclusive, wide.maxInclusive]
  cases verdict : compare a.min a.max with
  | gt => exact absurd verdict below
  | lt | eq => rfl

theorem Wide.inter? (first : a.Wide) (left : a.Loose P) (second : b.Wide) (right : b.Loose P) :
    ∃ c, Interval.inter? a b = some c ∧ c.Wide := by
  have wide := first.overlap second
  refine ⟨_, ?_, wide⟩
  rw [Interval.inter?, wide.isEmpty ends (left.overlap right), if_neg (by decide)]

/-- Below the domain, an intersection ends where it begins, too. -/
theorem Low.overlap_left (low : a.Low) (left : a.Loose P) (right : b.Loose P) :
    (overlap a b).Low := by
  have above := ends.ne_gt left.max right.max low.max
  constructor <;> simp only [Interval.overlap, upperEnd]
  · cases verdict : compare a.max b.max with
    | gt => exact absurd verdict above
    | lt | eq => exact low.single
  · cases verdict : compare a.max b.max with
    | gt => exact absurd verdict above
    | lt | eq => exact low.max
  · cases verdict : compare a.max b.max with
    | gt => exact absurd verdict above
    | lt => exact low.maxExclusive
    | eq => simp [low.maxExclusive]

omit ends in
theorem isEmpty_of_overZero (both : a.max.isZeroOverZero = true)
    (exclusive : a.maxInclusive = false) : a.isEmpty = true := by
  have above := Ratio.compare_ne_gt_of_overZero both a.min
  rw [← Ratio.compare_swap] at above
  rw [Interval.isEmpty, exclusive, Bool.and_false]
  cases verdict : compare a.min a.max with
  | lt => simp [verdict, Ordering.swap] at above
  | gt | eq => rfl

theorem Low.overlap_right (low : b.Low) (left : a.Loose P) (right : b.Loose P)
    (occupied : (overlap a b).isEmpty = false) : (overlap a b).Low := by
  have above := ends.ne_gt right.max left.max low.max
  rw [← Ratio.compare_swap] at above
  have exclusive : (overlap a b).maxInclusive = false := by
    simp only [Interval.overlap, upperEnd]
    cases verdict : compare a.max b.max with
    | gt => exact low.maxExclusive
    | lt => simp [verdict, Ordering.swap] at above
    | eq => simp [low.maxExclusive]
  refine ⟨?_, ?_, exclusive⟩
  · rw [← Bool.not_eq_true]
    intro both
    rw [isEmpty_of_overZero both exclusive] at occupied
    cases occupied
  · simp only [Interval.overlap, upperEnd]
    cases verdict : compare a.max b.max with
    | gt => exact low.max
    | lt => simp [verdict, Ordering.swap] at above
    | eq =>
      rw [← Ratio.compare_swap, ← ends.level right.max left.max low.single low.max,
        ← Ratio.compare_swap, verdict]
      rfl

theorem Low.of_inter? (low : a.Low ∨ b.Low) (left : a.Loose P) (right : b.Loose P)
    (common : Interval.inter? a b = some c) : c.Low := by
  obtain ⟨rfl, occupied⟩ := inter?_eq_some common
  rcases low with low | low
  · exact low.overlap_left ends left right
  · exact low.overlap_right ends left right occupied

omit ends in
/-- There is nothing of the domain below an interval that begins with it. -/
private theorem inter?_lowerGap (below : compare a.min infinity = .lt)
    (empty : compare zero a.min = .gt ∨ compare zero a.min = .eq ∧ a.minInclusive = true) :
    Interval.inter? (lowerGap a ratioDomain) ratioDomain = none := by
  have common : Interval.overlap (lowerGap a ratioDomain) ratioDomain =
      ⟨true, zero, a.min, !a.minInclusive⟩ := by
    have self : compare (zero : Ratio) zero = .eq := Ratio.compare_self _
    simp [Interval.overlap, lowerEnd, upperEnd, lowerGap, ratioDomain, nonNegative, below, self]
  rw [Interval.inter?, common]
  rcases empty with above | ⟨level, inclusive⟩
  · simp [isEmpty, above]
  · simp [isEmpty, level, inclusive]

omit ends in
private theorem inter?_lowerGap_of_least (least : a.min = negInfinity) :
    Interval.inter? (lowerGap a ratioDomain) ratioDomain = none :=
  inter?_lowerGap (by rw [least]; decide +kernel) (.inl (by rw [least]; decide +kernel))

private theorem overlap_upperGap (loose : a.Loose P) :
    Interval.overlap (upperGap a ratioDomain) ratioDomain =
      ⟨!a.maxInclusive, a.max, infinity, true⟩ := by
  have self : compare (infinity : Ratio) infinity = .eq := Ratio.compare_self _
  have above := (ends.written loose.max).isInside.above
  simp only [Interval.overlap, lowerEnd, upperEnd, upperGap, ratioDomain, nonNegative, self]
  cases verdict : compare a.max zero <;> simp_all

theorem Loose.complement (loose : a.Loose P) (mem : c ∈ complement a ratioDomain) :
    c.Loose P := by
  rcases mem_complement.1 mem with common | common
  · rcases loose.min with least | inside
    · rw [inter?_lowerGap_of_least least] at common
      cases common
    · have gap : (lowerGap a ratioDomain).Loose P := ⟨.inr ends.least, inside⟩
      exact gap.inter? (loose_ratioDomain ends) common
  · have gap : (upperGap a ratioDomain).Loose P := ⟨.inr loose.max, ends.greatest⟩
    exact gap.inter? (loose_ratioDomain ends) common

/-- Nothing of the domain is outside of an interval that reaches over all of it. -/
theorem Wide.complement (wide : a.Wide) (loose : a.Loose P) : complement a ratioDomain = [] := by
  have lower : Interval.inter? (lowerGap a ratioDomain) ratioDomain = none := by
    rcases loose.min with least | inside
    · exact inter?_lowerGap_of_least least
    · rcases wide.min with least | level
      · exact inter?_lowerGap_of_least least
      · refine inter?_lowerGap ?_ (.inr ⟨?_, wide.minInclusive⟩)
        · exact ends.lt_infinity inside level
        · rw [← Ratio.compare_swap, level]
          rfl
  have upper : Interval.inter? (upperGap a ratioDomain) ratioDomain = none := by
    rw [Interval.inter?, overlap_upperGap ends loose]
    simp [Interval.isEmpty, wide.max, wide.maxInclusive]
  simp [complement_eq, lower, upper]

/-- All of the domain is above an interval that ends where it begins. -/
theorem Low.exists_complement (low : a.Low) (loose : a.Loose P) :
    ∃ c ∈ complement a ratioDomain, c.Wide := by
  have below := ends.lt_infinity loose.max low.max
  refine ⟨⟨true, a.max, infinity, true⟩, mem_complement.2 (.inr ?_),
    rfl, .inr low.max, Ratio.compare_self _, rfl⟩
  rw [Interval.inter?, overlap_upperGap ends loose, low.maxExclusive]
  simp [Interval.isEmpty, below]

/-- In the domain, an interval begins with a ratio from zero on. -/
private theorem min_overlap_ratioDomain (loose : a.Loose P) :
    P (Interval.overlap a ratioDomain).min := by
  simp only [Interval.overlap, lowerEnd]
  rcases loose.min with least | inside
  · have below : compare a.min ratioDomain.min = .lt := by rw [least]; decide +kernel
    rw [below]
    exact ends.least
  · split
    · exact inside
    · exact ends.least
    · exact inside

/-- An interval that reaches over the domain asks for nothing. -/
theorem Wide.bound (wide : a.Wide) (loose : a.Loose P) : a.bound ratioDomain = .whole := by
  obtain ⟨c, common, both⟩ := wide.inter? ends loose wide_ratioDomain (loose_ratioDomain ends)
  have inside := min_overlap_ratioDomain ends loose
  rw [← (inter?_eq_some common).1] at inside
  have minLevel : compare c.min ratioDomain.min = .eq := by
    refine both.min.resolve_left fun least => ?_
    rw [least] at inside
    exact absurd (ends.written inside).numerator (by decide)
  have maxLevel : compare c.max ratioDomain.max = .eq := both.max
  have same : c.sameAs ratioDomain = true := by
    simp only [sameAs, minLevel, maxLevel, both.minInclusive, both.maxInclusive]
    rfl
  simp [Interval.bound, common, same]

private theorem Low.isEmpty (low : a.Low) (lower : P a.min) (upper : P a.max) :
    a.isEmpty = true := by
  have above := ends.ne_gt upper lower low.max
  rw [← Ratio.compare_swap] at above
  rw [Interval.isEmpty, low.maxExclusive, Bool.and_false]
  cases verdict : compare a.min a.max with
  | lt => simp [verdict, Ordering.swap] at above
  | gt | eq => rfl

/-- An interval below the domain asks for the impossible. -/
theorem Low.bound (low : a.Low) (loose : a.Loose P) : a.bound ratioDomain = .nothing := by
  have inside := loose_ratioDomain ends
  have empty := (low.overlap_left ends loose inside).isEmpty ends
    (min_overlap_ratioDomain ends loose) (loose.overlap inside).max
  simp [Interval.bound, Interval.inter?, empty]

omit ends in
/-- Nothing is left of an interval that is open above, below zero over zero. -/
theorem inter?_below_overZero (greatest : a.max = infinity) (both : r.isZeroOverZero = true) :
    Interval.inter? a (.atMost r false) = none := by
  have above : compare a.max r = .gt := by
    rw [greatest]
    simp [Endpoint.compare, Ratio.order, both,
      (by decide : (infinity : Ratio).isDegenerate = false),
      (by decide : (infinity : Ratio).isZeroOverZero = false)]
  have upper : upperEnd a (.atMost r false) = (r, false) := by
    simp only [upperEnd, atMost] at above ⊢
    rw [above]
  rw [Interval.inter?, isEmpty_of_overZero, if_pos rfl]
  · rw [Interval.overlap, upper]
    exact both
  · rw [Interval.overlap, upper]

/-- Nothing is left of an interval that is open below, above a ratio on a level with infinity. -/
theorem inter?_above (least : a.min = negInfinity) (loose : a.Loose P) (hr : P r)
    (top : compare r infinity = .eq) : Interval.inter? a (.atLeast r false) = none := by
  have written := ends.written hr
  have lower : compare a.min r = .lt := by
    rw [least]
    exact written.order_negInfinity (Ratio.isZeroOverZero_eq_false_of_top top)
  have upper : P (upperEnd a (.atLeast r false)).1 := by
    simp only [upperEnd]
    split
    · exact loose.max
    · exact ends.greatest
    · exact loose.max
  have below := (ends.written upper).order_ne_gt written top
  have empty : (Interval.overlap a (.atLeast r false)).isEmpty = true := by
    simp only [Interval.isEmpty, Interval.overlap, lowerEnd, atLeast, lower] at below ⊢
    rw [← Ratio.compare_swap]
    cases verdict : compare (upperEnd a ⟨false, r, infinity, true⟩).1 r with
    | gt => exact absurd verdict below
    | lt => rfl
    | eq => rfl
  rw [Interval.inter?, if_pos empty]

end Ends

end Interval

end MediaQuery
