import MediaQuery.Proofs.Device
import MediaQuery.Proofs.Nearest
import MediaQuery.Proofs.ReadBack
import MediaQuery.Proofs.WrittenRatio

set_option autoImplicit false

/- How far the comparison of ratios is an order. Rounding a cross product is monotone, so a strict
verdict is right; two different cross products may be rounded to one double, so a tie may be wrong,
and a chain of ratios that goes through such a tie may lead back down. Where ties are exact, as they
are for whole numbers of ordinary size, the comparison is a total preorder. -/
namespace MediaQuery

open Number

namespace Number

open Float.Model Float.Model.UnpackedFloat

theorem rank_of_isNonNegative {x : Float} (above : isNonNegative x = true) :
    rank x = magnitude x := by
  rw [isNonNegative, Bool.and_eq_true, decide_eq_true_iff] at above
  have level := above.2
  by_cases sign : signBit x = true
  · rw [rank, if_pos sign] at level ⊢
    omega
  · rw [rank, if_neg sign]

theorem amount_of_unpacked {x : Float} {s : Sign} {m : ℕ} {e : ℤ} {positive : 0 < m}
    (split : unpacked x = .finite s m e positive) :
    isFinite x = true ∧ amount x = m * 2 ^ e := by
  have kind := unpacks x
  rw [split] at kind
  cases kind with
  | finite _ _ _ _ canonical above below =>
    have finite : isFinite x = true := by simpa [isFinite] using below
    have nonzero : isZero x = false := by simpa [isZero] using above.ne'
    obtain ⟨_, _, own⟩ := unpacked_eq_finite finite nonzero
    rw [split] at own
    injection own with _ significand exponent
    exact ⟨finite, by rw [amount, significand, exponent]⟩

/-- A whole number of up to 53 digits is the magnitude of a double. -/
theorem exists_amount_eq {n : ℕ} (bound : n < 2 ^ 53) :
    ∃ x, Number.isFinite x = true ∧ amount x = n := by
  rcases Nat.eq_zero_or_pos n with rfl | positive
  · exact ⟨0, by decide, by simpa using amount_eq_zero_iff.2 (by decide : isZero 0 = true)⟩
  · obtain ⟨m, e, above, split, _, value⟩ := Decimal.unpacked_natural positive bound
    obtain ⟨finite, amount⟩ := amount_of_unpacked split
    exact ⟨_, finite, amount.trans value⟩

end Number

namespace Ratio

variable {a b c : Ratio}

/-- A ratio of finite numbers from zero on that are not both zero. -/
structure IsProportion (r : Ratio) : Prop where
  numerator : Device.IsLength r.numerator
  denominator : Device.IsLength r.denominator
  single : r.isZeroOverZero = false

instance (r : Ratio) : Decidable r.IsProportion :=
  decidable_of_iff ((Number.isFinite r.numerator = true ∧ Number.isNonNegative r.numerator = true) ∧
      (Number.isFinite r.denominator = true ∧ Number.isNonNegative r.denominator = true) ∧
      r.isZeroOverZero = false)
    ⟨fun ⟨n, d, single⟩ => ⟨⟨n.1, n.2⟩, ⟨d.1, d.2⟩, single⟩,
      fun h => ⟨⟨h.1.1, h.1.2⟩, ⟨h.2.1, h.2.2⟩, h.3⟩⟩

/-- The numerator of one ratio times the denominator of another, without rounding. -/
def exactCross (a b : Ratio) : ℚ := amount a.numerator * amount b.denominator

/-- If two ratios are on one level, so are their exact cross products. -/
def ExactTie (a b : Ratio) : Prop := order a b = .eq → exactCross a b = exactCross b a

instance (a b : Ratio) : Decidable (a.ExactTie b) :=
  inferInstanceAs (Decidable (order a b = .eq → exactCross a b = exactCross b a))

namespace IsProportion

/-- The comparison is that of the rounded cross products. -/
theorem order_eq_compare (ha : a.IsProportion) (hb : b.IsProportion) :
    order a b = compare (magnitude (a.numerator * b.denominator) : ℤ)
      (magnitude (b.numerator * a.denominator)) := by
  have left := not_isNaN_mul ha.numerator.finite hb.denominator.finite
  have right := not_isNaN_mul hb.numerator.finite ha.denominator.finite
  have above := isNonNegative_mul ha.numerator.nonNegative hb.denominator.nonNegative left
  have above' := isNonNegative_mul hb.numerator.nonNegative ha.denominator.nonNegative right
  rw [order_eq_crossOrder ha.single hb.single, crossOrder]
  simp only [left, right, Bool.or_self, Bool.false_eq_true, if_false]
  rw [order_eq_compare_rank left right, rank_of_isNonNegative above, rank_of_isNonNegative above']

theorem nearest_cross (ha : a.IsProportion) (hb : b.IsProportion) :
    Nearest (exactCross a b) (magnitude (a.numerator * b.denominator)) :=
  nearest_mul ha.numerator.finite hb.denominator.finite

/-- A ratio is not above another one if its exact cross product is not. -/
theorem order_ne_gt (ha : a.IsProportion) (hb : b.IsProportion)
    (le : exactCross a b ≤ exactCross b a) : order a b ≠ .gt := by
  rw [ha.order_eq_compare hb, compare_le_iff_le, Int.ofNat_le]
  exact (ha.nearest_cross hb).mono le (hb.nearest_cross ha)

/-- A strict verdict is right. -/
theorem exactCross_lt (ha : a.IsProportion) (hb : b.IsProportion) (less : order a b = .lt) :
    exactCross a b < exactCross b a := by
  by_contra atLeast
  have back := hb.order_ne_gt ha (not_lt.1 atLeast)
  rw [← order_swap, less] at back
  exact back rfl

/-- Of a ratio that is not zero over zero, one part is not zero. -/
theorem numerator_pos_of_flat (hb : b.IsProportion) (flat : amount b.denominator = 0) :
    0 < amount b.numerator := by
  have single := hb.single
  rw [isZeroOverZero, amount_eq_zero_iff.1 flat, Bool.and_true] at single
  exact amount_pos single

/-- The exact comparison by cross products is transitive, also over denominators of zero. -/
theorem exactCross_trans (hb : b.IsProportion) (first : exactCross a b ≤ exactCross b a)
    (second : exactCross b c ≤ exactCross c b) : exactCross a c ≤ exactCross c a := by
  simp only [exactCross] at *
  have an := amount_nonneg a.numerator
  have ad := amount_nonneg a.denominator
  have cn := amount_nonneg c.numerator
  have cd := amount_nonneg c.denominator
  rcases (amount_nonneg b.denominator).lt_or_eq with wide | flat
  · have chain : amount a.numerator * amount c.denominator * amount b.denominator ≤
        amount c.numerator * amount a.denominator * amount b.denominator := by
      calc amount a.numerator * amount c.denominator * amount b.denominator
          = amount a.numerator * amount b.denominator * amount c.denominator := by ring
        _ ≤ amount b.numerator * amount a.denominator * amount c.denominator := by gcongr
        _ = amount b.numerator * amount c.denominator * amount a.denominator := by ring
        _ ≤ amount c.numerator * amount b.denominator * amount a.denominator := by gcongr
        _ = amount c.numerator * amount a.denominator * amount b.denominator := by ring
    exact le_of_mul_le_mul_right chain wide
  · -- Nothing is above a number over zero but another one.
    have positive := hb.numerator_pos_of_flat flat.symm
    rw [← flat, mul_zero] at second
    have product := le_antisymm second (mul_nonneg positive.le cd)
    have none : amount c.denominator = 0 := (mul_eq_zero.1 product).resolve_left positive.ne'
    rw [none, mul_zero]
    exact mul_nonneg cn ad

theorem exactCross_le (ha : a.IsProportion) (hb : b.IsProportion) (tie : a.ExactTie b)
    (le : order a b ≠ .gt) : exactCross a b ≤ exactCross b a := by
  cases verdict : order a b with
  | lt => exact (ha.exactCross_lt hb verdict).le
  | eq => exact (tie verdict).le
  | gt => exact absurd verdict le

theorem order_trans (ha : a.IsProportion) (hb : b.IsProportion) (hc : c.IsProportion)
    (tie : a.ExactTie b) (tie' : b.ExactTie c) (first : order a b ≠ .gt)
    (second : order b c ≠ .gt) : order a c ≠ .gt := by
  have exact :=
    hb.exactCross_trans (ha.exactCross_le hb tie first) (hb.exactCross_le hc tie' second)
  exact ha.order_ne_gt hc exact

/-- Cross products that are doubles are not rounded, so that their tie is exact. -/
theorem exactTie_of_amounts {x y : Float} (ha : a.IsProportion) (hb : b.IsProportion)
    (hx : isFinite x = true) (hy : isFinite y = true) (left : exactCross a b = amount x)
    (right : exactCross b a = amount y) : a.ExactTie b := by
  intro tie
  rw [ha.order_eq_compare hb, Int.compare_eq_eq, Int.ofNat_inj] at tie
  have low := ha.nearest_cross hb
  have high := hb.nearest_cross ha
  rw [left] at low
  rw [right] at high
  have level : magnitude x = magnitude y :=
    ((nearest_self hx).eq low).trans (tie.trans (high.eq (nearest_self hy)))
  rw [left, right, amount, amount, scaled, scaled, level]

end IsProportion

/-- The order of ratios of finite numbers from zero on, none of them zero over zero. Exchanging the
operands exchanges the verdict, a strict verdict is that of the exact cross products, and the order
is transitive over ties that are exact. -/
theorem order_laws (ha : a.IsProportion) (hb : b.IsProportion) (hc : c.IsProportion) :
    (order a b).swap = order b a ∧
      (order a b = .lt → exactCross a b < exactCross b a) ∧
      (a.ExactTie b → b.ExactTie c → order a b ≠ .gt → order b c ≠ .gt → order a c ≠ .gt) :=
  ⟨order_swap a b, ha.exactCross_lt hb, ha.order_trans hb hc⟩

/-- The order is a total preorder of ratios that have no ties by rounding. -/
theorem totalOn_of_exactTie {P : Ratio → Prop} (proportions : ∀ r, P r → r.IsProportion)
    (ties : ∀ r s, P r → P s → r.ExactTie s) : Endpoint.TotalOn P where
  swap _ _ := order_swap _ _
  trans hx hy hz := (proportions _ hx).order_trans (proportions _ hy) (proportions _ hz)
    (ties _ _ hx hy) (ties _ _ hy hz)

def IsWholeBelow (bound : ℕ) (r : Ratio) : Prop :=
  ∃ n < bound, ∃ d < bound, amount r.numerator = n ∧ amount r.denominator = d

/-- Ratios of whole numbers of up to 26 digits are totally ordered. -/
theorem totalOn_wholeBelow :
    Endpoint.TotalOn fun r : Ratio => r.IsProportion ∧ r.IsWholeBelow (2 ^ 26) := by
  refine totalOn_of_exactTie (fun _ hr => hr.1) fun r s hr hs => ?_
  have product {r s : Ratio} (hr : r.IsWholeBelow (2 ^ 26)) (hs : s.IsWholeBelow (2 ^ 26)) :
      ∃ x, isFinite x = true ∧ exactCross r s = amount x := by
    obtain ⟨n, below, _, _, numerator, _⟩ := hr
    obtain ⟨_, _, d, below', _, denominator⟩ := hs
    have bound : n * d < 2 ^ 53 :=
      (Nat.mul_lt_mul'' below below').trans (by decide)
    obtain ⟨x, finite, value⟩ := Number.exists_amount_eq bound
    exact ⟨x, finite, by rw [value, exactCross, numerator, denominator, Nat.cast_mul]⟩
  obtain ⟨x, finite, left⟩ := product hr.2 hs.2
  obtain ⟨y, finite', right⟩ := product hs.2 hr.2
  exact hr.1.exactTie_of_amounts hs.1 finite finite' left right

/-- 4/3 is not above 16/9, which is on a level with 1920/1080, so 4/3 is not above 1920/1080. -/
theorem order_laws_screens : order ⟨4, 3⟩ ⟨16, 9⟩ = .lt ∧ order ⟨16, 9⟩ ⟨1920, 1080⟩ = .eq ∧
    order ⟨4, 3⟩ ⟨1920, 1080⟩ ≠ .gt :=
  ⟨by decide +kernel, by decide +kernel,
    (order_laws (b := ⟨16, 9⟩) (by decide +kernel) (by decide +kernel) (by decide +kernel)).2.2
      (by decide +kernel) (by decide +kernel) (by decide +kernel) (by decide +kernel)⟩

/-- Rounding ties the ratio 0.9/2.7 with 0.1/0.3 and with 1/3, of which the former is above the
latter. -/
theorem exists_order_not_transitive : ∃ a b c : Ratio, a.IsProportion ∧ b.IsProportion ∧
    c.IsProportion ∧ order a b ≠ .gt ∧ order b c ≠ .gt ∧ order a c = .gt :=
  ⟨⟨0.1, 0.3⟩, ⟨0.9, 2.7⟩, ⟨1, 3⟩, by decide +kernel, by decide +kernel, by decide +kernel,
    by decide +kernel, by decide +kernel, by decide +kernel⟩

end Ratio

end MediaQuery
