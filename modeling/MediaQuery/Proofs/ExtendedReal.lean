import Mathlib
import MediaQuery.Proofs.Order

set_option autoImplicit false

namespace MediaQuery

namespace Number

/-- The real number that a finite magnitude stands for. -/
noncomputable def Scaled.value (s : Scaled) : ℝ := s.significand * 2 ^ s.exponent

noncomputable def distance (x : Float) : EReal :=
  if isFinite x then ((scaled x).value : ℝ) else ⊤

/-- The number that a double stands for, which may be infinite. -/
noncomputable def toEReal (x : Float) : EReal := if signBit x then -distance x else distance x

section Order

variable {x y : Float}

private theorem mul_two_pow_lt {m n : ℕ} {i j : ℤ}
    (less : i = j ∧ m < n ∨ i < j ∧ m < 2 ^ 53 ∧ 2 ^ 52 ≤ n) :
    (m * 2 ^ i : ℝ) < n * 2 ^ j := by
  rcases less with ⟨rfl, less⟩ | ⟨less, upper, lower⟩
  · have less : (m : ℝ) < n := by exact_mod_cast less
    gcongr
  · have upper : (m : ℝ) < 2 ^ 53 := by exact_mod_cast upper
    have lower : (2 : ℝ) ^ 52 ≤ n := by exact_mod_cast lower
    have step : (2 : ℝ) ^ (i + 1) ≤ 2 ^ j := zpow_le_zpow_right₀ (by norm_num) (by omega)
    calc (m * 2 ^ i : ℝ) < 2 ^ 53 * 2 ^ i := by gcongr
      _ = 2 ^ 52 * 2 ^ (i + 1) := by rw [zpow_add_one₀ (by norm_num)]; ring
      _ ≤ n * 2 ^ j := by gcongr

theorem value_scaled_lt (less : magnitude x < magnitude y) :
    (scaled x).value < (scaled y).value := by
  simp only [scaled, Scaled.value]
  split <;> split <;> refine mul_two_pow_lt ?_ <;> dsimp only <;> omega

theorem value_scaled_of_isZero (zero : isZero x = true) : (scaled x).value = 0 := by
  rw [isZero, beq_iff_eq] at zero
  simp [scaled, Scaled.value, zero]

theorem distance_of_isZero (zero : isZero x = true) : distance x = 0 := by
  have finite : isFinite x = true := by
    rw [isZero, beq_iff_eq] at zero
    rw [isFinite, zero]
    decide
  rw [distance, if_pos finite, value_scaled_of_isZero zero, EReal.coe_zero]

theorem distance_lt (number : isNaN y = false) (less : magnitude x < magnitude y) :
    distance x < distance y := by
  simp only [isNaN, decide_eq_false_iff_not, not_lt] at number
  have finite : isFinite x = true := by
    rw [isFinite, decide_eq_true_iff]
    omega
  rw [distance, distance, if_pos finite]
  split
  · exact EReal.coe_lt_coe_iff.2 (value_scaled_lt less)
  · exact EReal.coe_lt_top _

theorem distance_pos (number : isNaN x = false) (nonzero : magnitude x ≠ 0) : 0 < distance x := by
  have zero : isZero 0 = true := by decide
  rw [← distance_of_isZero zero]
  refine distance_lt number ?_
  rw [isZero, beq_iff_eq] at zero
  omega

theorem distance_nonneg (number : isNaN x = false) : 0 ≤ distance x := by
  by_cases zero : magnitude x = 0
  · exact (distance_of_isZero (by rw [isZero, zero]; rfl)).ge
  · exact (distance_pos number zero).le

private theorem toEReal_lt_of_rank (hx : isNaN x = false) (hy : isNaN y = false)
    (less : rank x < rank y) : toEReal x < toEReal y := by
  rw [toEReal, toEReal]
  rw [rank, rank] at less
  cases sx : signBit x <;> cases sy : signBit y <;>
    simp only [sx, sy, if_true, if_false, Bool.false_eq_true] at less ⊢
  · exact distance_lt hy (by omega)
  · omega
  · by_cases zero : magnitude x = 0
    · have positive := distance_pos hy (by omega)
      rwa [distance_of_isZero (by rw [isZero, zero]; rfl), neg_zero]
    · have negative : -distance x < 0 := by simpa using distance_pos hx zero
      exact negative.trans_le (distance_nonneg hy)
  · exact EReal.neg_lt_neg_iff.2 (distance_lt hx (by omega))

private theorem toEReal_of_level (level : rank x = rank y) : toEReal x = toEReal y := by
  have same (equal : magnitude x = magnitude y) : distance x = distance y := by
    have finite : isFinite x = isFinite y := by rw [isFinite, isFinite, equal]
    have parts : scaled x = scaled y := by rw [scaled, scaled, equal]
    rw [distance, distance, finite, parts]
  rw [toEReal, toEReal]
  rw [rank, rank] at level
  cases sx : signBit x <;> cases sy : signBit y <;>
    simp only [sx, sy, if_true, if_false, Bool.false_eq_true] at level ⊢
  · exact same (by omega)
  · have none : isZero x = true ∧ isZero y = true := by
      rw [isZero, isZero, beq_iff_eq, beq_iff_eq]
      omega
    rw [distance_of_isZero none.1, distance_of_isZero none.2, neg_zero]
  · have none : isZero x = true ∧ isZero y = true := by
      rw [isZero, isZero, beq_iff_eq, beq_iff_eq]
      omega
    rw [distance_of_isZero none.1, distance_of_isZero none.2, neg_zero]
  · rw [same (by omega)]

/-- The order of ranks is the order of the numbers that doubles stand for. -/
theorem toEReal_lt_iff (hx : isNaN x = false) (hy : isNaN y = false) :
    toEReal x < toEReal y ↔ rank x < rank y := by
  refine ⟨fun less => ?_, toEReal_lt_of_rank hx hy⟩
  by_contra atLeast
  rcases (not_lt.1 atLeast).lt_or_eq with greater | level
  · exact less.asymm (toEReal_lt_of_rank hy hx greater)
  · exact less.ne (toEReal_of_level level.symm)

theorem toEReal_inj_iff (hx : isNaN x = false) (hy : isNaN y = false) :
    toEReal x = toEReal y ↔ rank x = rank y := by
  refine ⟨fun same => ?_, toEReal_of_level⟩
  have notLess := (toEReal_lt_iff hx hy).not.1 same.not_lt
  have notGreater := (toEReal_lt_iff hy hx).not.1 same.not_gt
  omega

theorem toEReal_zero : toEReal 0 = 0 := by
  have positive : signBit 0 = false := by decide
  rw [toEReal, positive, if_neg (by decide), distance_of_isZero (by decide)]

theorem toEReal_infinity : toEReal infinity = ⊤ := by
  have positive : signBit infinity = false := by decide
  have infinite : isFinite infinity = false := by decide
  rw [toEReal, positive, if_neg (by decide), distance, infinite, if_neg (by decide)]

theorem isNegative_iff_toEReal (number : isNaN x = false) :
    isNegative x = true ↔ toEReal x < 0 := by
  rw [← toEReal_zero, toEReal_lt_iff number isNaN_zero, rank_zero, isNegative, number]
  simp

theorem isZero_iff_toEReal (number : isNaN x = false) : isZero x = true ↔ toEReal x = 0 := by
  rw [← toEReal_zero, toEReal_inj_iff number isNaN_zero, rank_zero, isZero_iff_rank]

theorem isInfinite_iff_toEReal (number : isNaN x = false) :
    same x infinity = true ↔ toEReal x = ⊤ := by
  rw [← toEReal_infinity, toEReal_inj_iff number isNaN_infinity, same, number, isNaN_infinity]
  simp

end Order

end Number

end MediaQuery
