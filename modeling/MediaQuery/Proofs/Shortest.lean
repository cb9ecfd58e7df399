import MediaQuery.Decimal.Shortest
import MediaQuery.Proofs.Rounding

set_option autoImplicit false

namespace MediaQuery.Decimal

open Number

/-- The number that a decimal stands for exactly. -/
def value (d : Decimal) : ℚ := d.digits * 10 ^ d.exponent

section Compare

variable {a n : ℕ} {i j : ℤ}

private theorem natPow_toNat {b : ℕ} (positive : 0 < b) (i : ℤ) :
    ((Nat.pow b i.toNat : ℕ) : ℚ) = b ^ i * Nat.pow b (-i).toNat := by
  have nonzero : (b : ℚ) ≠ 0 := by positivity
  push_cast [Nat.pow_eq]
  rw [← zpow_natCast, ← zpow_natCast, ← zpow_add₀ nonzero]
  congr 1
  omega

/-- The two sides of the exact comparison are the numbers in a common unit. -/
theorem exists_unit (a : ℕ) (i : ℤ) (n : ℕ) (j : ℤ) : ∃ c : ℚ, 0 < c ∧
    ((a * Nat.pow 10 i.toNat * Nat.pow 2 (-j).toNat : ℕ) : ℚ) = a * 10 ^ i * c ∧
    ((n * Nat.pow 2 j.toNat * Nat.pow 10 (-i).toNat : ℕ) : ℚ) = n * 2 ^ j * c := by
  have ten := natPow_toNat (b := 10) (by decide) i
  have two := natPow_toNat (b := 2) (by decide) j
  refine ⟨Nat.pow 10 (-i).toNat * Nat.pow 2 (-j).toNat, ?_, ?_, ?_⟩
  · have left : 0 < Nat.pow 10 (-i).toNat := Nat.pow_pos (by decide)
    have right : 0 < Nat.pow 2 (-j).toNat := Nat.pow_pos (by decide)
    positivity
  · rw [Nat.cast_mul, Nat.cast_mul, ten]
    push_cast
    ring
  · rw [Nat.cast_mul, Nat.cast_mul, two]
    push_cast
    ring

theorem compareScaled_eq_lt : compareScaled a i n j = .lt ↔ a * 10 ^ i < (n * 2 ^ j : ℚ) := by
  obtain ⟨c, positive, left, right⟩ := exists_unit a i n j
  rw [compareScaled, Nat.compare_eq_lt, ← Nat.cast_lt (α := ℚ), left, right,
    mul_lt_mul_iff_left₀ positive]

theorem compareScaled_eq_gt : compareScaled a i n j = .gt ↔ (n * 2 ^ j : ℚ) < a * 10 ^ i := by
  obtain ⟨c, positive, left, right⟩ := exists_unit a i n j
  rw [compareScaled, Nat.compare_eq_gt, ← Nat.cast_lt (α := ℚ), left, right,
    mul_lt_mul_iff_left₀ positive]

theorem compareScaled_eq_eq : compareScaled a i n j = .eq ↔ a * 10 ^ i = (n * 2 ^ j : ℚ) := by
  obtain ⟨c, positive, left, right⟩ := exists_unit a i n j
  rw [compareScaled, Nat.compare_eq_eq, ← Nat.cast_inj (R := ℚ), left, right,
    mul_left_inj' positive.ne']

end Compare

section Stands

variable {d : Decimal} {x : Scaled}

theorem quarter (n : ℕ) (e : ℤ) : (n * 2 ^ (e - 2) : ℚ) = n / 4 * 2 ^ e := by
  rw [zpow_sub₀ two_ne_zero]
  norm_num
  ring

/-- A decimal stands for a double iff the double's rounding interval holds it. -/
theorem standsFor_iff (proper : x.Proper) : standsFor d x = true ↔ x.Takes d.value := by
  have unit : (0 : ℚ) < 2 ^ x.exponent := by positivity
  have positive := proper.positive
  have value : d.digits * 10 ^ d.exponent = d.value / 2 ^ x.exponent * 2 ^ x.exponent := by
    rw [div_mul_cancel₀ _ unit.ne']
    rfl
  simp only [standsFor, Bool.and_eq_true, Bool.or_eq_true, beq_iff_eq, compareScaled_eq_gt,
    compareScaled_eq_lt, compareScaled_eq_eq, quarter, value, mul_lt_mul_iff_left₀ unit,
    mul_left_inj' unit.ne']
  have high : ((4 * x.significand + 2 : ℕ) : ℚ) / 4 = x.significand + 1 / 2 := by
    push_cast
    ring
  rw [high]
  cases narrow : x.narrowBelow with
  | false =>
    have low : ((4 * x.significand - 2 : ℕ) : ℚ) / 4 = x.significand - 1 / 2 := by
      rw [Nat.cast_sub (by omega)]
      push_cast
      ring
    simp only [Bool.false_eq_true, if_false, low]
    constructor
    · rintro ⟨above, below⟩
      exact ⟨⟨by grind, by grind, by grind⟩, by simp [narrow]⟩
    · rintro ⟨⟨lower, upper, even⟩, _⟩
      exact ⟨by grind, by grind⟩
  | true =>
    have low : ((4 * x.significand - 1 : ℕ) : ℚ) / 4 = x.significand - 1 / 4 := by
      rw [Nat.cast_sub (by omega)]
      push_cast
      ring
    have even : x.significand % 2 = 0 := by
      rw [(proper.narrow.1 narrow).1]
      decide
    simp only [if_true, low, even, true_and]
    constructor
    · rintro ⟨above, below⟩
      exact ⟨⟨by grind, by grind, fun _ => even⟩, by grind⟩
    · rintro ⟨⟨lower, upper, _⟩, near⟩
      exact ⟨by grind, by grind⟩

theorem onGrid_stands {tie : Tie} {k : ℤ} (found : onGrid tie x k = some d) :
    standsFor d x = true ∧ d.exponent = k := by
  have nearer : nearerPoint tie x k = gridFloor x k ∨ nearerPoint tie x k = gridFloor x k + 1 := by
    unfold nearerPoint
    grind
  simp only [onGrid] at found
  split at found <;> cases found
  · rename_i low high
    rcases nearer with nearer | nearer <;> rw [nearer]
    · exact ⟨low, rfl⟩
    · exact ⟨high, rfl⟩
  · rename_i low high
    exact ⟨low, rfl⟩
  · rename_i low high
    exact ⟨high, rfl⟩

/-- The shortest decimal is on the first grid that meets the rounding interval, or exact if none of
the grids tried does. -/
theorem shortest_cases (tie : Tie) (x : Scaled) :
    (∃ i : ℕ, onGrid tie x (scaleAbove x - i) = some (shortest tie x) ∧
      ∀ j : ℕ, j < i → onGrid tie x (scaleAbove x - j) = none) ∨
    (shortest tie x = exact x ∧ ∀ i : ℕ, i < 22 → onGrid tie x (scaleAbove x - i) = none) := by
  unfold shortest
  cases found : (List.range 22).findSome? fun (i : Nat) => onGrid tie x (scaleAbove x - i) with
  | none =>
    rw [List.findSome?_eq_none_iff] at found
    exact .inr ⟨rfl, fun i bound => found i (List.mem_range.2 bound)⟩
  | some d =>
    obtain ⟨before, i, behind, split, found, none⟩ := List.findSome?_eq_some_iff.1 found
    have place (j : ℕ) (bound : j < 22) : (before ++ i :: behind)[j]? = some j := by
      rw [← split, List.getElem?_range bound]
    have length : before.length < 22 := by
      have whole := congrArg List.length split
      rw [List.length_range, List.length_append, List.length_cons] at whole
      omega
    have own := place before.length length
    rw [List.getElem?_append_right (Nat.le_refl _), Nat.sub_self] at own
    cases own
    refine .inl ⟨before.length, found, fun j earlier => none j ?_⟩
    have own := place j (by omega)
    rw [List.getElem?_append_left earlier] at own
    exact List.mem_of_getElem? own

theorem value_exact (x : Scaled) : (exact x).value = x.significand * 2 ^ x.exponent := by
  have two := natPow_toNat (b := 2) (by decide) x.exponent
  have ten : ((10 : ℕ) : ℚ) ^ (-x.exponent).toNat =
      2 ^ (-x.exponent).toNat * 5 ^ (-x.exponent).toNat := by
    rw [← mul_pow]
    norm_num
  simp only [exact, value, Nat.cast_mul, two, zpow_neg, zpow_natCast]
  push_cast [Nat.pow_eq] at ten ⊢
  rw [ten]
  field_simp

theorem exact_stands (proper : x.Proper) (equal : d.value = x.significand * 2 ^ x.exponent) :
    standsFor d x = true := by
  have unit : (0 : ℚ) < 2 ^ x.exponent := by positivity
  rw [standsFor_iff proper]
  have same : d.value / 2 ^ x.exponent = x.significand := by
    rw [equal, mul_div_cancel_right₀ _ unit.ne']
  refine ⟨⟨?_, ?_, ?_⟩, fun _ => ?_⟩ <;> rw [same]
  · linarith
  · linarith
  · rintro (tie | tie) <;> linarith
  · linarith

theorem shortest_takes (tie : Tie) (proper : x.Proper) : x.Takes (shortest tie x).value := by
  rw [← standsFor_iff proper]
  rcases shortest_cases tie x with ⟨i, found, _⟩ | ⟨same, _⟩
  · exact (onGrid_stands found).1
  · rw [same]
    exact exact_stands proper (value_exact x)

/-- A whole decimal that stands for a double with a fraction place is its significand. -/
theorem isWhole_of_takes (takes : x.Takes d.value) (whole : 0 ≤ d.exponent) :
    x.isWhole = true := by
  rw [Scaled.isWhole, beq_iff_eq]
  by_cases above : 0 ≤ x.exponent
  · have none : (-x.exponent).toNat = 0 := by omega
    rw [none]
    exact Nat.mod_one _
  · have cut : d.value / 2 ^ x.exponent =
        (d.digits * 10 ^ d.exponent.toNat * 2 ^ (-x.exponent).toNat : ℕ) := by
      have ten : d.exponent = d.exponent.toNat := by omega
      have two : -x.exponent = (-x.exponent).toNat := by omega
      rw [value, div_eq_mul_inv, ← zpow_neg, ten, two]
      push_cast [zpow_natCast]
      rfl
    have lower := takes.rounds.lower
    have upper := takes.rounds.upper
    rw [cut] at lower upper
    have same : d.digits * 10 ^ d.exponent.toNat * 2 ^ (-x.exponent).toNat = x.significand := by
      have h₁ : ((d.digits * 10 ^ d.exponent.toNat * 2 ^ (-x.exponent).toNat : ℕ) : ℚ) <
        x.significand + 1 := by linarith
      have h₂ : (x.significand : ℚ) <
        (d.digits * 10 ^ d.exponent.toNat * 2 ^ (-x.exponent).toNat : ℕ) + 1 := by linarith
      norm_cast at h₁ h₂
      omega
    rw [← same]
    exact Nat.mul_mod_left ..

theorem gridFloor_zero (whole : x.isWhole = true) :
    (gridFloor x 0 : ℚ) = x.significand * 2 ^ x.exponent := by
  rw [Scaled.isWhole, beq_iff_eq] at whole
  have two := natPow_toNat (b := 2) (by decide) x.exponent
  have split : gridFloor x 0 =
      x.significand * Nat.pow 2 x.exponent.toNat / Nat.pow 2 (-x.exponent).toNat := by
    simp [gridFloor]
  have divides := (Nat.dvd_of_mod_eq_zero whole).mul_right (Nat.pow 2 x.exponent.toNat)
  have positive : (0 : ℚ) < Nat.pow 2 (-x.exponent).toNat := by
    exact_mod_cast Nat.two_pow_pos _
  rw [split, Nat.cast_div divides positive.ne', Nat.cast_mul, two]
  push_cast
  field_simp

/-- The shortest decimal of a double without a fraction is whole. -/
theorem exponent_of_isWhole (tie : Tie) (proper : x.Proper) (whole : x.isWhole = true) :
    0 ≤ (shortest tie x).exponent := by
  have stands : standsFor ⟨gridFloor x 0, 0⟩ x = true :=
    exact_stands proper (by simp [value, gridFloor_zero whole])
  have met : onGrid tie x 0 ≠ none := by
    simp only [onGrid, stands]
    split <;> simp_all
  have bits : 0 ≤ x.significand.log2 + x.exponent := by
    rw [Scaled.isWhole, beq_iff_eq] at whole
    have atMost := Nat.le_of_dvd proper.positive (Nat.dvd_of_mod_eq_zero whole)
    have log := (Nat.le_log2 proper.positive.ne').2 atMost
    omega
  have small := (Nat.log2_lt proper.positive.ne').2 proper.canonical.bound
  -- the grid of whole numbers is among those tried, or all of them are coarser
  have above : 1 ≤ scaleAbove x := by
    unfold scaleAbove
    omega
  rcases shortest_cases tie x with ⟨i, found, none⟩ | ⟨same, none⟩
  · rw [(onGrid_stands found).2]
    by_contra below
    refine met ?_
    have earlier := none (scaleAbove x).toNat (by omega)
    rwa [Int.toNat_of_nonneg (by omega), Int.sub_self] at earlier
  · rw [same]
    by_cases tried : scaleAbove x < 22
    · refine absurd ?_ met
      have earlier := none (scaleAbove x).toNat (by omega)
      rwa [Int.toNat_of_nonneg (by omega), Int.sub_self] at earlier
    · have high : 0 ≤ x.exponent := by
        unfold scaleAbove at tried
        omega
      have exponent : (exact x).exponent = 0 := by
        simp only [exact]
        omega
      omega

end Stands

end MediaQuery.Decimal
