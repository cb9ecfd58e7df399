import MediaQuery.Proofs.ExtendedReal
import MediaQuery.Proofs.Rounding

set_option autoImplicit false

namespace MediaQuery.Number

open Float.Model Float.Model.UnpackedFloat

namespace RoundsTo

variable {u v : ℚ} {n m : ℕ}

theorem mono (le : u ≤ v) (first : RoundsTo u n) (second : RoundsTo v m) : n ≤ m := by
  by_contra greater
  have next : (m : ℚ) + 1 ≤ n := by exact_mod_cast not_le.1 greater
  have low := first.lower
  have high := second.upper
  -- Only one point is left between the two, half way, and it is not rounded to odd and even alike.
  have half : (n : ℚ) = m + 1 := by linarith
  have odd := first.even (.inl (by linarith))
  have even := second.even (.inr (by linarith))
  have step : n = m + 1 := by exact_mod_cast half
  omega

theorem natCast (n : ℕ) : RoundsTo n n :=
  ⟨by linarith, by linarith, fun half => by rcases half with half | half <;> linarith⟩

end RoundsTo

/-- Rounding what was cut off gives the nearest whole number. -/
theorem Represents.rounds {em : ExtendedMantissa} {u : ℚ} (rep : Represents em u) :
    RoundsTo u em.roundedMantissa := by
  cases rep with
  | @exact m _ equal =>
    change RoundsTo u m
    rw [equal]
    exact .natCast m
  | @less m _ above below =>
    change RoundsTo u m
    exact ⟨by linarith, by linarith, fun half => by rcases half with half | half <;> linarith⟩
  | @half m _ equal =>
    change RoundsTo u (m + m % 2)
    rcases Nat.mod_two_eq_zero_or_one m with parity | parity
    · rw [parity]
      refine ⟨?_, ?_, fun _ => parity⟩ <;> push_cast <;> linarith
    · rw [parity]
      refine ⟨?_, ?_, fun _ => by omega⟩ <;> push_cast <;> linarith
  | @more m _ above below =>
    change RoundsTo u (m + 1)
    refine ⟨?_, ?_, fun half => ?_⟩
    · push_cast
      linarith
    · push_cast
      linarith
    · push_cast at half
      rcases half with half | half <;> linarith

/-- The exponent of the last place of the doubles around a magnitude. -/
def lastPlace (v : ℚ) : ℤ := if v ≤ 0 then -1074 else max (Int.log 2 v - 52) (-1074)

section LastPlace

variable {v w : ℚ}

theorem lastPlace_ge (v : ℚ) : -1074 ≤ lastPlace v := by
  unfold lastPlace
  split <;> omega

theorem lastPlace_mono (le : v ≤ w) : lastPlace v ≤ lastPlace w := by
  unfold lastPlace
  split
  · split <;> omega
  · rename_i positive
    have logs := Int.log_mono_right (b := 2) (not_le.1 positive) le
    rw [if_neg (by linarith)]
    omega

theorem lt_two_pow_lastPlace (v : ℚ) : v / 2 ^ lastPlace v < 2 ^ 53 := by
  rw [div_lt_iff₀ (by positivity)]
  unfold lastPlace
  split
  · rename_i none
    have above : (0 : ℚ) < 2 ^ 53 * 2 ^ (-1074 : ℤ) := by positivity
    exact lt_of_le_of_lt none above
  · refine (Int.lt_zpow_succ_log_self (b := 2) one_lt_two v).trans_le ?_
    have whole : ((2 : ℚ) ^ 53) = 2 ^ (53 : ℤ) := by norm_cast
    rw [whole, ← zpow_add₀ two_ne_zero]
    exact zpow_le_zpow_right₀ one_le_two (by omega)

/-- Above the least place, a magnitude has all digits of a significand. -/
theorem two_pow_le_lastPlace (above : -1074 < lastPlace v) : 2 ^ 52 ≤ v / 2 ^ lastPlace v := by
  rw [le_div_iff₀ (by positivity)]
  unfold lastPlace at above ⊢
  split at above
  · omega
  · rename_i positive
    have whole : ((2 : ℚ) ^ 52) = 2 ^ (52 : ℤ) := by norm_cast
    rw [if_neg positive, whole, ← zpow_add₀ two_ne_zero]
    refine le_trans (zpow_le_zpow_right₀ one_le_two ?_)
      (Int.zpow_log_le_self (b := 2) one_lt_two (not_le.1 positive))
    omega

/-- A magnitude between two powers of two has the last place that arithmetic aims at. -/
theorem lastPlace_eq {a : ℕ} {E : ℤ} (lower : 2 ^ (a.log2 + E : ℤ) ≤ v)
    (upper : v < 2 ^ (a.log2 + 1 + E : ℤ)) :
    lastPlace v = Format.binary64.targetExponent (totalExponent a E) := by
  have positive : 0 < v := lt_of_lt_of_le (by positivity) lower
  have atLeast := (Int.zpow_le_iff_le_log (b := 2) one_lt_two positive).1 (by exact_mod_cast lower)
  have below := (Int.lt_zpow_iff_log_lt (b := 2) one_lt_two positive).1 (by exact_mod_cast upper)
  rw [targetExponent_eq, lastPlace, if_neg (not_le.2 positive)]
  omega

end LastPlace

/-- The magnitude bits of the double that is nearest to a magnitude: those of its whole number of
last places, or the infinite ones beyond all doubles that are finite. -/
def Nearest (v : ℚ) (bits : ℕ) : Prop :=
  ∃ n, RoundsTo (v / 2 ^ lastPlace v) n ∧
    bits = min infiniteMagnitude ((lastPlace v + 1074).toNat * 2 ^ 52 + n)

namespace Nearest

variable {v w : ℚ} {j k : ℕ}

/-- Rounding is monotone. -/
theorem mono (le : v ≤ w) (first : Nearest v j) (second : Nearest w k) : j ≤ k := by
  obtain ⟨n, below, rfl⟩ := first
  obtain ⟨m, above, rfl⟩ := second
  have least := lastPlace_ge v
  have places := lastPlace_mono le
  refine min_le_min_left _ ?_
  rcases places.lt_or_eq with less | same
  · -- The larger one is at least a binade further up, with a full significand.
    have upper : n ≤ 2 ^ 53 := below.mono
      (by exact_mod_cast (lt_two_pow_lastPlace v).le) (.natCast (2 ^ 53))
    have lower : 2 ^ 52 ≤ m := RoundsTo.mono
      (by exact_mod_cast two_pow_le_lastPlace (least.trans_lt less)) (.natCast (2 ^ 52)) above
    omega
  · rw [same] at below
    have order := below.mono (by gcongr) above
    rw [same]
    omega

theorem eq (first : Nearest v j) (second : Nearest v k) : j = k :=
  Nat.le_antisymm (first.mono le_rfl second) (second.mono le_rfl first)

theorem zero : Nearest 0 0 := by
  have least : lastPlace 0 = -1074 := if_pos le_rfl
  refine ⟨0, ?_, ?_⟩
  · simpa using RoundsTo.natCast 0
  · rw [least]
    rfl

end Nearest

/-- The magnitude of a packed value counts its last places, up to the infinite one. -/
theorem magnitude_packed_canonical (s : Sign) {m : ℕ} {e : ℤ} (positive : 0 < m)
    (canonical : Canonical m e) :
    magnitude (packed (.finite s m e positive)) =
      min infiniteMagnitude ((e + 1074).toNat * 2 ^ 52 + m) := by
  have bound := canonical.bound
  have lower := canonical.lower
  unfold infiniteMagnitude
  by_cases large : 971 < e
  · have full := canonical.full.resolve_right (by omega)
    have fields : UnpackedFloat.pack Format.binary64 (.finite s m e positive) =
        packedInfinity Format.binary64 s := by
      simp only [UnpackedFloat.pack]
      rw [if_pos]
      change 2048 ≤ (e + 1023 + 52).toNat + 1
      omega
    have level := magnitude_of_components ((word_packed _).trans fields)
    rw [level]
    change 2047 * 2 ^ 52 + 0 = _
    omega
  · by_cases full : 2 ^ 52 ≤ m
    · rw [magnitude_packed_full s positive full bound lower (by omega)]
      omega
    · obtain rfl := canonical.full.resolve_left full
      have fields := (word_packed _).trans (pack_subnormal s positive (by omega))
      rw [magnitude_of_components fields, BitVec.toNat_ofNat]
      change 0 * 2 ^ 52 + m % 2 ^ 52 = _
      omega

section Round

variable {u : ℚ} {a : ℕ} {E : ℤ} {accuracy : Accuracy}

/-- The last place that arithmetic aims at is that of the exact value. -/
theorem lastPlace_of_represents (rep : Represents (.ofMantissaAndAccuracy a accuracy) u)
    (enough : E ≤ Format.binary64.targetExponent (totalExponent a E)) :
    lastPlace (u * 2 ^ E) = Format.binary64.targetExponent (totalExponent a E) := by
  have below := rep.lt_two_pow (E := E)
  by_cases none : a = 0
  · subst none
    rw [targetExponent_eq, Nat.log2_zero] at *
    unfold lastPlace
    split
    · omega
    · rename_i positive
      have log := (Int.lt_zpow_iff_log_lt (b := 2) one_lt_two (not_le.1 positive)).1
        (by exact_mod_cast below)
      omega
  · exact lastPlace_eq (rep.two_pow_le none) below

/-- Rounding gives the nearest double. -/
theorem nearest_roundWithAccuracy (sign : Sign)
    (rep : Represents (.ofMantissaAndAccuracy a accuracy) u)
    (enough : E ≤ Format.binary64.targetExponent (totalExponent a E)) :
    Nearest (u * 2 ^ E)
      (magnitude (packed (roundWithAccuracy Format.binary64 sign a E accuracy))) := by
  obtain ⟨em, first, cut⟩ := shiftToTargetExponent_of_represents rep enough
  have place := lastPlace_of_represents rep enough
  rw [← place] at first cut
  have rounds := cut.rounds
  refine ⟨em.roundedMantissa, rounds, ?_⟩
  have least := lastPlace_ge (u * 2 ^ E)
  have upper : em.roundedMantissa ≤ 2 ^ 53 :=
    rounds.mono (by exact_mod_cast (lt_two_pow_lastPlace _).le) (.natCast (2 ^ 53))
  have full : -1074 < lastPlace (u * 2 ^ E) → 2 ^ 52 ≤ em.roundedMantissa := fun above =>
    RoundsTo.mono (by exact_mod_cast two_pow_le_lastPlace above) (.natCast (2 ^ 52)) rounds
  generalize lastPlace (u * 2 ^ E) = place at first least full
  generalize rounded : em.roundedMantissa = n at upper full
  by_cases none : n = 0
  · obtain rfl : place = -1074 := by omega
    have second : shiftToTargetExponent Format.binary64 0 (-1074) .exact =
        (⟨0, false, false⟩, -1074) := rfl
    simp only [roundWithAccuracy, first, rounded, none, second]
    rw [dif_pos trivial, magnitude_of_components (word_packed (.zero sign))]
    rfl
  · by_cases carry : n = 2 ^ 53
    · -- The significand has one digit too many, and the second shift drops a zero of it.
      have canonical : Canonical (2 ^ 52) (place + 1) := ⟨by decide, by omega, .inl le_rfl⟩
      have second : shiftToTargetExponent Format.binary64 (2 ^ 53) place .exact =
          (⟨2 ^ 52, false, false⟩, place + 1) := by
        have dropped := shiftToTargetExponent_canonical (by decide) canonical 1
        rwa [Nat.cast_one, add_sub_cancel_right] at dropped
      simp only [roundWithAccuracy, first, rounded, carry, second]
      rw [dif_neg (by decide), magnitude_packed_canonical sign (by decide) canonical]
      omega
    · have canonical : Canonical n place := ⟨by omega, least, by omega⟩
      have second := shiftToTargetExponent_canonical (Nat.pos_of_ne_zero none) canonical 0
      simp only [Nat.pow_zero, Nat.mul_one, Nat.cast_zero, Int.sub_zero] at second
      simp only [roundWithAccuracy, first, rounded, second]
      rw [dif_neg none, magnitude_packed_canonical sign (Nat.pos_of_ne_zero none) canonical]

end Round

/-- The distance from zero of a finite double. -/
def amount (x : Float) : ℚ := (scaled x).significand * 2 ^ (scaled x).exponent

section Amount

variable {x y : Float}

theorem cast_amount (x : Float) : (amount x : ℝ) = (scaled x).value := by
  simp [amount, Scaled.value]

theorem amount_nonneg (x : Float) : 0 ≤ amount x := by
  unfold amount
  positivity

theorem amount_lt_iff : amount x < amount y ↔ magnitude x < magnitude y := by
  have value (x y : Float) (less : magnitude x < magnitude y) : amount x < amount y := by
    have reals := value_scaled_lt less
    rw [← cast_amount, ← cast_amount] at reals
    exact_mod_cast reals
  refine ⟨fun less => ?_, value x y⟩
  by_contra atLeast
  rcases (not_lt.1 atLeast).lt_or_eq with greater | level
  · exact less.asymm (value y x greater)
  · rw [amount, amount, scaled, scaled, level] at less
    exact less.ne rfl

theorem amount_eq_zero_iff : amount x = 0 ↔ isZero x = true := by
  have least : amount 0 = 0 := by
    have parts : scaled 0 = ⟨0, -1074, false⟩ := rfl
    simp [amount, parts]
  have none : magnitude 0 = 0 := by decide
  have above := amount_lt_iff (x := 0) (y := x)
  rw [least, none] at above
  rw [isZero, beq_iff_eq]
  have nonneg := amount_nonneg x
  constructor
  · intro zero
    simpa [zero] using above
  · intro zero
    by_contra nonzero
    have positive := above.1 (lt_of_le_of_ne nonneg (Ne.symm nonzero))
    omega

theorem amount_pos (nonzero : isZero x = false) : 0 < amount x := by
  refine lt_of_le_of_ne (amount_nonneg x) fun zero => ?_
  rw [amount_eq_zero_iff.1 zero.symm] at nonzero
  cases nonzero

/-- A product of finite doubles is the double nearest to the exact product. -/
theorem nearest_mul (hx : isFinite x = true) (hy : isFinite y = true) :
    Nearest (amount x * amount y) (magnitude (x * y)) := by
  have zero {x y : Float} (zero : isZero x = true) (finite : isFinite y = true) :
      Nearest (amount x * amount y) (magnitude (x * y)) := by
    have product := isZero_mul zero finite
    rw [isZero, beq_iff_eq] at product
    rw [amount_eq_zero_iff.2 zero, zero_mul, product]
    exact .zero
  by_cases zeroX : isZero x = true
  · exact zero zeroX hy
  by_cases zeroY : isZero y = true
  · rw [Rat.mul_comm, mul_comm]
    exact zero zeroY hx
  obtain ⟨properX, positiveX, splitX⟩ := unpacked_eq_finite hx (by simpa using zeroX)
  obtain ⟨properY, positiveY, splitY⟩ := unpacked_eq_finite hy (by simpa using zeroY)
  have value : amount x * amount y = ((scaled x).significand * (scaled y).significand : ℕ) *
      2 ^ ((scaled x).exponent + (scaled y).exponent) := by
    rw [zpow_add₀ two_ne_zero, amount, amount]
    push_cast
    ring
  rw [mul_eq_packed, splitX, splitY, value]
  refine nearest_roundWithAccuracy _ (.exact rfl) ?_
  rw [targetExponent_eq]
  have nonzero : (scaled x).significand * (scaled y).significand ≠ 0 :=
    Nat.mul_ne_zero positiveX.ne' positiveY.ne'
  by_cases full : 2 ^ 52 ≤ (scaled x).significand * (scaled y).significand
  · have bits := (Nat.le_log2 nonzero).2 full
    omega
  · -- Only where both are subnormal is the product short of a significand.
    have shortX : ¬2 ^ 52 ≤ (scaled x).significand := fun long =>
      full (long.trans (Nat.le_mul_of_pos_right _ positiveY))
    have shortY : ¬2 ^ 52 ≤ (scaled y).significand := fun long =>
      full (long.trans (Nat.le_mul_of_pos_left _ positiveX))
    have leastX := properX.canonical.full.resolve_left shortX
    have leastY := properY.canonical.full.resolve_left shortY
    omega

theorem nearest_self (hx : isFinite x = true) : Nearest (amount x) (magnitude x) := by
  have one : amount 1 = 1 := by
    have parts : scaled 1 = ⟨2 ^ 52, -52, true⟩ := rfl
    norm_num [amount, parts]
  have product := nearest_mul hx (by decide : isFinite 1 = true)
  rwa [one, Rat.mul_one, mul_one] at product

theorem div_eq_packed (x y : Float) :
    x / y = packed (UnpackedFloat.div Format.binary64 (unpacked x) (unpacked y)) := rfl

/-- A quotient of finite doubles is the double nearest to the exact quotient. -/
theorem nearest_div (hx : isFinite x = true) (hy : isFinite y = true) (nonzero : isZero y = false) :
    Nearest (amount x / amount y) (magnitude (x / y)) := by
  obtain ⟨properY, positiveY, splitY⟩ := unpacked_eq_finite hy nonzero
  by_cases zeroX : isZero x = true
  · obtain ⟨s, splitX⟩ := (isZero_iff_unpacked x).1 zeroX
    have quotient : isZero (x / y) = true := by
      rw [div_eq_packed, splitX, splitY]
      exact isZero_packed_zero _
    rw [isZero, beq_iff_eq] at quotient
    rw [amount_eq_zero_iff.2 zeroX, zero_div, quotient]
    exact .zero
  · obtain ⟨properX, positiveX, splitX⟩ := unpacked_eq_finite hx (by simpa using zeroX)
    obtain ⟨a, E, accuracy, u, rounded, rep, value, enough⟩ := div_rounds (sign x) (sign y)
      (scaled x).exponent (scaled y).exponent positiveX positiveY
    rw [div_eq_packed, splitX, splitY, rounded]
    change Nearest (_ * 2 ^ (scaled x).exponent / (_ * 2 ^ (scaled y).exponent)) _
    rw [← value]
    exact nearest_roundWithAccuracy _ rep enough

/-- Dividing by one or more does not take a double out of the finite ones. -/
theorem isFinite_div (hx : isFinite x = true) (hy : isFinite y = true) (large : 1 ≤ amount y) :
    isFinite (x / y) = true := by
  have nonzero : isZero y = false := by
    rw [← Bool.not_eq_true, ← amount_eq_zero_iff]
    linarith
  have order := (nearest_div hx hy nonzero).mono (div_le_self (amount_nonneg x) large)
    (nearest_self hx)
  rw [isFinite, decide_eq_true_iff] at hx ⊢
  omega

end Amount

end MediaQuery.Number
