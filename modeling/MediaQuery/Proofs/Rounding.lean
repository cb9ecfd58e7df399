import MediaQuery.Proofs.Binary64

set_option autoImplicit false

/- Rounding to the nearest double. The bits that arithmetic keeps of what it cuts off tell on which
side of the half way it lies, and cutting off more bits keeps that. So products and quotients give
the one double whose rounding interval holds their exact value. -/
namespace MediaQuery.Number

open Float.Model Float.Model.UnpackedFloat

/-- The sign of a double, as arithmetic has it. -/
def sign (x : Float) : Sign := if signBit x then .negative else .positive

theorem ofBitVec_unpackSign (x : Float) : Sign.ofBitVec (unpackSign (word x)) = sign x := by
  rw [sign]
  split
  · rename_i negative
    exact (signBit_iff_field x).1 negative
  · rename_i positive
    rw [signBit_iff_field] at positive
    cases field : Sign.ofBitVec (unpackSign (word x)) with
    | positive => rfl
    | negative => exact absurd field positive

/-- The magnitudes of finite doubles other than zero. -/
structure Scaled.Proper (s : Scaled) : Prop where
  positive : 0 < s.significand
  canonical : Canonical s.significand s.exponent
  upper : s.exponent ≤ 971
  narrow : s.narrowBelow = true ↔ s.significand = 2 ^ 52 ∧ -1074 < s.exponent

theorem unpacked_eq_finite {x : Float} (finite : isFinite x = true) (nonzero : isZero x = false) :
    (scaled x).Proper ∧ ∃ positive,
      unpacked x = .finite (sign x) (scaled x).significand (scaled x).exponent positive := by
  have level := magnitude_eq_fields x
  have fraction : (unpackMantissa (word x)).toNat < 2 ^ 52 := (unpackMantissa (word x)).isLt
  have field : magnitude x / 0x10000000000000 = (unpackExponent (word x)).toNat := by omega
  have rest : magnitude x % 0x10000000000000 = (unpackMantissa (word x)).toNat := by omega
  rw [isFinite, decide_eq_true_iff, infiniteMagnitude] at finite
  rw [isZero, beq_eq_false_iff_ne] at nonzero
  have decoded := decodes (word x)
  change _ ∧ ∃ positive, UnpackedFloat.unpack Format.binary64 (word x) = _
  generalize UnpackedFloat.unpack Format.binary64 (word x) = u at decoded
  cases decoded with
  | notANumber top some =>
    rw [top] at level
    change _ = 2047 * 2 ^ 52 + _ at level
    omega
  | infinity top none =>
    rw [top] at level
    change _ = 2047 * 2 ^ 52 + _ at level
    omega
  | zero bottom none =>
    rw [bottom, none] at level
    exact absurd level nonzero
  | subnormal bottom positive =>
    have split : scaled x = ⟨(unpackMantissa (word x)).toNat, -1074, false⟩ := by
      simp only [scaled, field, rest]
      rw [if_pos (by rw [bottom]; rfl)]
    rw [split, ofBitVec_unpackSign]
    have bound := Nat.lt_trans fraction (by decide : 2 ^ 52 < 2 ^ 53)
    exact ⟨⟨positive, ⟨bound, Int.le_refl _, .inr rfl⟩, by simp, by simp⟩, positive, rfl⟩
  | normal above below positive =>
    have split : scaled x = ⟨2 ^ 52 + (unpackMantissa (word x)).toNat,
        ((unpackExponent (word x)).toNat : Int) - 1075,
        (unpackMantissa (word x)).toNat == 0 && decide (1 < (unpackExponent (word x)).toNat)⟩ := by
      simp only [scaled, field, rest]
      rw [if_neg (by omega)]
      rfl
    rw [split, ofBitVec_unpackSign]
    refine ⟨⟨positive, ⟨?_, ?_, .inl ?_⟩, ?_, ?_⟩, positive, rfl⟩ <;> dsimp only
    · omega
    · omega
    · omega
    · omega
    · simp only [Bool.and_eq_true, beq_iff_eq, decide_eq_true_eq]
      omega

/-- Fields of a normal double are unpacked to its significand with the leading bit. -/
theorem unpack_normal (s : Sign) {exponent : BitVec 11} (fraction : BitVec 52)
    (above : 0 < exponent.toNat) (below : exponent.toNat < 2047) :
    ∃ positive, UnpackedFloat.unpack Format.binary64
        (packComponents Format.binary64 s exponent fraction) =
      .finite s (2 ^ 52 + fraction.toNat) (exponent.toNat - 1075) positive := by
  have decoded := decodes (packComponents Format.binary64 s exponent fraction)
  generalize UnpackedFloat.unpack Format.binary64 _ = u at decoded
  cases decoded with
  | notANumber top some | infinity top none =>
    rw [unpackExponent_packComponents] at top
    rw [top] at below
    exact absurd below (by decide)
  | zero bottom none | subnormal bottom positive =>
    rw [unpackExponent_packComponents] at bottom
    rw [bottom] at above
    exact absurd above (by decide)
  | normal above below positive =>
    simp only [unpackExponent_packComponents, unpackMantissa_packComponents,
      unpackSign_packComponents]
    refine ⟨by omega, ?_⟩
    congr 1
    cases s <;> rfl

/-- Fields of a subnormal double are unpacked to its significand as it stands. -/
theorem unpack_subnormal {s : Sign} {fraction : BitVec 52} (positive : 0 < fraction.toNat) :
    UnpackedFloat.unpack Format.binary64 (packComponents Format.binary64 s 0#_ fraction) =
      .finite s fraction.toNat (-1074) positive := by
  have decoded := decodes (packComponents Format.binary64 s 0#_ fraction)
  generalize UnpackedFloat.unpack Format.binary64 _ = u at decoded
  cases decoded with
  | notANumber top some | infinity top none =>
    rw [unpackExponent_packComponents] at top
    cases top
  | zero bottom none =>
    rw [unpackMantissa_packComponents] at none
    rw [none] at positive
    cases positive
  | subnormal bottom positive =>
    simp only [unpackMantissa_packComponents, unpackSign_packComponents]
    congr 1
    cases s <;> rfl
  | normal above below positive =>
    rw [unpackExponent_packComponents] at above
    cases above

/-- Packing loses nothing of a canonical value that is in the range of doubles. -/
theorem unpacked_packed {s : Sign} {m : Nat} {e : Int} (positive : 0 < m)
    (canonical : Canonical m e) (upper : e ≤ 971) :
    unpacked (packed (.finite s m e positive)) = .finite s m e positive := by
  have bound := canonical.bound
  have lower := canonical.lower
  change UnpackedFloat.unpack Format.binary64 (UnpackedFloat.pack Format.binary64 _) = _
  by_cases full : 2 ^ 52 ≤ m
  · have exponent : (BitVec.ofNat 11 (e + 1075).toNat).toNat = (e + 1075).toNat := by
      rw [BitVec.toNat_ofNat]
      omega
    have fraction : 2 ^ 52 + (BitVec.ofNat 52 m).toNat = m := by
      rw [BitVec.toNat_ofNat]
      omega
    have biased : ((e + 1075).toNat : Int) - 1075 = e := by omega
    have above : 0 < (BitVec.ofNat 11 (e + 1075).toNat).toNat := by omega
    obtain ⟨_, unpacks⟩ := unpack_normal s (BitVec.ofNat 52 m) above (by omega)
    rw [pack_full s positive full bound lower upper, unpacks]
    simp only [fraction, exponent, biased]
  · obtain rfl := canonical.full.resolve_left full
    have fraction : (BitVec.ofNat 52 m).toNat = m := by
      rw [BitVec.toNat_ofNat]
      omega
    rw [pack_subnormal s positive (by omega), unpack_subnormal (by rwa [fraction])]
    simp only [fraction]

/-- A quantity is rounded to a whole number: it lies within a half of it, and half way only from an
even one. -/
structure RoundsTo (u : ℚ) (n : ℕ) : Prop where
  lower : n - 1 / 2 ≤ u
  upper : u ≤ n + 1 / 2
  even : u = n - 1 / 2 ∨ u = n + 1 / 2 → n % 2 = 0

/-- What a mantissa and its two residual bits tell of the quantity that they were cut from. -/
inductive Represents : ExtendedMantissa → ℚ → Prop where
  | exact {m : ℕ} {u : ℚ} (equal : u = m) : Represents ⟨m, false, false⟩ u
  | less {m : ℕ} {u : ℚ} (above : m < u) (below : u < m + 1 / 2) : Represents ⟨m, false, true⟩ u
  | half {m : ℕ} {u : ℚ} (equal : u = m + 1 / 2) : Represents ⟨m, true, false⟩ u
  | more {m : ℕ} {u : ℚ} (above : m + 1 / 2 < u) (below : u < m + 1) :
    Represents ⟨m, true, true⟩ u

namespace Represents

variable {em : ExtendedMantissa} {u : ℚ} {n : ℕ}

theorem shiftRightOne (rep : Represents em u) : Represents em.shiftRightOne (u / 2) := by
  obtain ⟨m, r, s⟩ := em
  have parity : m % 2 = 0 ∨ m % 2 = 1 := by omega
  have divided : ((m % 2 : ℕ) : ℚ) + 2 * ((m / 2 : ℕ) : ℚ) = m := by
    exact_mod_cast Nat.mod_add_div m 2
  rcases parity with parity | parity <;> rw [parity] at divided <;> push_cast at divided <;>
    cases rep <;> simp only [ExtendedMantissa.shiftRightOne, parity] 
  case inl.exact equal => exact .exact (by linarith)
  case inl.less above below => exact .less (by linarith) (by linarith)
  case inl.half equal => exact .less (by linarith) (by linarith)
  case inl.more above below => exact .less (by linarith) (by linarith)
  case inr.exact equal => exact .half (by linarith)
  case inr.less above below => exact .more (by linarith) (by linarith)
  case inr.half equal => exact .more (by linarith) (by linarith)
  case inr.more above below => exact .more (by linarith) (by linarith)

/-- Cutting off more bits keeps what the residual bits tell. -/
theorem shiftRight (rep : Represents em u) (n : ℕ) : Represents (em >>> n) (u / 2 ^ n) := by
  change Represents (n.repeat ExtendedMantissa.shiftRightOne em) _
  induction n with
  | zero => simpa [Nat.repeat] using rep
  | succ n ih =>
    rw [pow_succ, ← div_div]
    exact ih.shiftRightOne

/-- The remainder of a division tells where the exact quotient lies. -/
theorem ofFraction {a b : ℕ} (positive : 0 < b) :
    Represents (.ofMantissaAndAccuracy (a / b) (accuracyOfFraction (a % b) b)) (a / b) := by
  have bound := Nat.mod_lt a positive
  have divided : (a : ℚ) / b = (a / b : ℕ) + ((a % b : ℕ) : ℚ) / b := by
    have whole : (b : ℚ) * (a / b : ℕ) + (a % b : ℕ) = a := by exact_mod_cast Nat.div_add_mod a b
    have nonzero : (b : ℚ) ≠ 0 := by positivity
    field_simp
    linarith
  have pos : (0 : ℚ) < b := by exact_mod_cast positive
  generalize a % b = r at bound divided
  rw [divided]
  have below : (r : ℚ) / b < 1 := by
    rw [div_lt_one pos]
    exact_mod_cast bound
  unfold accuracyOfFraction
  split
  · rename_i zero
    exact .exact (by simp [zero])
  · rename_i nonzero
    have above : (0 : ℚ) < r / b := by positivity
    cases order : compare (2 * r) b
    · rw [Nat.compare_eq_lt] at order
      have half : (r : ℚ) / b < 1 / 2 := by
        rw [div_lt_div_iff₀ pos two_pos]
        exact_mod_cast (by omega)
      exact .less (by linarith) (by linarith)
    · rw [Nat.compare_eq_eq] at order
      have half : (r : ℚ) / b = 1 / 2 := by
        rw [div_eq_div_iff pos.ne' two_ne_zero]
        exact_mod_cast (by omega)
      exact .half (by linarith)
    · rw [Nat.compare_eq_gt] at order
      have half : 1 / 2 < (r : ℚ) / b := by
        rw [div_lt_div_iff₀ two_pos pos]
        exact_mod_cast (by omega)
      exact .more (by linarith) (by linarith)

theorem roundedMantissa_eq (rep : Represents em u) (rounds : RoundsTo u n) :
    em.roundedMantissa = n := by
  obtain ⟨lower, upper, even⟩ := rounds
  cases rep with
  | @exact m _ | @less m _ =>
    change m = n
    have h₁ : (n : ℚ) < m + 1 := by linarith
    have h₂ : (m : ℚ) < n + 1 := by linarith
    norm_cast at h₁ h₂
    omega
  | half equal =>
    rename_i m
    change m + m % 2 = n
    have h₁ : (n : ℚ) ≤ m + 1 := by linarith
    have h₂ : (m : ℚ) ≤ n := by linarith
    norm_cast at h₁ h₂
    have even := even (by
      rcases (by omega : n = m ∨ n = m + 1) with rfl | rfl
      · exact .inr equal
      · exact .inl (by push_cast; linarith))
    omega
  | more above below =>
    rename_i m
    change m + 1 = n
    have h₁ : (n : ℚ) < m + 2 := by linarith
    have h₂ : (m : ℚ) < n := by linarith
    norm_cast at h₁ h₂
    omega

theorem bounds (rep : Represents em u) : em.mantissa ≤ u ∧ u < em.mantissa + 1 := by
  cases rep <;> constructor <;> dsimp only <;> linarith

end Represents

/-- The reals that are rounded to the magnitude of a double. -/
structure Scaled.Takes (s : Scaled) (v : ℚ) : Prop where
  rounds : RoundsTo (v / 2 ^ s.exponent) s.significand
  narrow : s.narrowBelow = true → s.significand - 1 / 4 ≤ v / 2 ^ s.exponent

theorem mantissa_ofMantissaAndAccuracy (a : ℕ) (accuracy : Accuracy) :
    (ExtendedMantissa.ofMantissaAndAccuracy a accuracy).mantissa = a := by
  unfold ExtendedMantissa.ofMantissaAndAccuracy
  split <;> rfl

theorem targetExponent_eq (a : ℕ) (E : ℤ) :
    Format.binary64.targetExponent (totalExponent a E) = max (a.log2 + E - 52) (-1074) := by
  simp only [Format.targetExponent, totalExponent, Format.mantissaBits, Format.minExponent]
  omega

section Round

variable {x : Scaled} {v u : ℚ} {a : ℕ} {E : ℤ} {accuracy : Accuracy}

/-- What is rounded to a double lies below the power of two above its leading digit. -/
theorem Scaled.Takes.lt (takes : x.Takes v) (proper : x.Proper) : v < 2 ^ (53 + x.exponent) := by
  have unit : (0 : ℚ) < 2 ^ x.exponent := by positivity
  have bound : (x.significand : ℚ) + 1 ≤ 2 ^ 53 := by exact_mod_cast proper.canonical.bound
  have upper := takes.rounds.upper
  rw [div_le_iff₀ unit] at upper
  rw [zpow_add₀ two_ne_zero]
  refine upper.trans_lt (mul_lt_mul_of_pos_right ?_ unit)
  change _ < (2 : ℚ) ^ 53
  linarith

/-- What is rounded to a double of full precision reaches the power of two at its leading digit,
or nearly so if the double is that power. -/
theorem Scaled.Takes.ge (takes : x.Takes v) (proper : x.Proper) (above : -1074 < x.exponent) :
    2 ^ (51 + x.exponent) ≤ v ∧ (v < 2 ^ (52 + x.exponent) → x.significand = 2 ^ 52) := by
  have unit : (0 : ℚ) < 2 ^ x.exponent := by positivity
  have full := proper.canonical.full.resolve_right (by omega)
  have lower := takes.rounds.lower
  rw [le_div_iff₀ unit] at lower
  refine ⟨?_, fun less => ?_⟩
  · have leading : (2 : ℚ) ^ 52 ≤ x.significand := by exact_mod_cast full
    rw [zpow_add₀ two_ne_zero]
    refine le_trans (mul_le_mul_of_nonneg_right ?_ unit.le) lower
    change (2 : ℚ) ^ 51 ≤ _
    linarith
  · have order := lower.trans_lt less
    rw [zpow_add₀ two_ne_zero, mul_lt_mul_iff_left₀ unit] at order
    change _ < (2 : ℚ) ^ 52 at order
    have bound : (x.significand : ℚ) < 2 ^ 52 + 1 := by linarith
    norm_cast at bound
    omega

theorem Represents.lt_two_pow (rep : Represents (.ofMantissaAndAccuracy a accuracy) u) :
    u * 2 ^ E < 2 ^ (a.log2 + 1 + E : ℤ) := by
  have unit : (0 : ℚ) < 2 ^ E := by positivity
  have upper := rep.bounds.2
  rw [mantissa_ofMantissaAndAccuracy] at upper
  have bound : (a : ℚ) + 1 ≤ 2 ^ (a.log2 + 1) := by exact_mod_cast Nat.lt_log2_self
  rw [zpow_add₀ two_ne_zero]
  refine mul_lt_mul_of_pos_right ?_ unit
  refine upper.trans_le (bound.trans_eq ?_)
  rw [← zpow_natCast]
  norm_cast

theorem Represents.two_pow_le (rep : Represents (.ofMantissaAndAccuracy a accuracy) u)
    (positive : a ≠ 0) : 2 ^ (a.log2 + E : ℤ) ≤ u * 2 ^ E := by
  have unit : (0 : ℚ) < 2 ^ E := by positivity
  have lower := rep.bounds.1
  rw [mantissa_ofMantissaAndAccuracy] at lower
  have bound : (2 : ℚ) ^ a.log2 ≤ a := by exact_mod_cast Nat.log2_self_le positive
  rw [zpow_add₀ two_ne_zero]
  refine mul_le_mul_of_nonneg_right ?_ unit.le
  rw [zpow_natCast]
  exact bound.trans lower

/-- The exponent that a quantity is rounded at is that of the double it is rounded to, or one less
just below a power of two. -/
theorem targetExponent_cases (proper : x.Proper) (takes : x.Takes (u * 2 ^ E))
    (rep : Represents (.ofMantissaAndAccuracy a accuracy) u)
    (enough : E ≤ Format.binary64.targetExponent (totalExponent a E)) :
    Format.binary64.targetExponent (totalExponent a E) = x.exponent ∨
      Format.binary64.targetExponent (totalExponent a E) = x.exponent - 1 ∧
        x.significand = 2 ^ 52 ∧ -1074 < x.exponent ∧ u * 2 ^ E < 2 ^ (52 + x.exponent) := by
  have lower := proper.canonical.lower
  rw [targetExponent_eq] at enough ⊢
  have atMost : max (a.log2 + E - 52) (-1074) ≤ x.exponent := by
    by_cases none : a = 0
    · subst none
      simp only [Nat.log2_zero] at enough ⊢
      omega
    · have order := (rep.two_pow_le none).trans_lt (takes.lt proper)
      rw [zpow_lt_zpow_iff_right₀ one_lt_two] at order
      omega
  by_cases least : x.exponent = -1074
  · omega
  · have below := rep.lt_two_pow (E := E)
    obtain ⟨near, leading⟩ := takes.ge proper (by omega)
    have order := near.trans_lt below
    rw [zpow_lt_zpow_iff_right₀ one_lt_two] at order
    rcases lt_or_ge (u * 2 ^ E) (2 ^ (52 + x.exponent)) with less | reached
    · rcases (by omega : max (a.log2 + E - 52) (-1074) = x.exponent ∨
          max (a.log2 + E - 52) (-1074) = x.exponent - 1) with same | next
      · exact .inl same
      · exact .inr ⟨next, leading less, by omega, less⟩
    · have order := reached.trans_lt below
      rw [zpow_lt_zpow_iff_right₀ one_lt_two] at order
      omega

theorem shiftToTargetExponent_of_represents
    (rep : Represents (.ofMantissaAndAccuracy a accuracy) u)
    (enough : E ≤ Format.binary64.targetExponent (totalExponent a E)) :
    ∃ em, shiftToTargetExponent Format.binary64 a E accuracy =
        (em, Format.binary64.targetExponent (totalExponent a E)) ∧
      Represents em (u * 2 ^ E / 2 ^ Format.binary64.targetExponent (totalExponent a E)) := by
  simp only [shiftToTargetExponent, shiftToExponent]
  generalize Format.binary64.targetExponent (totalExponent a E) = target at enough
  have amount : E + ((target - E).toNat : ℤ) = target := by omega
  refine ⟨_, by rw [amount], ?_⟩
  have shifted := rep.shiftRight (target - E).toNat
  rw [← zpow_natCast] at shifted
  have same : u * 2 ^ E / 2 ^ target = u / 2 ^ ((target - E).toNat : ℤ) := by
    have parts : (2 : ℚ) ^ target = 2 ^ E * 2 ^ ((target - E).toNat : ℤ) := by
      rw [← zpow_add₀ two_ne_zero, amount]
    rw [parts]
    field_simp
  rwa [same]

/-- Rounding gives the double whose rounding interval holds the quantity. -/
theorem roundWithAccuracy_eq (sign : Sign) (proper : x.Proper) (takes : x.Takes (u * 2 ^ E))
    (rep : Represents (.ofMantissaAndAccuracy a accuracy) u)
    (enough : E ≤ Format.binary64.targetExponent (totalExponent a E)) :
    roundWithAccuracy Format.binary64 sign a E accuracy =
      .finite sign x.significand x.exponent proper.positive := by
  obtain ⟨em, first, cut⟩ := shiftToTargetExponent_of_represents rep enough
  rcases targetExponent_cases proper takes rep enough with same | ⟨less, bottom, above, below⟩
  · rw [same] at first cut
    have rounded := cut.roundedMantissa_eq takes.rounds
    have second := shiftToTargetExponent_canonical proper.positive proper.canonical 0
    simp only [Nat.pow_zero, Nat.mul_one, Nat.cast_zero, Int.sub_zero] at second
    simp only [roundWithAccuracy, first, rounded, second]
    rw [dif_neg proper.positive.ne']
  · -- Just below a power of two the last place is half as large: the first cut rounds up to twice
    -- the significand, and the second one halves it.
    rw [less] at first cut
    have half : u * 2 ^ E / 2 ^ (x.exponent - 1) = 2 * (u * 2 ^ E / 2 ^ x.exponent) := by
      rw [zpow_sub_one₀ two_ne_zero]
      field_simp
    have upper : u * 2 ^ E / 2 ^ x.exponent < 2 ^ 52 := by
      rwa [div_lt_iff₀ (by positivity), ← zpow_natCast, ← zpow_add₀ two_ne_zero]
    have lower := takes.narrow (proper.narrow.2 ⟨bottom, above⟩)
    rw [half] at cut
    rw [bottom] at lower
    have rounded : em.roundedMantissa = x.significand * 2 ^ 1 := by
      rw [bottom]
      refine cut.roundedMantissa_eq ⟨?_, ?_, fun _ => by decide⟩
      · push_cast at lower ⊢
        linarith
      · push_cast at lower ⊢
        linarith
    have second := shiftToTargetExponent_canonical proper.positive proper.canonical 1
    simp only [roundWithAccuracy, first, rounded, Nat.cast_one] at second ⊢
    simp only [second]
    rw [dif_neg proper.positive.ne']

end Round

section Operations

variable {x : Scaled} {s₁ s₂ : Sign} {m₁ m₂ : ℕ} {e₁ e₂ : ℤ} {positive₁ : 0 < m₁}
  {positive₂ : 0 < m₂}

theorem mul_finite (proper : x.Proper) (takes : x.Takes (m₁ * 2 ^ e₁ * (m₂ * 2 ^ e₂)))
    (full : 2 ^ 52 ≤ m₁ * m₂) :
    UnpackedFloat.mul Format.binary64 (.finite s₁ m₁ e₁ positive₁) (.finite s₂ m₂ e₂ positive₂) =
      .finite (s₁ * s₂) x.significand x.exponent proper.positive := by
  have value : (m₁ * 2 ^ e₁ * (m₂ * 2 ^ e₂) : ℚ) = (m₁ * m₂ : ℕ) * 2 ^ (e₁ + e₂) := by
    rw [zpow_add₀ two_ne_zero]
    push_cast
    ring
  rw [value] at takes
  refine roundWithAccuracy_eq (s₁ * s₂) proper takes (.exact rfl) ?_
  have bits := (Nat.le_log2 (by omega)).2 full
  rw [targetExponent_eq]
  omega

/-- A quotient is rounded from the division of significands, with enough digits. -/
theorem div_rounds (s₁ s₂ : Sign) (e₁ e₂ : ℤ) (positive₁ : 0 < m₁) (positive₂ : 0 < m₂) :
    ∃ a E accuracy u, UnpackedFloat.div Format.binary64 (.finite s₁ m₁ e₁ positive₁)
        (.finite s₂ m₂ e₂ positive₂) =
          roundWithAccuracy Format.binary64 (s₁ / s₂) a E accuracy ∧
      Represents (.ofMantissaAndAccuracy a accuracy) u ∧
      u * 2 ^ E = m₁ * 2 ^ e₁ / (m₂ * 2 ^ e₂) ∧
      E ≤ Format.binary64.targetExponent (totalExponent a E) := by
  have bits₁ := Nat.log2_self_le positive₁.ne'
  have bits₂ := Nat.lt_log2_self (n := m₂)
  simp only [UnpackedFloat.div, divCore, totalExponent, Format.targetExponent, Format.mantissaBits,
    Format.minExponent, Nat.shiftLeft_eq]
  generalize target : min (e₁ - e₂) (max (m₁.log2 + 1 + e₁ - (m₂.log2 + 1 + e₂) - (1 + 52 : Nat))
    (3 - 2 ^ (11 - 1) - (1 + 52 : Nat))) = E
  obtain ⟨k, amount⟩ : ∃ k : ℕ, e₁ - e₂ = E + k := ⟨(e₁ - e₂ - E).toNat, by omega⟩
  have shift : (e₁ - e₂ - E).toNat = k := by omega
  rw [shift]
  refine ⟨_, _, _, _, rfl, .ofFraction positive₂, ?_, ?_⟩
  · have parts : (2 : ℚ) ^ e₁ = 2 ^ E * 2 ^ k * 2 ^ e₂ := by
      rw [← zpow_natCast, ← zpow_add₀ two_ne_zero, ← zpow_add₀ two_ne_zero, ← amount]
      congr 1
      omega
    have nonzero : (m₂ : ℚ) ≠ 0 := by positivity
    rw [parts]
    push_cast
    field_simp
  · by_cases low : E ≤ -1074
    · omega
    · have room : 53 + m₂.log2 ≤ m₁.log2 + k := by omega
      have quotient : 2 ^ 52 ≤ m₁ * 2 ^ k / m₂ := by
        rw [Nat.le_div_iff_mul_le positive₂]
        calc 2 ^ 52 * m₂ ≤ 2 ^ 52 * 2 ^ (m₂.log2 + 1) := Nat.mul_le_mul_left _ bits₂.le
          _ = 2 ^ (53 + m₂.log2) := by rw [← pow_add]; congr 1; omega
          _ ≤ 2 ^ (m₁.log2 + k) := Nat.pow_le_pow_right (by decide) room
          _ = 2 ^ m₁.log2 * 2 ^ k := pow_add ..
          _ ≤ m₁ * 2 ^ k := Nat.mul_le_mul_right _ bits₁
      have bits := (Nat.le_log2 (by omega)).2 quotient
      omega

theorem div_finite (proper : x.Proper) (takes : x.Takes (m₁ * 2 ^ e₁ / (m₂ * 2 ^ e₂))) :
    UnpackedFloat.div Format.binary64 (.finite s₁ m₁ e₁ positive₁) (.finite s₂ m₂ e₂ positive₂) =
      .finite (s₁ / s₂) x.significand x.exponent proper.positive := by
  obtain ⟨a, E, accuracy, u, rounded, rep, value, enough⟩ :=
    div_rounds s₁ s₂ e₁ e₂ positive₁ positive₂
  rw [← value] at takes
  rw [rounded]
  exact roundWithAccuracy_eq (s₁ / s₂) proper takes rep enough

end Operations

end MediaQuery.Number
