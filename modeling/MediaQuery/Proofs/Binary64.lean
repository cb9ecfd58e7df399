import Mathlib
import MediaQuery.Number

set_option autoImplicit false

namespace MediaQuery.Number

open Float.Model Float.Model.UnpackedFloat

section Fields

variable (b : BitVec Format.binary64.numBits)

theorem unpackSign_toNat : (unpackSign b).toNat = b.toNat / 2 ^ 63 % 2 := by
  simp [unpackSign, BitVec.extractLsb_toNat, Nat.shiftRight_eq_div_pow]

theorem unpackExponent_toNat : (unpackExponent b).toNat = b.toNat / 2 ^ 52 % 2 ^ 11 := by
  simp [unpackExponent, BitVec.extractLsb_toNat, Nat.shiftRight_eq_div_pow]

theorem unpackMantissa_toNat : (unpackMantissa b).toNat = b.toNat % 2 ^ 52 := by
  simp [unpackMantissa, BitVec.extractLsb_toNat]

theorem packComponents_toNat (s : Sign) (e : BitVec 11) (m : BitVec 52) :
    (packComponents Format.binary64 s e m).toNat =
      s.toBitVec.toNat * 2 ^ 63 + e.toNat * 2 ^ 52 + m.toNat := by
  have exponentBound := e.isLt
  have fractionBound := m.isLt
  simp only [packComponents, BitVec.toNat_append]
  rw [← Nat.shiftLeft_add_eq_or_of_lt fractionBound, ← Nat.shiftLeft_add_eq_or_of_lt exponentBound]
  simp only [Nat.shiftLeft_eq]
  omega

theorem toBitVec_ofBitVec (v : BitVec 1) : (Sign.ofBitVec v).toBitVec = v := by
  revert v
  decide

/-- Every word is made up of the three fields that unpacking reads. -/
theorem packComponents_unpack :
    packComponents Format.binary64 (Sign.ofBitVec (unpackSign b)) (unpackExponent b)
      (unpackMantissa b) = b := by
  apply BitVec.eq_of_toNat_eq
  have bound : b.toNat < 2 ^ 64 := b.isLt
  rw [packComponents_toNat, toBitVec_ofBitVec, unpackSign_toNat, unpackExponent_toNat,
    unpackMantissa_toNat]
  omega

theorem unpackSign_packComponents (s : Sign) (e : BitVec 11) (m : BitVec 52) :
    unpackSign (packComponents Format.binary64 s e m) = s.toBitVec := by
  apply BitVec.eq_of_toNat_eq
  have exponentBound := e.isLt
  have fractionBound := m.isLt
  have signBound := s.toBitVec.isLt
  rw [unpackSign_toNat, packComponents_toNat]
  omega

end Fields

def unpacked (x : Float) : UnpackedFloat := x.toModel.unpack

def packed (u : UnpackedFloat) : Float := .ofModel (.pack u)

theorem mul_eq_packed (x y : Float) :
    x * y = packed (UnpackedFloat.mul Format.binary64 (unpacked x) (unpacked y)) := rfl

/-- The bits of a double, as the format divides them. -/
def word (x : Float) : BitVec Format.binary64.numBits := x.toBits.toBitVec

theorem word_packed (u : UnpackedFloat) : word (packed u) = UnpackedFloat.pack Format.binary64 u :=
  rfl

theorem magnitude_eq_fields (x : Float) :
    magnitude x = (unpackExponent (word x)).toNat * 2 ^ 52 + (unpackMantissa (word x)).toNat := by
  change (word x).toNat % 2 ^ 63 = _
  rw [unpackExponent_toNat, unpackMantissa_toNat]
  omega

theorem signBit_iff_field (x : Float) :
    signBit x = true ↔ Sign.ofBitVec (unpackSign (word x)) = .negative := by
  have bound : (word x).toNat < 2 ^ 64 := (word x).isLt
  have top := unpackSign_toNat (word x)
  have one : Sign.ofBitVec (unpackSign (word x)) = .negative ↔ (unpackSign (word x)).toNat = 1 := by
    rcases BitVec.eq_zero_or_eq_one (unpackSign (word x)) with zero | one
    · simp [zero, Sign.ofBitVec]
    · simp [one, Sign.ofBitVec]
  rw [one, top]
  change decide (2 ^ 63 ≤ (word x).toNat) = true ↔ _
  rw [decide_eq_true_iff]
  omega

/-- A finite value in the one form that unpacking gives: with a full significand, or with the
smallest exponent. -/
structure Canonical (m : Nat) (e : Int) : Prop where
  bound : m < 2 ^ 53
  lower : -1074 ≤ e
  full : 2 ^ 52 ≤ m ∨ e = -1074

/-- What unpacking gives, beside the magnitude of the double. -/
inductive Unpacks (x : Float) : UnpackedFloat → Prop where
  | notANumber (above : infiniteMagnitude < magnitude x) : Unpacks x .notANumber
  | infinity (s : Sign) (level : magnitude x = infiniteMagnitude) : Unpacks x (.infinity s)
  | zero (s : Sign) (level : magnitude x = 0) : Unpacks x (.zero s)
  | finite (s : Sign) (m : Nat) (e : Int) (positive : 0 < m) (canonical : Canonical m e)
      (above : 0 < magnitude x) (below : magnitude x < infiniteMagnitude) :
      Unpacks x (.finite s m e positive)

theorem significand_toNat (v : BitVec 52) : (1#1 ++ v).toNat = 2 ^ 52 + v.toNat := by
  rw [BitVec.toNat_append, ← Nat.shiftLeft_add_eq_or_of_lt v.isLt]
  rfl

/-- The kinds of words by their fields, and what each is unpacked to. -/
inductive Decodes (b : BitVec Format.binary64.numBits) : UnpackedFloat → Prop where
  | notANumber (top : unpackExponent b = -1#_) (some : unpackMantissa b ≠ 0#_) :
      Decodes b .notANumber
  | infinity (top : unpackExponent b = -1#_) (none : unpackMantissa b = 0#_) :
      Decodes b (.infinity (Sign.ofBitVec (unpackSign b)))
  | zero (bottom : unpackExponent b = 0#_) (none : unpackMantissa b = 0#_) :
      Decodes b (.zero (Sign.ofBitVec (unpackSign b)))
  | subnormal (bottom : unpackExponent b = 0#_) (positive : 0 < (unpackMantissa b).toNat) :
      Decodes b (.finite (Sign.ofBitVec (unpackSign b)) (unpackMantissa b).toNat (-1074) positive)
  | normal (above : 0 < (unpackExponent b).toNat) (below : (unpackExponent b).toNat < 2047)
      (positive : 0 < 2 ^ 52 + (unpackMantissa b).toNat) :
      Decodes b (.finite (Sign.ofBitVec (unpackSign b)) (2 ^ 52 + (unpackMantissa b).toNat)
        ((unpackExponent b).toNat - 1075) positive)

theorem decodes (b : BitVec Format.binary64.numBits) :
    Decodes b (UnpackedFloat.unpack Format.binary64 b) := by
  unfold UnpackedFloat.unpack
  by_cases top : unpackExponent b = -1#_
  · by_cases none : unpackMantissa b = 0#_
    · simp only [top, none, if_true]
      exact .infinity top none
    · simp only [top, none, if_true, if_false]
      exact .notANumber top none
  · by_cases bottom : unpackExponent b = 0#_
    · by_cases none : unpackMantissa b = 0#_
      · rw [if_neg top, if_pos bottom, dif_pos none]
        exact .zero bottom none
      · rw [if_neg top, if_pos bottom, dif_neg none]
        simp only [bottom]
        exact .subnormal bottom _
    · have below : (unpackExponent b).toNat ≠ 2047 := by
        intro field
        exact top (BitVec.eq_of_toNat_eq field)
      have above : (unpackExponent b).toNat ≠ 0 := by
        intro field
        exact bottom (BitVec.eq_of_toNat_eq field)
      have bound : (unpackExponent b).toNat < 2 ^ 11 := (unpackExponent b).isLt
      rw [if_neg top, if_neg bottom]
      simp only [significand_toNat]
      exact .normal (by omega) (by omega) _

theorem unpacks (x : Float) : Unpacks x (unpacked x) := by
  have level := magnitude_eq_fields x
  have fraction : (unpackMantissa (word x)).toNat < 2 ^ 52 := (unpackMantissa (word x)).isLt
  have decoded := decodes (word x)
  change Unpacks x (UnpackedFloat.unpack Format.binary64 (word x))
  generalize UnpackedFloat.unpack Format.binary64 (word x) = u at decoded
  cases decoded with
  | notANumber top some =>
    have nonzero : (unpackMantissa (word x)).toNat ≠ 0 := by
      intro zero
      exact some (BitVec.eq_of_toNat_eq zero)
    refine .notANumber ?_
    rw [level, top, infiniteMagnitude]
    change _ < 2047 * 2 ^ 52 + _
    omega
  | infinity top none =>
    refine .infinity _ ?_
    rw [level, top, none]
    rfl
  | zero bottom none =>
    refine .zero _ ?_
    rw [level, bottom, none]
    rfl
  | subnormal bottom positive =>
    rw [bottom, BitVec.toNat_ofNat, Nat.zero_mod, Nat.zero_mul] at level
    refine .finite _ _ _ _ ⟨by omega, by decide, .inr rfl⟩ (by omega) ?_
    unfold infiniteMagnitude
    omega
  | normal above below positive =>
    refine .finite _ _ _ _ ⟨by omega, by omega, .inl (by omega)⟩ (by omega) ?_
    unfold infiniteMagnitude
    omega

theorem log2_of_full {m : Nat} (lower : 2 ^ 52 ≤ m) (upper : m < 2 ^ 53) : m.log2 = 52 := by
  have positive : m ≠ 0 := by omega
  have atLeast := (Nat.le_log2 positive).2 lower
  have below := (Nat.log2_lt positive).2 upper
  omega

/-- Packing what was unpacked gives the word back; the check of the format rules out all but one
word for what is not a number. -/
theorem pack_unpack (b : BitVec Format.binary64.numBits) (valid : Format.binary64.Valid b) :
    UnpackedFloat.pack Format.binary64 (UnpackedFloat.unpack Format.binary64 b) = b := by
  have fields := packComponents_unpack b
  have fraction : (unpackMantissa b).toNat < 2 ^ 52 := (unpackMantissa b).isLt
  have decoded := decodes b
  generalize UnpackedFloat.unpack Format.binary64 b = u at decoded
  cases decoded with
  | notANumber top some => exact (valid.eq_packedNaN top some).symm
  | infinity top none =>
    rw [top, none] at fields
    exact fields
  | zero bottom none =>
    rw [bottom, none] at fields
    exact fields
  | subnormal bottom positive =>
    have small : (unpackMantissa b).toNat.log2 < 52 :=
      (Nat.log2_lt (Nat.ne_of_gt positive)).2 fraction
    rw [bottom] at fields
    simp only [UnpackedFloat.pack]
    rw [if_neg (by decide), if_neg (by simp only [Format.mantissaBits]; omega)]
    rw [BitVec.ofNat_toNat, BitVec.setWidth_eq]
    exact fields
  | normal above below positive =>
    have full : (2 ^ 52 + (unpackMantissa b).toNat).log2 = 52 :=
      log2_of_full (by omega) (by omega)
    have biased : ((unpackExponent b).toNat - 1075 + Format.binary64.exponentBias +
        (52 : Nat) : Int).toNat = (unpackExponent b).toNat := by
      change ((unpackExponent b).toNat - 1075 + (1023 : Int) + (52 : Nat)).toNat = _
      omega
    have sameFraction : BitVec.ofNat 52 (2 ^ 52 + (unpackMantissa b).toNat) =
        unpackMantissa b := by
      apply BitVec.eq_of_toNat_eq
      rw [BitVec.toNat_ofNat]
      omega
    simp only [UnpackedFloat.pack]
    rw [biased, if_neg (by omega), if_pos (by rw [full]; rfl)]
    rw [sameFraction, BitVec.ofNat_toNat, BitVec.setWidth_eq]
    exact fields

/-- Unpacking loses nothing. -/
theorem packed_unpacked (x : Float) : packed (unpacked x) = x := by
  obtain ⟨⟨bits, valid⟩⟩ := x
  have same := pack_unpack bits.toBitVec valid
  simp only [packed, unpacked, Float.Model.pack, Float.Model.unpack, same]

section Packed

variable {x : Float} {s : Sign} {e : BitVec 11} {m : BitVec 52}

theorem magnitude_of_components (fields : word x = packComponents Format.binary64 s e m) :
    magnitude x = e.toNat * 2 ^ 52 + m.toNat := by
  rw [magnitude_eq_fields, fields, unpackExponent_packComponents, unpackMantissa_packComponents]

theorem signBit_of_components (fields : word x = packComponents Format.binary64 s e m) :
    signBit x = true ↔ s = .negative := by
  rw [signBit_iff_field, fields, unpackSign_packComponents]
  cases s <;> simp [Sign.toBitVec, Sign.ofBitVec]

end Packed

/-- The sign of an unpacked value; what is no number has a positive one. -/
def signOf : UnpackedFloat → Sign
  | .notANumber => .positive
  | .infinity s | .zero s | .finite s _ _ _ => s

/-- Packing a finite value gives a number, which may be infinite if the value is too large. -/
theorem pack_finite_components (s : Sign) (m : Nat) (e : Int) (positive : 0 < m) :
    ∃ exponent fraction, UnpackedFloat.pack Format.binary64 (.finite s m e positive) =
        packComponents Format.binary64 s exponent fraction ∧
      (exponent.toNat * 2 ^ 52 + fraction.toNat ≤ infiniteMagnitude) := by
  simp only [UnpackedFloat.pack]
  split
  · exact ⟨-1#_, 0, rfl, by decide⟩
  · rename_i small
    split
    · refine ⟨_, _, rfl, ?_⟩
      rw [BitVec.toNat_ofNat, BitVec.toNat_ofNat]
      unfold infiniteMagnitude
      omega
    · refine ⟨_, _, rfl, ?_⟩
      rw [BitVec.toNat_ofNat]
      unfold infiniteMagnitude
      simp
      omega

theorem isNaN_packed (u : UnpackedFloat) : isNaN (packed u) = true ↔ u = .notANumber := by
  rw [isNaN, decide_eq_true_iff]
  cases u with
  | notANumber => simp; decide
  | infinity s =>
    have level := magnitude_of_components (x := packed (.infinity s)) (word_packed _)
    simp [level]
    decide
  | zero s =>
    have level := magnitude_of_components (x := packed (.zero s)) (word_packed _)
    simp [level]
  | finite s m e positive =>
    obtain ⟨exponent, fraction, fields, bound⟩ := pack_finite_components s m e positive
    have level := magnitude_of_components ((word_packed _).trans fields)
    simp [level]
    omega

theorem signBit_packed (u : UnpackedFloat) : signBit (packed u) = true ↔ signOf u = .negative := by
  cases u with
  | notANumber => exact signBit_of_components (word_packed _)
  | infinity s => exact signBit_of_components (word_packed _)
  | zero s => exact signBit_of_components (word_packed _)
  | finite s m e positive =>
    obtain ⟨exponent, fraction, fields, bound⟩ := pack_finite_components s m e positive
    exact signBit_of_components ((word_packed _).trans fields)

theorem isNaN_iff_unpacked (x : Float) : isNaN x = true ↔ unpacked x = .notANumber := by
  rw [← isNaN_packed, packed_unpacked]

theorem signBit_iff_unpacked (x : Float) :
    signBit x = true ↔ signOf (unpacked x) = .negative := by
  rw [← signBit_packed, packed_unpacked]

private theorem repeat_shiftRightOne (n m : Nat) :
    n.repeat ExtendedMantissa.shiftRightOne ⟨m * 2 ^ n, false, false⟩ = ⟨m, false, false⟩ := by
  induction n generalizing m with
  | zero => simp [Nat.repeat]
  | succ n ih =>
    have doubled : m * 2 ^ (n + 1) = (m * 2) * 2 ^ n := by
      rw [Nat.pow_succ, Nat.mul_comm (2 ^ n) 2, Nat.mul_assoc]
    rw [Nat.repeat, doubled, ih]
    simp [ExtendedMantissa.shiftRightOne]

/-- Shifting out zeros is exact. -/
theorem shiftToExponent_exact (m n : Nat) (e : Int) :
    shiftToExponent (m * 2 ^ n) (e - n) .exact e = (⟨m, false, false⟩, e) := by
  have amount : (e - (e - n)).toNat = n := by omega
  simp only [shiftToExponent, amount]
  refine Prod.ext ?_ ?_
  · exact repeat_shiftRightOne n m
  · simp

theorem targetExponent_of_canonical {m : Nat} {e : Int} (positive : 0 < m)
    (canonical : Canonical m e) :
    Format.binary64.targetExponent (totalExponent m e) = e := by
  have nonzero : m ≠ 0 := by omega
  have below := (Nat.log2_lt nonzero).2 canonical.bound
  have lower := canonical.lower
  simp only [Format.targetExponent, totalExponent, Format.minExponent, Format.mantissaBits]
  rcases canonical.full with full | least
  · have log := log2_of_full full canonical.bound
    omega
  · omega

theorem log2_mul_two_pow {m : Nat} (positive : 0 < m) (n : Nat) :
    (m * 2 ^ n).log2 = m.log2 + n := by
  induction n with
  | zero => simp
  | succ n ih =>
    have nonzero : m * 2 ^ n ≠ 0 := Nat.mul_ne_zero (by omega) (by simp)
    rw [Nat.pow_succ, ← Nat.mul_assoc, Nat.mul_comm _ 2, Nat.log2_two_mul nonzero, ih,
      Nat.add_assoc]

theorem totalExponent_shifted {m : Nat} (positive : 0 < m) (n : Nat) (e : Int) :
    totalExponent (m * 2 ^ n) (e - n) = totalExponent m e := by
  simp only [totalExponent, log2_mul_two_pow positive]
  omega

theorem shiftToTargetExponent_canonical {m : Nat} {e : Int} (positive : 0 < m)
    (canonical : Canonical m e) (n : Nat) :
    shiftToTargetExponent Format.binary64 (m * 2 ^ n) (e - n) .exact = (⟨m, false, false⟩, e) := by
  rw [shiftToTargetExponent, totalExponent_shifted positive,
    targetExponent_of_canonical positive canonical, shiftToExponent_exact]

/-- A canonical value is not changed by rounding, however many zeros are written behind it. -/
theorem roundWithAccuracy_canonical (s : Sign) {m : Nat} {e : Int} (positive : 0 < m)
    (canonical : Canonical m e) (n : Nat) :
    roundWithAccuracy Format.binary64 s (m * 2 ^ n) (e - n) .exact = .finite s m e positive := by
  have first := shiftToTargetExponent_canonical positive canonical n
  have second := shiftToTargetExponent_canonical positive canonical 0
  simp only [Nat.pow_zero, Nat.mul_one, Nat.cast_zero, Int.sub_zero] at second
  have kept : (⟨m, false, false⟩ : ExtendedMantissa).roundedMantissa = m := rfl
  simp only [roundWithAccuracy, first, kept, second]
  rw [dif_neg (by omega)]

theorem unpacked_one : unpacked 1 = .finite .positive (2 ^ 52) (-52) (by decide) := by
  have bits : word 1 = 0x3FF0000000000000#64 := by decide
  change UnpackedFloat.unpack Format.binary64 (word 1) = _
  rw [bits]
  rfl

theorem mul_one (x : Float) : x * 1 = x := by
  rw [mul_eq_packed, unpacked_one]
  have same : UnpackedFloat.mul Format.binary64 (unpacked x)
      (.finite .positive (2 ^ 52) (-52) (by decide)) = unpacked x := by
    have sign (s : Sign) : s * .positive = s := by cases s <;> rfl
    have view := unpacks x
    generalize unpacked x = u at view
    cases view with
    | notANumber above => rfl
    | infinity s level => exact congrArg UnpackedFloat.infinity (sign s)
    | zero s level => exact congrArg UnpackedFloat.zero (sign s)
    | finite s m e positive canonical above below =>
      have rounded := roundWithAccuracy_canonical s positive canonical 52
      rw [UnpackedFloat.mul, sign]
      exact rounded
  rw [same, packed_unpacked]

theorem mul_comm (x y : Float) : x * y = y * x := by
  rw [mul_eq_packed, mul_eq_packed]
  have sign (s t : Sign) : s * t = t * s := by cases s <;> cases t <;> rfl
  cases unpacked x <;> cases unpacked y <;>
    simp only [UnpackedFloat.mul, sign, Nat.mul_comm, Int.add_comm]

theorem one_mul (x : Float) : 1 * x = x := by rw [mul_comm, mul_one]

theorem isZero_packed_zero (s : Sign) : isZero (packed (.zero s)) = true := by
  have level := magnitude_of_components (x := packed (.zero s)) (word_packed _)
  simp [isZero, level]

theorem isZero_iff_unpacked (x : Float) : isZero x = true ↔ ∃ s, unpacked x = .zero s := by
  rw [isZero, beq_iff_eq]
  have view := unpacks x
  generalize unpacked x = u at view
  cases view with
  | notANumber above =>
    have nonzero : magnitude x ≠ 0 := by omega
    simp [nonzero]
  | infinity s level => simp [level, infiniteMagnitude]
  | zero s level => simp [level]
  | finite s m e positive canonical above below =>
    have nonzero : magnitude x ≠ 0 := by omega
    simp [nonzero]

/-- A double is a number from zero on iff it is a zero or a number with a positive sign. -/
theorem isNonNegative_iff (x : Float) :
    isNonNegative x = true ↔ isNaN x = false ∧ (signBit x = false ∨ isZero x = true) := by
  simp only [isNonNegative, rank, isZero, Bool.and_eq_true, Bool.not_eq_true', beq_iff_eq]
  refine and_congr_right fun number => ?_
  by_cases sign : signBit x = true
  · simp [sign]
  · simp [sign]

/-- An unpacked value that is no number below zero. -/
def Upward : UnpackedFloat → Prop
  | .notANumber | .zero _ => True
  | .infinity s | .finite s _ _ _ => s = .positive

theorem upward_of_isNonNegative {x : Float} (hx : isNonNegative x = true) :
    Upward (unpacked x) := by
  obtain ⟨number, sign | zero⟩ := (isNonNegative_iff x).1 hx
  · rw [← Bool.not_eq_true, signBit_iff_unpacked] at sign
    cases u : unpacked x <;> rw [u] at sign
    case notANumber => trivial
    case zero s => trivial
    case infinity s => cases s <;> simp_all [signOf, Upward]
    case finite s m e positive => cases s <;> simp_all [signOf, Upward]
  · obtain ⟨s, zero⟩ := (isZero_iff_unpacked x).1 zero
    rw [zero]
    trivial

theorem isNonNegative_packed {u : UnpackedFloat} (number : isNaN (packed u) = false)
    (upward : Upward u) : isNonNegative (packed u) = true := by
  rw [isNonNegative_iff, ← Bool.not_eq_true (signBit _), signBit_packed]
  refine ⟨number, ?_⟩
  cases u with
  | notANumber => simp [signOf]
  | zero s => exact .inr (isZero_packed_zero s)
  | infinity s =>
    cases upward
    simp [signOf]
  | finite s m e positive =>
    cases upward
    simp [signOf]

theorem upward_roundWithAccuracy {s : Sign} (sign : s = .positive) (m : Nat) (e : Int)
    (accuracy : Accuracy) : Upward (roundWithAccuracy Format.binary64 s m e accuracy) := by
  simp only [roundWithAccuracy]
  split
  · trivial
  · exact sign

theorem roundWithAccuracy_ne_notANumber (s : Sign) (m : Nat) (e : Int) (accuracy : Accuracy) :
    roundWithAccuracy Format.binary64 s m e accuracy ≠ .notANumber := by
  simp only [roundWithAccuracy]
  split <;> nofun

theorem upward_div {u v : UnpackedFloat} (left : Upward u) (right : Upward v)
    (nonzero : ∀ s, v ≠ .zero s) : Upward (UnpackedFloat.div Format.binary64 u v) := by
  cases u <;> cases v <;> try trivial
  case infinity.zero s => exact absurd rfl (nonzero s)
  case finite.zero s => exact absurd rfl (nonzero s)
  all_goals
    cases left
    cases right
  case finite.finite => exact upward_roundWithAccuracy rfl _ _ _
  all_goals rfl

/-- A quotient of numbers from zero on is such a number, unless it is none or the divisor is
zero. -/
theorem isNonNegative_div {x y : Float} (hx : isNonNegative x = true) (hy : isNonNegative y = true)
    (nonzero : isZero y = false) (number : isNaN (x / y) = false) :
    isNonNegative (x / y) = true := by
  refine isNonNegative_packed number
    (upward_div (upward_of_isNonNegative hx) (upward_of_isNonNegative hy) ?_)
  intro s zero
  rw [← Bool.not_eq_true] at nonzero
  exact nonzero ((isZero_iff_unpacked y).2 ⟨s, zero⟩)

theorem not_isNaN_of_isZero {x : Float} (zero : isZero x = true) : isNaN x = false := by
  rw [isZero, beq_iff_eq] at zero
  simp [isNaN, zero]

theorem not_isNaN_of_isFinite {x : Float} (finite : isFinite x = true) : isNaN x = false := by
  rw [isFinite, decide_eq_true_iff] at finite
  rw [isNaN, decide_eq_false_iff_not]
  omega

theorem isZero_mul {x y : Float} (zero : isZero x = true) (finite : isFinite y = true) :
    isZero (x * y) = true := by
  obtain ⟨sign, zero⟩ := (isZero_iff_unpacked x).1 zero
  rw [isFinite, decide_eq_true_iff] at finite
  rw [mul_eq_packed, zero]
  have view := unpacks y
  generalize unpacked y = u at view
  cases view with
  | notANumber above => omega
  | infinity s level => omega
  | zero s level => exact isZero_packed_zero _
  | finite s m e positive canonical above below => exact isZero_packed_zero _

theorem unpacked_infinity : unpacked infinity = .infinity .positive := by
  have bits : word infinity = 0x7FF0000000000000#64 := by decide
  change UnpackedFloat.unpack Format.binary64 (word infinity) = _
  rw [bits]
  rfl

theorem isNaN_infinite_mul {x y : Float} {sign : Sign} (infinite : unpacked x = .infinity sign)
    (zero : isZero y = true) : isNaN (x * y) = true := by
  obtain ⟨s, zero⟩ := (isZero_iff_unpacked y).1 zero
  rw [mul_eq_packed, infinite, zero, isNaN_packed]
  rfl

/-- An infinity times a number above zero is itself. -/
theorem infinite_mul {x y : Float} {sign : Sign} (infinite : unpacked x = .infinity sign)
    (above : isNonNegative y = true) (nonzero : isZero y = false) : x * y = x := by
  have number := ((isNonNegative_iff y).1 above).1
  have upward := upward_of_isNonNegative above
  rw [← Bool.not_eq_true, isNaN_iff_unpacked] at number
  rw [← Bool.not_eq_true, isZero_iff_unpacked, not_exists] at nonzero
  have same : UnpackedFloat.mul Format.binary64 (.infinity sign) (unpacked y) =
      .infinity sign := by
    generalize unpacked y = u at number nonzero upward
    cases u with
    | notANumber => exact absurd rfl number
    | zero s => exact absurd rfl (nonzero s)
    | infinity s =>
      cases upward
      cases sign <;> rfl
    | finite s m e positive =>
      cases upward
      cases sign <;> rfl
  rw [mul_eq_packed, infinite, same, ← infinite, packed_unpacked]

theorem isNaN_infinity_mul {y : Float} (zero : isZero y = true) : isNaN (infinity * y) = true :=
  isNaN_infinite_mul unpacked_infinity zero

theorem infinity_mul {y : Float} (above : isNonNegative y = true) (nonzero : isZero y = false) :
    infinity * y = infinity :=
  infinite_mul unpacked_infinity above nonzero

theorem pack_full (s : Sign) {m : Nat} {e : Int} (positive : 0 < m) (full : 2 ^ 52 ≤ m)
    (bound : m < 2 ^ 53) (lower : -1074 ≤ e) (upper : e ≤ 971) :
    UnpackedFloat.pack Format.binary64 (.finite s m e positive) =
      packComponents Format.binary64 s (BitVec.ofNat 11 (e + 1075).toNat) (BitVec.ofNat 52 m) := by
  have biased : (e + Format.binary64.exponentBias + (52 : Nat)).toNat = (e + 1075).toNat := by
    simp only [Format.exponentBias]
    omega
  simp only [UnpackedFloat.pack]
  rw [biased, if_neg (by omega), if_pos (by rw [log2_of_full full bound]; rfl)]

theorem pack_subnormal (s : Sign) {m : Nat} (positive : 0 < m) (small : m < 2 ^ 52) :
    UnpackedFloat.pack Format.binary64 (.finite s m (-1074) positive) =
      packComponents Format.binary64 s 0#_ (BitVec.ofNat 52 m) := by
  have log : m.log2 < 52 := (Nat.log2_lt (Nat.ne_of_gt positive)).2 small
  simp only [UnpackedFloat.pack]
  rw [if_neg (by decide), if_neg (by simp only [Format.mantissaBits]; omega)]

theorem magnitude_packed_full (s : Sign) {m : Nat} {e : Int} (positive : 0 < m)
    (full : 2 ^ 52 ≤ m) (bound : m < 2 ^ 53) (lower : -1074 ≤ e) (upper : e ≤ 971) :
    magnitude (packed (.finite s m e positive)) = (e + 1075).toNat * 2 ^ 52 + (m - 2 ^ 52) := by
  have fields := (word_packed _).trans (pack_full s positive full bound lower upper)
  rw [magnitude_of_components fields, BitVec.toNat_ofNat, BitVec.toNat_ofNat]
  omega

theorem ofNat_eq_finite {n : Nat} (positive : 0 < n) (bound : n < 2 ^ 53) :
    ∃ shifted : 0 < n * 2 ^ (52 - n.log2),
      Canonical (n * 2 ^ (52 - n.log2)) (0 - (52 - n.log2 : Nat)) ∧
      UnpackedFloat.ofNat Format.binary64 n =
        .finite .positive (n * 2 ^ (52 - n.log2)) (0 - (52 - n.log2 : Nat)) shifted := by
  have nonzero : n ≠ 0 := by omega
  have small := (Nat.log2_lt nonzero).2 bound
  have lower := (Nat.le_log2 nonzero).1 (Nat.le_refl n.log2)
  have upper := (Nat.log2_lt nonzero).1 (Nat.lt_succ_self n.log2)
  have target : Format.binary64.targetExponent (totalExponent n 0) = 0 - (52 - n.log2 : Nat) := by
    simp only [Format.targetExponent, totalExponent, Format.minExponent, Format.mantissaBits]
    omega
  have amount : (0 - (0 - (52 - n.log2 : Nat) : Int)).toNat = 52 - n.log2 := by omega
  have canonical : Canonical (n * 2 ^ (52 - n.log2)) (0 - (52 - n.log2 : Nat)) := by
    have bottom : 2 ^ n.log2 * 2 ^ (52 - n.log2) = 2 ^ 52 := by
      rw [← Nat.pow_add]
      congr 1
      omega
    have top : 2 ^ (n.log2 + 1) * 2 ^ (52 - n.log2) = 2 ^ 53 := by
      rw [← Nat.pow_add]
      congr 1
      omega
    refine ⟨?_, by omega, .inl ?_⟩
    · rw [← top]
      exact Nat.mul_lt_mul_of_pos_right upper (Nat.two_pow_pos _)
    · rw [← bottom]
      exact Nat.mul_le_mul_right _ lower
  have shifted : 0 < n * 2 ^ (52 - n.log2) := Nat.mul_pos positive (Nat.two_pow_pos _)
  refine ⟨shifted, canonical, ?_⟩
  have above : compare (n : Int) 0 = .gt := Int.compare_eq_gt.2 (by omega)
  have rounded := roundWithAccuracy_canonical .positive shifted canonical 0
  simp only [UnpackedFloat.ofNat, UnpackedFloat.ofInt, UnpackedFloat.normalize, above,
    UnpackedFloat.round, target, decreaseExponent, Int.toNat_natCast, amount, Nat.shiftLeft_eq]
  simpa using rounded

end MediaQuery.Number
