import MediaQuery.Proofs.Shortest
import MediaQuery.Proofs.Spelling

set_option autoImplicit false

namespace MediaQuery.Decimal

open Number Float.Model Float.Model.UnpackedFloat

theorem unpacked_natural {n : ℕ} (positive : 0 < n) (bound : n < 2 ^ 53) :
    ∃ m e, ∃ above : 0 < m, unpacked n.toUInt64.toFloat = .finite .positive m e above ∧
      2 ^ 52 ≤ m ∧ (m * 2 ^ e : ℚ) = n := by
  obtain ⟨shifted, canonical, finite⟩ := ofNat_eq_finite positive bound
  have word : n.toUInt64.toNat = n := by
    rw [Nat.toUInt64, UInt64.toNat_ofNat']
    exact Nat.mod_eq_of_lt (by omega)
  have small := (Nat.log2_lt (by omega)).2 bound
  have read : n.toUInt64.toFloat = packed (.finite .positive (n * 2 ^ (52 - n.log2))
      (0 - (52 - n.log2 : ℕ)) shifted) := by
    rw [← finite]
    change packed (UnpackedFloat.ofNat Format.binary64 n.toUInt64.toNat) = _
    rw [word]
  refine ⟨n * 2 ^ (52 - n.log2), 0 - (52 - n.log2 : ℕ), shifted, ?_, ?_, ?_⟩
  · rw [read, unpacked_packed shifted canonical (by omega)]
  · calc 2 ^ 52 = 2 ^ n.log2 * 2 ^ (52 - n.log2) := by rw [← pow_add]; congr 1; omega
      _ ≤ n * 2 ^ (52 - n.log2) := Nat.mul_le_mul_right _ (Nat.log2_self_le (by omega))
  · rw [zero_sub, zpow_neg, zpow_natCast]
    push_cast
    field_simp

theorem size_powersOfTen : Float.exactlyRepresentablePowersOfTen.size = 23 := rfl

/-- The powers of ten in the table are exact. -/
theorem unpacked_powerOfTen {i : ℕ} (bound : i < Float.exactlyRepresentablePowersOfTen.size) :
    ∃ m e, ∃ above : 0 < m, unpacked (Float.exactlyRepresentablePowersOfTen[i]) =
      .finite .positive m e above ∧ (m * 2 ^ e : ℚ) = 10 ^ i := by
  have listed : ∀ i : Fin 23, isFinite Float.exactlyRepresentablePowersOfTen[i] = true ∧
      isZero Float.exactlyRepresentablePowersOfTen[i] = false ∧
      signBit Float.exactlyRepresentablePowersOfTen[i] = false ∧
      (scaled Float.exactlyRepresentablePowersOfTen[i]).isWhole = true ∧
      gridFloor (scaled Float.exactlyRepresentablePowersOfTen[i]) 0 = 10 ^ i.val := by
    decide
  obtain ⟨finite, nonzero, unsigned, whole, same⟩ := listed ⟨i, bound⟩
  obtain ⟨-, above, split⟩ := unpacked_eq_finite finite nonzero
  have value := gridFloor_zero whole
  rw [same] at value
  rw [sign, unsigned] at split
  exact ⟨_, _, above, split, by exact_mod_cast value.symm⟩

section Reading

variable {d : Decimal} {x : Scaled}

theorem value_of_nonneg (whole : 0 ≤ d.exponent) :
    d.value = d.digits * 10 ^ d.exponent.natAbs := by
  rw [value, ← zpow_natCast, Int.natAbs_of_nonneg whole]

theorem value_of_neg (below : d.exponent < 0) :
    d.value = d.digits / 10 ^ d.exponent.natAbs := by
  rw [value, div_eq_mul_inv, ← zpow_natCast, ← zpow_neg]
  congr 2
  omega

/-- What is rounded to a double other than zero is not far below the least of them. -/
theorem two_pow_le (proper : x.Proper) {v : ℚ} (takes : x.Takes v) : 2 ^ (-1075 : ℤ) ≤ v := by
  have unit : (0 : ℚ) < 2 ^ x.exponent := by positivity
  have lower := takes.rounds.lower
  rw [le_div_iff₀ unit] at lower
  have one : (1 : ℚ) ≤ x.significand := by exact_mod_cast proper.positive
  have least : (2 : ℚ) ^ (-1074 : ℤ) ≤ 2 ^ x.exponent :=
    zpow_le_zpow_right₀ one_le_two proper.canonical.lower
  have half : (2 : ℚ) ^ (-1075 : ℤ) = 1 / 2 * 2 ^ (-1074 : ℤ) := by
    rw [show (-1075 : ℤ) = -1074 - 1 by norm_num, zpow_sub_one₀ two_ne_zero]
    ring
  calc (2 : ℚ) ^ (-1075 : ℤ) = 1 / 2 * 2 ^ (-1074 : ℤ) := half
    _ ≤ 1 / 2 * 2 ^ x.exponent := by linarith
    _ ≤ (x.significand - 1 / 2) * 2 ^ x.exponent := by gcongr; linarith
    _ ≤ v := lower

theorem lt_two_pow (proper : x.Proper) {v : ℚ} (takes : x.Takes v) : v < 2 ^ (1024 : ℤ) := by
  refine (takes.lt proper).trans_le (zpow_le_zpow_right₀ one_le_two ?_)
  have upper := proper.upper
  omega

/-- A decimal that is rounded to a double other than zero is within the bounds that are read. -/
theorem within_bounds (proper : x.Proper) (takes : x.Takes d.value) :
    d.digits ≠ 0 ∧ d.exponent ≤ 400 ∧ -400 ≤ d.exponent + d.digits.log2 := by
  have low := two_pow_le proper takes
  have high := lt_two_pow proper takes
  have some : d.digits ≠ 0 := by
    intro none
    rw [value, none, Nat.cast_zero, zero_mul] at low
    exact absurd low (by norm_num)
  refine ⟨some, ?_, ?_⟩
  · by_contra beyond
    refine absurd high (not_lt.2 ?_)
    have one : (1 : ℚ) ≤ d.digits := by exact_mod_cast Nat.one_le_iff_ne_zero.2 some
    calc (2 : ℚ) ^ (1024 : ℤ) ≤ 2 ^ (3 * 401 : ℤ) := zpow_le_zpow_right₀ one_le_two (by norm_num)
      _ = 8 ^ (401 : ℤ) := by rw [zpow_mul]; norm_num only
      _ ≤ 10 ^ (401 : ℤ) := zpow_le_zpow_left₀ (by norm_num) (by norm_num) (by norm_num)
      _ ≤ 10 ^ d.exponent := zpow_le_zpow_right₀ (by norm_num) (by omega)
      _ ≤ d.value := le_mul_of_one_le_left (by positivity) one
  · by_contra beyond
    refine absurd low (not_le.2 ?_)
    have bound : (d.digits : ℚ) < 2 ^ (d.digits.log2 + 1 : ℤ) := by
      exact_mod_cast Nat.lt_log2_self
    obtain ⟨n, exponent⟩ : ∃ n : ℕ, d.exponent = -n := ⟨d.exponent.natAbs, by omega⟩
    have eight : (8 : ℚ) ^ n ≤ 10 ^ n := pow_le_pow_left₀ (by norm_num) (by norm_num) n
    have small : (10 : ℚ) ^ d.exponent ≤ 2 ^ (3 * d.exponent) := by
      rw [zpow_mul, exponent, zpow_neg, zpow_neg, zpow_natCast, zpow_natCast]
      exact inv_anti₀ (by positivity) (by norm_num; exact eight)
    calc d.value < 2 ^ (d.digits.log2 + 1 : ℤ) * 10 ^ d.exponent :=
          mul_lt_mul_of_pos_right bound (by positivity)
      _ ≤ 2 ^ (d.digits.log2 + 1 : ℤ) * 2 ^ (3 * d.exponent) :=
          mul_le_mul_of_nonneg_left small (by positivity)
      _ = 2 ^ (d.digits.log2 + 1 + 3 * d.exponent) := (zpow_add₀ two_ne_zero ..).symm
      _ ≤ 2 ^ (-1075 : ℤ) := zpow_le_zpow_right₀ one_le_two (by omega)

/-- Reading from the model of arithmetic: one product or one quotient, rounded once. -/
theorem ofScientific_eq (proper : x.Proper) (takes : x.Takes d.value) :
    UnpackedFloat.ofScientific Format.binary64 d.digits d.exponent =
      .finite .positive x.significand x.exponent proper.positive := by
  obtain ⟨some, high, low⟩ := within_bounds proper takes
  rw [UnpackedFloat.ofScientific, dif_neg some, if_neg (by norm_num; omega),
    if_neg (by norm_num; omega)]
  split
  · rename_i whole
    rw [value_of_nonneg whole] at takes
    have power : d.exponent.toNat = d.exponent.natAbs := by omega
    refine mul_finite proper ?_ ?_
    · have value : ((d.digits <<< Format.binary64.mantissaBits : ℕ) *
          2 ^ (-Format.binary64.mantissaBits : ℤ) *
          ((10 ^ d.exponent.toNat : ℕ) * 2 ^ (0 : ℤ)) : ℚ) =
          d.digits * 10 ^ d.exponent.natAbs := by
        rw [Nat.shiftLeft_eq, zpow_neg, zpow_natCast, power]
        push_cast
        field_simp
      rwa [value]
    · rw [Nat.shiftLeft_eq]
      calc 2 ^ 52 ≤ 1 * 2 ^ 53 * 1 := by decide
        _ ≤ d.digits * 2 ^ 53 * 10 ^ d.exponent.toNat :=
          Nat.mul_le_mul (Nat.mul_le_mul_right _ (by omega)) (Nat.one_le_pow _ _ (by decide))
  · rename_i below
    rw [value_of_neg (by omega)] at takes
    have power : (-d.exponent).toNat = d.exponent.natAbs := by omega
    refine div_finite proper ?_
    simpa [power] using takes

theorem toFloat_eq (proper : x.Proper) (takes : x.Takes d.value) :
    d.toFloat = packed (.finite .positive x.significand x.exponent proper.positive) := by
  obtain ⟨some, high, low⟩ := within_bounds proper takes
  rw [toFloat, if_neg some, if_neg (by omega), if_neg (by omega), Float.ofScientific]
  split
  · rename_i fast
    obtain ⟨small, listed⟩ := fast
    have inTable : d.exponent.natAbs < Float.exactlyRepresentablePowersOfTen.size := by
      rw [size_powersOfTen]
      omega
    obtain ⟨m₁, e₁, above₁, unpacked₁, full, value₁⟩ :=
      unpacked_natural (Nat.pos_of_ne_zero some) small
    obtain ⟨m₂, e₂, above₂, unpacked₂, value₂⟩ := unpacked_powerOfTen inTable
    by_cases below : d.exponent < 0
    · rw [if_pos (by simpa using below)]
      change packed (UnpackedFloat.div Format.binary64 (unpacked _) (unpacked _)) = _
      rw [unpacked₁, unpacked₂]
      rw [value_of_neg below, ← value₁, ← value₂] at takes
      rw [div_finite proper takes]
      rfl
    · rw [if_neg (by simpa using below)]
      rw [mul_eq_packed, unpacked₁, unpacked₂]
      rw [value_of_nonneg (by omega), ← value₁, ← value₂] at takes
      rw [mul_finite proper takes (full.trans (Nat.le_mul_of_pos_right _ above₂))]
      rfl
  · have signed : (if decide (d.exponent < 0) = true then Int.negOfNat d.exponent.natAbs
        else Int.ofNat d.exponent.natAbs) = d.exponent := by
      split
      · rename_i below
        rw [Int.negOfNat_eq]
        simp only [decide_eq_true_eq] at below
        change -(d.exponent.natAbs : ℤ) = _
        omega
      · rename_i whole
        simp only [decide_eq_true_eq] at whole
        change (d.exponent.natAbs : ℤ) = _
        omega
    dsimp only
    rw [signed]
    change packed (UnpackedFloat.ofScientific Format.binary64 _ _) = _
    rw [ofScientific_eq proper takes]

end Reading

/-- The numeral of a decimal, with all its digits and zeros. -/
def numeral (sign : List Char) (d : Decimal) : Numeral :=
  let digits := naturalDigits d.digits
  if 0 ≤ d.exponent then ⟨sign, digits ++ List.replicate d.exponent.toNat '0', none, none⟩
  else
    let places := (-d.exponent).toNat
    if places < digits.length then
      ⟨sign, digits.take (digits.length - places), some (digits.drop (digits.length - places)),
        none⟩
    else ⟨sign, ['0'], some (List.replicate (places - digits.length) '0' ++ digits), none⟩

section Numerals

variable {sign : List Char} {d : Decimal}

theorem chars_numeral : (numeral sign d).chars = sign ++ plain false d := by
  simp only [numeral, plain]
  split
  · simp [Numeral.chars, Numeral.fractionChars]
  · split <;> simp [Numeral.chars, Numeral.fractionChars]

theorem isInteger_numeral : (numeral sign d).isInteger = decide (0 ≤ d.exponent) := by
  simp only [numeral]
  split
  · rename_i whole
    simp [Numeral.isInteger, whole]
  · rename_i below
    split <;> simp [Numeral.isInteger, below]

theorem isDigit_naturalDigits (n : ℕ) : (naturalDigits n).all isDigit = true := by
  rw [List.all_eq_true]
  intro c mem
  have digit := Nat.isDigit_of_mem_toDigits (by decide) (by decide) mem
  rw [Char.isDigit_iff_toNat] at digit
  simpa [isDigit] using digit

theorem isDigit_zeros (n : ℕ) : (List.replicate n '0').all isDigit = true := by
  induction n with
  | zero => rfl
  | succ n ih => rwa [List.replicate_succ, List.all_cons]

theorem naturalDigits_ne_nil (n : ℕ) : naturalDigits n ≠ [] := Nat.toDigits_ne_nil

theorem digitsValue_naturalDigits (n : ℕ) : digitsValue (naturalDigits n) = n :=
  Nat.ofDigitChars_ten_toDigits

theorem digitsValue_append_zeros (ds : List Char) (n : ℕ) :
    digitsValue (ds ++ List.replicate n '0') = 10 ^ n * digitsValue ds :=
  (Nat.ofDigitChars_append 0).trans Nat.ofDigitChars_replicate_zero

theorem digitsValue_zeros_append (n : ℕ) (ds : List Char) :
    digitsValue (List.replicate n '0' ++ ds) = digitsValue ds := by
  have zeros : Nat.ofDigitChars 10 (List.replicate n '0') 0 = 0 :=
    Nat.ofDigitChars_replicate_zero.trans (Nat.mul_zero _)
  refine (Nat.ofDigitChars_append 0).trans ?_
  rw [zeros]
  rfl

theorem plain_numeral (signed : sign = [] ∨ sign = ['-']) : (numeral sign d).Plain := by
  have digits := isDigit_naturalDigits d.digits
  have some := List.length_pos_of_ne_nil (naturalDigits_ne_nil d.digits)
  have part (n : ℕ) : ((naturalDigits d.digits).take n).all isDigit = true ∧
      ((naturalDigits d.digits).drop n).all isDigit = true := by
    rwa [← Bool.and_eq_true, ← List.all_append, List.take_append_drop]
  simp only [numeral]
  split
  · refine ⟨signed, ⟨?_, ?_⟩, nofun, rfl⟩
    · simp [naturalDigits_ne_nil]
    · rw [List.all_append, digits, isDigit_zeros]
      rfl
  · split
    · rename_i whole less
      refine ⟨signed, ⟨?_, (part _).1⟩, ?_, rfl⟩
      · rw [ne_eq, List.take_eq_nil_iff]
        simp only [naturalDigits_ne_nil, or_false]
        omega
      · rintro _ ⟨⟩
        refine ⟨?_, (part _).2⟩
        rw [ne_eq, List.drop_eq_nil_iff]
        omega
    · refine ⟨signed, ⟨by simp, rfl⟩, ?_, rfl⟩
      rintro _ ⟨⟩
      refine ⟨by simp [naturalDigits_ne_nil], ?_⟩
      rw [List.all_append, digits, isDigit_zeros]
      rfl

theorem value_numeral : (numeral sign d).magnitude.value = d.value := by
  simp only [numeral]
  split
  · rename_i whole
    have power : d.exponent.toNat = d.exponent.natAbs := by omega
    simp only [Numeral.magnitude, Option.getD_none, List.append_nil, digitsValue_append_zeros,
      digitsValue_naturalDigits, Option.map_none, value_of_nonneg whole, power]
    rw [value]
    push_cast
    simp
    ring
  · split
    · rename_i below less
      have length : (d.exponent : ℤ) = 0 -
          ((naturalDigits d.digits).drop ((naturalDigits d.digits).length -
            (-d.exponent).toNat)).length := by
        rw [List.length_drop]
        omega
      simp only [Numeral.magnitude, Option.getD_some, List.take_append_drop,
        digitsValue_naturalDigits, Option.map_none, Option.getD_none, ← length]
    · rename_i below less
      have zero : digitsValue (['0'] ++ (List.replicate ((-d.exponent).toNat -
          (naturalDigits d.digits).length) '0' ++ naturalDigits d.digits)) = d.digits := by
        rw [← List.append_assoc]
        exact (digitsValue_zeros_append (_ + 1) _).trans (digitsValue_naturalDigits _)
      have length : (d.exponent : ℤ) = 0 - (List.replicate ((-d.exponent).toNat -
          (naturalDigits d.digits).length) '0' ++ naturalDigits d.digits).length := by
        rw [List.length_append, List.length_replicate]
        omega
      simp only [Numeral.magnitude, Option.getD_some, zero, Option.map_none, Option.getD_none,
        ← length]

end Numerals

theorem neg_eq_packed (x : Float) : -x = packed (UnpackedFloat.neg (unpacked x)) := rfl

theorem toFloat_zero : toFloat ⟨0, 0⟩ = packed (.zero .positive) := by decide

/-- The decimal that a finite double is written as. -/
def written (x : Float) : Decimal := if isZero x then ⟨0, 0⟩ else shortest .up (scaled x)

def writtenSign (x : Float) : List Char := if signBit x then ['-'] else []

theorem proseText_toList {x : Float} (finite : isFinite x = true) :
    (proseText x).toList = writtenSign x ++ plain false (written x) := by
  have digits : (if isZero x then plain Layout.prose.pointZero ⟨0, 0⟩
      else Layout.prose.write (shortest Layout.prose.tie (scaled x))) =
      plain false (written x) := by
    rw [written]
    split <;> rfl
  rw [proseText, not_isNaN_of_isFinite finite, if_neg (by decide), if_pos finite,
    String.toList_ofList]
  simp only [Layout.finite, digits, writtenSign]
  split <;> rfl

theorem written_exponent_nonneg_iff {x : Float} (finite : isFinite x = true) :
    0 ≤ (written x).exponent ↔ isWhole x = true := by
  rw [isWhole, finite, Bool.true_and, written]
  by_cases zero : isZero x = true
  · have bits : scaled x = ⟨0, -1074, false⟩ := by
      rw [isZero, beq_iff_eq] at zero
      rw [scaled, zero]
      rfl
    rw [if_pos zero, bits, Scaled.isWhole, Nat.zero_mod]
    exact iff_of_true (le_refl _) rfl
  · rw [if_neg zero]
    obtain ⟨proper, _⟩ := unpacked_eq_finite finite (Bool.not_eq_true _ ▸ zero)
    exact ⟨isWhole_of_takes (shortest_takes .up proper), exponent_of_isWhole .up proper⟩

/-- The magnitude of a finite double is read back. -/
theorem exists_magnitude {x : Float} (finite : isFinite x = true) : ∃ u,
    (numeral (writtenSign x) (written x)).magnitude.toFloat = packed u ∧ unpacked (packed u) = u ∧
      unpacked x = if signBit x then UnpackedFloat.neg u else u := by
  by_cases zero : isZero x = true
  · obtain ⟨s, split⟩ := (isZero_iff_unpacked x).1 zero
    have minus := signBit_iff_unpacked x
    rw [split, signOf] at minus
    refine ⟨.zero .positive, ?_, rfl, ?_⟩
    · have same : (numeral (writtenSign x) (written x)).magnitude = ⟨0, 0⟩ := by
        rw [written, if_pos zero]
        rfl
      rw [same, toFloat_zero]
    · rw [split]
      cases s with
      | positive => rw [if_neg (by simp [minus])]
      | negative =>
        rw [if_pos (by simp [minus])]
        rfl
  · obtain ⟨proper, positive, split⟩ := unpacked_eq_finite finite (Bool.not_eq_true _ ▸ zero)
    refine ⟨.finite .positive (scaled x).significand (scaled x).exponent positive, ?_, ?_, ?_⟩
    · refine toFloat_eq proper ?_
      rw [value_numeral, written, if_neg zero]
      exact shortest_takes .up proper
    · exact unpacked_packed positive proper.canonical proper.upper
    · rw [split, sign]
      split <;> rfl

theorem sign_numeral (sign : List Char) (d : Decimal) : (numeral sign d).sign = sign := by
  simp only [numeral]
  split
  · rfl
  · split <;> rfl

theorem numeral_toFloat {x : Float} (finite : isFinite x = true) :
    (numeral (writtenSign x) (written x)).toFloat = x := by
  obtain ⟨u, magnitude, same, split⟩ := exists_magnitude finite
  have back := packed_unpacked x
  rw [split] at back
  rw [Numeral.toFloat, sign_numeral, magnitude, neg_eq_packed, same, writtenSign]
  cases minus : signBit x with
  | false => simpa [minus] using back
  | true => simpa [minus] using back

/-- A finite double is written as a numeral that stands for it; a fraction is written iff the double
is not whole. -/
theorem exists_numeral {x : Float} (finite : isFinite x = true) :
    ∃ n : Numeral, n.Plain ∧ n.chars = (proseText x).toList ∧ n.isInteger = isWhole x ∧
      n.toFloat = x := by
  have signed : writtenSign x = [] ∨ writtenSign x = ['-'] := by
    rw [writtenSign]
    split
    · exact .inr rfl
    · exact .inl rfl
  refine ⟨numeral (writtenSign x) (written x), plain_numeral signed, ?_, ?_, numeral_toFloat finite⟩
  · rw [chars_numeral, proseText_toList finite]
  · rw [isInteger_numeral, Bool.eq_iff_iff, decide_eq_true_iff, written_exponent_nonneg_iff finite]

theorem ofScientific_ne_notANumber (digits : Nat) (exponent : Int) :
    UnpackedFloat.ofScientific Format.binary64 digits exponent ≠ .notANumber := by
  unfold UnpackedFloat.ofScientific
  split
  · nofun
  · split
    · nofun
    · split
      · nofun
      · split <;> exact roundWithAccuracy_ne_notANumber _ _ _ _

theorem isNaN_ofScientific {digits : Nat} (some : digits ≠ 0) (below : Bool) (exponent : Nat) :
    isNaN (Float.ofScientific digits below exponent) = false := by
  rw [← Bool.not_eq_true, Float.ofScientific]
  split
  · rename_i fast
    obtain ⟨small, listed⟩ := fast
    have inTable : exponent < Float.exactlyRepresentablePowersOfTen.size := by
      rw [size_powersOfTen]
      omega
    obtain ⟨m₁, e₁, above₁, unpacked₁, _⟩ := unpacked_natural (Nat.pos_of_ne_zero some) small
    obtain ⟨m₂, e₂, above₂, unpacked₂, _⟩ := unpacked_powerOfTen inTable
    split
    · change ¬isNaN (packed (UnpackedFloat.div Format.binary64 (unpacked _) (unpacked _))) = true
      rw [unpacked₁, unpacked₂, isNaN_packed]
      exact roundWithAccuracy_ne_notANumber _ _ _ _
    · rw [mul_eq_packed, unpacked₁, unpacked₂, isNaN_packed]
      exact roundWithAccuracy_ne_notANumber _ _ _ _
  · change ¬isNaN (packed (UnpackedFloat.ofScientific Format.binary64 _ _)) = true
    rw [isNaN_packed]
    exact ofScientific_ne_notANumber _ _

theorem isNaN_toFloat (d : Decimal) : isNaN d.toFloat = false := by
  unfold toFloat
  split
  · decide
  · rename_i some
    split
    · decide
    · split
      · decide
      · exact isNaN_ofScientific some _ _

theorem Numeral.isNaN_toFloat (n : Numeral) : isNaN n.toFloat = false := by
  have number := Decimal.isNaN_toFloat n.magnitude
  unfold Numeral.toFloat
  split
  · rw [neg_eq_packed, ← Bool.not_eq_true, isNaN_packed]
    rw [← Bool.not_eq_true, isNaN_iff_unpacked] at number
    cases view : unpacked n.magnitude.toFloat with
    | notANumber => exact absurd view number
    | _ => nofun
  · exact number

end MediaQuery.Decimal
