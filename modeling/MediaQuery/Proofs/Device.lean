import MediaQuery.Clause.Algebra
import MediaQuery.Device.Basic
import MediaQuery.Proofs.Binary64
import MediaQuery.Proofs.Order

set_option autoImplicit false

namespace MediaQuery

open Float.Model Float.Model.UnpackedFloat

namespace Device

section Counts

open Number

theorem ofCount_eq_packed (count : UInt32) :
    Device.ofCount count = packed (UnpackedFloat.ofNat Format.binary64 count.toNat) := by
  have bound : count.toNat < 2 ^ 32 := count.toNat_lt
  have fast : count.toNat < 2 ^ 53 ∧ 0 ≤ 22 := ⟨by omega, by decide⟩
  have one : Float.ofBits 0x3FF0000000000000 = 1 := by decide
  have exact : Device.ofCount count = count.toNat.toUInt64.toFloat * 1 := by
    rw [← one]
    simp only [Device.ofCount, Float.ofScientific, dif_pos fast]
    rfl
  have word : count.toNat.toUInt64.toNat = count.toNat := by
    simp [Nat.toUInt64]
  rw [exact, mul_one]
  change packed (UnpackedFloat.ofNat Format.binary64 count.toNat.toUInt64.toNat) = _
  rw [word]

theorem isZero_ofCount (count : UInt32) : isZero (Device.ofCount count) = (count == 0) := by
  rw [ofCount_eq_packed]
  by_cases zero : count = 0
  · subst zero
    exact isZero_packed_zero .positive
  · have positive : 0 < count.toNat := by
      rcases Nat.eq_zero_or_pos count.toNat with none | some
      · exact absurd (UInt32.toNat_inj.1 none) zero
      · exact some
    have bound : count.toNat < 2 ^ 32 := count.toNat_lt
    have lower := Nat.log2_lt (by omega : count.toNat ≠ 0) (k := 32)
    obtain ⟨shifted, canonical, finite⟩ := ofNat_eq_finite positive (by omega)
    have level := magnitude_packed_full .positive shifted (by
      rcases canonical.full with full | least
      · exact full
      · omega) canonical.bound canonical.lower (by omega)
    rw [finite, isZero, level]
    simp only [beq_eq_false_iff_ne.2 zero, beq_eq_false_iff_ne]
    omega

theorem isNonNegative_ofCount (count : UInt32) : isNonNegative (Device.ofCount count) = true := by
  have bound : count.toNat < 2 ^ 32 := count.toNat_lt
  rw [ofCount_eq_packed]
  rcases Nat.eq_zero_or_pos count.toNat with none | positive
  · rw [none]
    decide
  · obtain ⟨shifted, canonical, finite⟩ := ofNat_eq_finite positive (by omega)
    rw [finite]
    refine isNonNegative_packed ?_ rfl
    rw [← Bool.not_eq_true, isNaN_packed]
    simp

end Counts

/-- A length that a device may have: finite and from zero on. -/
structure IsLength (x : Float) : Prop where
  finite : Number.isFinite x = true
  nonNegative : Number.isNonNegative x = true

theorem IsLength.number {x : Float} (length : IsLength x) : Number.isNaN x = false :=
  Number.not_isNaN_of_isFinite length.finite

/-- The numbers that a valid device is described by. -/
structure Valid (d : Device) : Prop where
  width : IsLength d.widthPx
  height : IsLength d.heightPx
  deviceWidth : IsLength d.deviceWidthPx
  deviceHeight : IsLength d.deviceHeightPx
  density : Number.isNaN d.dppx = false ∧ 0 < Number.rank d.dppx

theorem checkLength_eq_ok {field : String} {x : Float} :
    checkLength field x = .ok () ↔ IsLength x := by
  have sign (number : Number.isNaN x = false) :
      Number.isNegative x = false ↔ Number.isNonNegative x = true := by
    simp [Number.isNegative, Number.isNonNegative, number]
  unfold checkLength
  constructor
  · intro accepted
    split at accepted
    · cases accepted
    · rename_i finite
      have finite : Number.isFinite x = true := by simpa using finite
      split at accepted
      · cases accepted
      · rename_i sign'
        refine ⟨finite, (sign (Number.not_isNaN_of_isFinite finite)).1 (by simpa using sign')⟩
  · rintro ⟨finite, nonNegative⟩
    have sign := (sign (Number.not_isNaN_of_isFinite finite)).2 nonNegative
    simp [finite, sign]

theorem checkDensity_eq_ok {field : String} {x : Float} :
    checkDensity field x = .ok () ↔ Number.isNaN x = false ∧ 0 < Number.rank x := by
  unfold checkDensity
  by_cases number : Number.isNaN x = true
  · simp [number]
  · by_cases positive : Number.rank x ≤ 0
    · simp [number, positive]
    · simp [number, positive]
      omega

private theorem bind_eq_ok {check : Except DeviceError Unit}
    {rest : Unit → Except DeviceError Unit} :
    (check >>= rest) = .ok () ↔ check = .ok () ∧ rest () = .ok () := by
  cases check with
  | ok u => simp [bind, Except.bind]
  | error e => simp [bind, Except.bind]

/-- A device passes its check iff all its numbers are in order. -/
theorem validate_eq_ok {d : Device} : d.validate = .ok () ↔ d.Valid := by
  simp only [validate, bind_eq_ok, checkLength_eq_ok, checkDensity_eq_ok]
  constructor
  · rintro ⟨width, height, deviceWidth, deviceHeight, density⟩
    exact ⟨width, height, deviceWidth, deviceHeight, density⟩
  · rintro ⟨width, height, deviceWidth, deviceHeight, density⟩
    exact ⟨width, height, deviceWidth, deviceHeight, density⟩

/-- The numbers of a valid device are from zero on. -/
theorem Valid.number? {d : Device} (valid : d.Valid) {key : String} {x : Float}
    (found : d.number? key = some x) : Number.isNonNegative x = true := by
  have zero : Number.isNonNegative 0 = true := by decide
  unfold Device.number? at found
  split at found <;> cases found
  · exact valid.width.nonNegative
  · exact valid.height.nonNegative
  · exact valid.deviceWidth.nonNegative
  · exact valid.deviceHeight.nonNegative
  · simp [Number.isNonNegative, valid.density.1, valid.density.2.le]
  · exact isNonNegative_ofCount _
  · cases d.colorIndex with
    | entries count => exact isNonNegative_ofCount count
    | none => exact zero
  · cases d.monochromeBits with
    | bits count => exact isNonNegative_ofCount count
    | colored => exact zero
  · exact isNonNegative_ofCount _
  · exact isNonNegative_ofCount _

theorem Valid.ratio? {d : Device} (valid : d.Valid) {key : String} {r : Ratio}
    (found : d.ratio? key = some r) : IsLength r.numerator ∧ IsLength r.denominator := by
  unfold Device.ratio? at found
  split at found <;> cases found
  · exact ⟨valid.width, valid.height⟩
  · exact ⟨valid.deviceWidth, valid.deviceHeight⟩

end Device

/-- Keyword types whose list of values is complete. -/
class LawfulKeyword (α : Type) [Keyword α] : Prop where
  mem_all : ∀ a : α, a ∈ (Keyword.all : List α)

instance : LawfulKeyword Medium := ⟨fun a => by cases a <;> decide⟩

instance : LawfulKeyword Hover := ⟨fun a => by cases a <;> decide⟩

instance : LawfulKeyword Pointer := ⟨fun a => by cases a <;> decide⟩

instance : LawfulKeyword Update := ⟨fun a => by cases a <;> decide⟩

instance : LawfulKeyword OverflowBlock := ⟨fun a => by cases a <;> decide⟩

instance : LawfulKeyword OverflowInline := ⟨fun a => by cases a <;> decide⟩

instance : LawfulKeyword Scan := ⟨fun a => by cases a <;> decide⟩

instance : LawfulKeyword Blending := ⟨fun a => by cases a <;> decide⟩

instance : LawfulKeyword DisplayMode := ⟨fun a => by cases a <;> decide⟩

instance : LawfulKeyword DynamicRange := ⟨fun a => by cases a <;> decide⟩

instance : LawfulKeyword ForcedColors := ⟨fun a => by cases a <;> decide⟩

instance : LawfulKeyword InvertedColors := ⟨fun a => by cases a <;> decide⟩

instance : LawfulKeyword NavControls := ⟨fun a => by cases a <;> decide⟩

instance : LawfulKeyword ColorScheme := ⟨fun a => by cases a <;> decide⟩

instance : LawfulKeyword Contrast := ⟨fun a => by cases a <;> decide⟩

instance : LawfulKeyword Reduce := ⟨fun a => by cases a <;> decide⟩

instance : LawfulKeyword Scripting := ⟨fun a => by cases a <;> decide⟩

namespace Device

/-- The value of a feature with a closed list of values, if the device has it. -/
def discrete? (d : Device) (key : String) : Option DiscreteValue :=
  if key = "grid" then some (.integer (if d.grid then 1 else 0)) else (d.keyword? key).map .keyword

/-- The device has a value of the kind that a feature has. -/
def Answers (d : Device) (key : String) : FeatureKind → Prop
  | .discrete values => ∃ value ∈ values, d.discrete? key = some value
  | .gamut => ∃ band, d.gamut? key = some band
  | .numeric _ => ∃ x, d.number? key = some x
  | .ratio => ∃ r, d.ratio? key = some r
  | .orientation | .pixelRatio => True

private theorem answers_word {α : Type} [Keyword α] [LawfulKeyword α] (d : Device) (key : String)
    (a : α) (found : d.discrete? key = some (.keyword (Keyword.text a))) :
    d.Answers key (.discrete ((Keyword.all.map (Keyword.text (α := α))).map .keyword)) :=
  ⟨_, List.mem_map_of_mem (List.mem_map_of_mem (LawfulKeyword.mem_all a)), found⟩

/-- A device has an answer for every known feature that is asked for under its own name. -/
theorem answers (d : Device) : ∀ spec ∈ FeatureTable.all, d.Answers spec.name spec.kind := by
  have grid : d.Answers "grid" (.discrete [.integer 0, .integer 1]) := by
    refine ⟨.integer (if d.grid then 1 else 0), ?_, rfl⟩
    cases d.grid <;> decide
  simp only [FeatureTable.all, List.forall_mem_cons]
  exact ⟨⟨_, rfl⟩, ⟨_, rfl⟩, ⟨_, rfl⟩, ⟨_, rfl⟩, ⟨_, rfl⟩, ⟨_, rfl⟩, trivial, ⟨_, rfl⟩, trivial,
    ⟨_, rfl⟩, ⟨_, rfl⟩, ⟨_, rfl⟩, ⟨_, rfl⟩, ⟨_, rfl⟩, ⟨_, rfl⟩, ⟨_, rfl⟩, grid,
    answers_word d _ d.anyHover rfl, answers_word d _ d.hover rfl,
    answers_word d _ d.anyPointer rfl, answers_word d _ d.pointer rfl,
    answers_word d _ d.update rfl, answers_word d _ d.overflowBlock rfl,
    answers_word d _ d.overflowInline rfl, answers_word d _ d.scan rfl,
    answers_word d _ d.environmentBlending rfl, answers_word d _ d.displayMode rfl,
    answers_word d _ d.dynamicRange rfl, answers_word d _ d.videoDynamicRange rfl,
    answers_word d _ d.forcedColors rfl, answers_word d _ d.invertedColors rfl,
    answers_word d _ d.navControls rfl, answers_word d _ d.prefersColorScheme rfl,
    answers_word d _ d.prefersContrast rfl, answers_word d _ d.prefersReducedData rfl,
    answers_word d _ d.prefersReducedMotion rfl,
    answers_word d _ d.prefersReducedTransparency rfl, answers_word d _ d.scripting rfl,
    fun _ => nofun⟩

end Device

section Domains

theorem Number.order_infinity (x : Float) : Number.order x Number.infinity ≠ .gt := by
  by_cases number : Number.isNaN x = false
  · rw [Number.order_eq_compare_rank number Number.isNaN_infinity, compare_le_iff_le]
    exact (Number.rank_bounds number).2
  · have none : Number.isNaN x = true := by simpa using number
    simp [Number.order, none]

theorem Number.order_zero {x zero : Float} (above : Number.isNonNegative x = true)
    (isZero : Number.isZero zero = true) : Number.order x zero ≠ .lt := by
  have number := ((Number.isNonNegative_iff x).1 above).1
  have rank : Number.rank zero = 0 := by
    rw [Number.isZero, beq_iff_eq] at isZero
    simp [Number.rank, isZero]
  rw [Number.order_eq_compare_rank number (Number.not_isNaN_of_isZero isZero), rank,
    compare_ge_iff_ge]
  simp only [Number.isNonNegative, Bool.and_eq_true, decide_eq_true_iff] at above
  exact above.2

private theorem nonNegative_contains {α : Type} [Endpoint α] {v : α}
    (lower : Endpoint.compare v Endpoint.zero ≠ .lt)
    (upper : Endpoint.compare v Endpoint.infinity ≠ .gt) :
    (Interval.nonNegative : Interval α).contains v = true := by
  simp only [Interval.contains, Interval.aboveMin, Interval.belowMax, Interval.nonNegative]
  cases low : Endpoint.compare v Endpoint.zero <;>
  cases high : Endpoint.compare v Endpoint.infinity <;> simp_all

theorem numberDomain_contains {x : Float} (above : Number.isNonNegative x = true) :
    numberDomain.contains x = true :=
  nonNegative_contains (Number.order_zero above (by decide)) (Number.order_infinity x)

/-- The ratio of two lengths is not below zero, also if one of them is zero. -/
theorem ratio_order_zero {r : Ratio} (numerator : Device.IsLength r.numerator)
    (denominator : Device.IsLength r.denominator) {zero : Float}
    (isZero : Number.isZero zero = true) : Ratio.order r ⟨zero, 1⟩ ≠ .lt := by
  have one : Number.isZero 1 = false := by decide
  have degenerate : (⟨zero, 1⟩ : Ratio).isDegenerate = true := by simp [Ratio.isDegenerate, isZero]
  have single : (⟨zero, 1⟩ : Ratio).isZeroOverZero = false := by
    simp [Ratio.isZeroOverZero, one]
  by_cases both : r.isZeroOverZero = true
  · simp [Ratio.order, both, degenerate]
  · have product := Number.isZero_mul isZero denominator.finite
    rw [Ratio.order_eq_crossOrder (by simpa using both) single, Ratio.crossOrder]
    simp only [Number.mul_one, numerator.number, Number.not_isNaN_of_isZero product, Bool.or_self,
      Bool.false_eq_true, if_false]
    exact Number.order_zero numerator.nonNegative product

/-- No ratio over a number from zero on is above infinity. -/
theorem ratio_order_infinity {r : Ratio}
    (denominator : Number.isNonNegative r.denominator = true) :
    Ratio.order r ⟨Number.infinity, 1⟩ ≠ .gt := by
  have top : (⟨Number.infinity, 1⟩ : Ratio).isDegenerate = false := by decide
  by_cases both : r.isZeroOverZero = true
  · simp [Ratio.order, both, top]
  · have quotient : (⟨Number.infinity, 1⟩ : Ratio).quotient = Number.infinity := by
      decide
    rw [Ratio.order_eq_crossOrder (by simpa using both) (by decide)]
    simp only [Ratio.crossOrder, Number.mul_one, quotient]
    by_cases flat : Number.isZero r.denominator = true
    · rw [Number.isNaN_infinity_mul flat, Bool.or_true, if_pos rfl]
      exact Number.order_infinity _
    · rw [Number.infinity_mul denominator (by simpa using flat)]
      split <;> exact Number.order_infinity _

/-- The ratio of two lengths lies in its domain. -/
theorem ratioDomain_contains {r : Ratio} (numerator : Device.IsLength r.numerator)
    (denominator : Device.IsLength r.denominator) : ratioDomain.contains r = true :=
  nonNegative_contains (ratio_order_zero numerator denominator (by decide))
    (ratio_order_infinity denominator.nonNegative)

theorem order_zero_eq_compare {r : Ratio} (numerator : Device.IsLength r.numerator)
    (denominator : Device.IsLength r.denominator) (single : r.isZeroOverZero = false) :
    Ratio.order r ⟨0, 1⟩ = compare (Number.rank r.numerator) 0 := by
  have product := Number.isZero_mul (by decide : Number.isZero 0 = true)
    denominator.finite
  have number := Number.not_isNaN_of_isZero product
  rw [Ratio.order_eq_crossOrder single (by decide), Ratio.crossOrder]
  simp only [Number.mul_one, numerator.number, number, Bool.or_self, Bool.false_eq_true, if_false]
  rw [Number.order_eq_compare_rank numerator.number number, (Number.isZero_iff_rank _).1 product]

theorem order_one_eq_compare {r : Ratio} (numerator : Device.IsLength r.numerator)
    (denominator : Device.IsLength r.denominator) (single : r.isZeroOverZero = false) :
    Ratio.order r ⟨1, 1⟩ =
      compare (Number.rank r.numerator) (Number.rank r.denominator) := by
  rw [Ratio.order_eq_crossOrder single (by decide), Ratio.crossOrder]
  simp only [Number.mul_one, Number.one_mul, numerator.number, denominator.number,
    Bool.or_self, Bool.false_eq_true, if_false]
  exact Number.order_eq_compare_rank numerator.number denominator.number

theorem order_infinity_of_flat {r : Ratio} (numerator : Device.IsLength r.numerator)
    (single : r.isZeroOverZero = false) (flat : Number.isZero r.denominator = true) :
    Ratio.order r ⟨Number.infinity, 1⟩ = .eq := by
  have tall : Number.isZero r.numerator = false := by
    simpa [Ratio.isZeroOverZero, flat] using single
  obtain ⟨_, sign | flat'⟩ := (Number.isNonNegative_iff _).1 numerator.nonNegative
  · rw [Ratio.order_eq_crossOrder single (by decide), Ratio.crossOrder]
    simp only [Number.isNaN_infinity_mul flat, Bool.or_true, if_true]
    rw [Ratio.quotient, if_pos flat, tall, if_neg (by decide), Number.withSignOf, sign]
    decide
  · rw [tall] at flat'
    cases flat'

theorem order_infinity_of_not_flat {r : Ratio} (numerator : Device.IsLength r.numerator)
    (denominator : Device.IsLength r.denominator) (single : r.isZeroOverZero = false)
    (wide : Number.isZero r.denominator = false) :
    Ratio.order r ⟨Number.infinity, 1⟩ = .lt := by
  have finite := numerator.finite
  rw [Ratio.order_eq_crossOrder single (by decide), Ratio.crossOrder]
  simp only [Number.mul_one, Number.infinity_mul denominator.nonNegative wide,
    numerator.number, Number.isNaN_infinity, Bool.or_self, Bool.false_eq_true, if_false]
  rw [Number.order_eq_compare_rank numerator.number Number.isNaN_infinity, Number.rank_infinity,
    compare_lt_iff_lt]
  rw [Number.isFinite, decide_eq_true_iff] at finite
  unfold Number.rank
  split <;> omega

/-- The level of the ratio of two lengths, where zero is on level 0, one on level 2 and infinity on
level 4. -/
theorem exists_ratio_level {r : Ratio} (numerator : Device.IsLength r.numerator)
    (denominator : Device.IsLength r.denominator) :
    ∃ level : Int, Ratio.order r ⟨0, 1⟩ = compare level 0 ∧
      Ratio.order r ⟨1, 1⟩ = compare level 2 ∧
      Ratio.order r ⟨Number.infinity, 1⟩ = compare level 4 := by
  by_cases both : r.isZeroOverZero = true
  · have zero : (⟨0, 1⟩ : Ratio).isDegenerate = true := by decide
    have one : (⟨1, 1⟩ : Ratio).isDegenerate = false := by decide
    have top : (⟨Number.infinity, 1⟩ : Ratio).isDegenerate = false := by decide
    refine ⟨0, ?_⟩
    simp only [Ratio.order, both, zero, one, top, if_true, if_false, Bool.false_eq_true]
    decide
  · have single : r.isZeroOverZero = false := by simpa using both
    have above := numerator.nonNegative
    simp only [Number.isNonNegative, Bool.and_eq_true, decide_eq_true_iff] at above
    rw [order_zero_eq_compare numerator denominator single,
      order_one_eq_compare numerator denominator single]
    by_cases flat : Number.isZero r.denominator = true
    · have tall : ¬Number.isZero r.numerator = true := by
        simpa [Ratio.isZeroOverZero, flat] using single
      rw [Number.isZero_iff_rank] at tall
      refine ⟨4, ?_, ?_, order_infinity_of_flat numerator single flat⟩
      · rw [Int.compare_eq_gt.2 (by omega)]
        rfl
      · rw [(Number.isZero_iff_rank _).1 flat, Int.compare_eq_gt.2 (by omega)]
        rfl
    · have wide := order_infinity_of_not_flat numerator denominator single (by simpa using flat)
      have aboveBelow := denominator.nonNegative
      simp only [Number.isNonNegative, Bool.and_eq_true, decide_eq_true_iff] at aboveBelow
      rw [Number.isZero_iff_rank] at flat
      rw [wide]
      by_cases low : Number.rank r.numerator = 0
      · refine ⟨0, by rw [low], ?_, rfl⟩
        rw [low, Int.compare_eq_lt.2 (by omega)]
        rfl
      · rw [Int.compare_eq_gt.2 (by omega : 0 < Number.rank r.numerator)]
        cases compare (Number.rank r.numerator) (Number.rank r.denominator) with
        | lt => exact ⟨1, rfl, rfl, rfl⟩
        | eq => exact ⟨2, rfl, rfl, rfl⟩
        | gt => exact ⟨3, rfl, rfl, rfl⟩

/-- The ratio of two lengths is totally ordered together with zero, one and infinity. -/
theorem totalOn_sides {r : Ratio} (numerator : Device.IsLength r.numerator)
    (denominator : Device.IsLength r.denominator) :
    Endpoint.TotalOn (· ∈ [(⟨0, 1⟩ : Ratio), ⟨1, 1⟩, ⟨Number.infinity, 1⟩, r]) := by
  obtain ⟨level, toZero, toOne, toTop⟩ := exists_ratio_level numerator denominator
  have swapped {s : Ratio} {n : Int} (order : Ratio.order r s = compare level n) :
      Ratio.order s r = compare n level := by
    rw [← Ratio.order_swap, order]
    exact (@Std.OrientedCmp.eq_swap Int compare _ n level).symm
  have self : Ratio.order r r = compare level level := by
    rw [Ratio.order_self, compare_eq_iff_eq.2 rfl]
  refine Endpoint.totalOn_of_levels
    [(⟨0, 1⟩, 0), (⟨1, 1⟩, 2), (⟨Number.infinity, 1⟩, 4), (r, level)] ?_
  simp only [List.forall_mem_cons, List.not_mem_nil, false_implies, implies_true, and_true]
  refine ⟨⟨?_, ?_, ?_, swapped toZero⟩, ⟨?_, ?_, ?_, swapped toOne⟩,
    ⟨?_, ?_, ?_, swapped toTop⟩, toZero, toOne, toTop, self⟩
  all_goals decide

end Domains

end MediaQuery
