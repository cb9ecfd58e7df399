import MediaQuery.Device.Matching
import MediaQuery.Proofs.Device
import MediaQuery.Proofs.Interval
import MediaQuery.Proofs.KeyMap

set_option autoImplicit false

namespace MediaQuery

/-- A value of a domain, among values that are totally ordered together with the domain. -/
structure Interval.Placed {α : Type} [Endpoint α] (P : α → Prop) (domain : Interval α) (v : α) :
    Prop where
  total : Endpoint.TotalOn P
  ends : domain.EndsIn P
  among : P v
  inside : domain.contains v = true

theorem GamutMask.inter_assoc (x y z : GamutMask) : (x.inter y).inter z = x.inter (y.inter z) := by
  simp [inter, Bool.and_assoc]

/-- The kind of a feature that is asked for under its own name. -/
def FeatureTable.kind? (key : String) : Option FeatureKind :=
  (FeatureTable.lookup? key).map FeatureSpec.kind

/-- A valid device whose ratios are totally ordered together with others; `ratios` says for each
feature which ones. -/
structure Device.Sound (d : Device) (ratios : String → Ratio → Prop) : Prop where
  valid : d.Valid
  total : ∀ {key r}, d.ratio? key = some r → Endpoint.TotalOn (ratios key)
  ends : ∀ {key r}, d.ratio? key = some r → ratioDomain.EndsIn (ratios key)
  among : ∀ {key r}, d.ratio? key = some r → ratios key r

namespace Device

variable {d : Device} {ratios : String → Ratio → Prop} {key : String}

theorem answers_of_kind? {kind : FeatureKind} (known : FeatureTable.kind? key = some kind) :
    d.Answers key kind := by
  obtain ⟨spec, found, rfl⟩ := Option.map_eq_some_iff.1 known
  rw [← FeatureTable.lookup?_name found]
  exact d.answers spec (FeatureTable.lookup?_mem found)

theorem Sound.number (sound : d.Sound ratios) {kind : NumericKind}
    (known : FeatureTable.kind? key = some (.numeric kind)) :
    ∃ x, d.number? key = some x ∧
      Interval.Placed (fun x => Number.isNaN x = false) numberDomain x := by
  obtain ⟨x, found⟩ := answers_of_kind? (d := d) known
  have above := sound.valid.number? found
  exact ⟨x, found, Number.totalOn, numberDomain_endsIn,
    ((Number.isNonNegative_iff x).1 above).1, numberDomain_contains above⟩

theorem Sound.ratio (sound : d.Sound ratios)
    (known : FeatureTable.kind? key = some .ratio) :
    ∃ r, d.ratio? key = some r ∧ Interval.Placed (ratios key) ratioDomain r := by
  obtain ⟨r, found⟩ := answers_of_kind? (d := d) known
  have lengths := sound.valid.ratio? found
  exact ⟨r, found, sound.total found, sound.ends found, sound.among found,
    ratioDomain_contains lengths.1 lengths.2⟩

end Device

namespace Constraint

/-- A constraint is of the kind of its feature, and its ends are numbers or such ratios. -/
inductive Suits (ratios : Ratio → Prop) : FeatureKind → Constraint → Prop where
  | always {kind : FeatureKind} : Suits ratios kind .always
  | never {kind : FeatureKind} : Suits ratios kind .never
  | discrete {values : List DiscreteValue} {value : DiscreteValue} (listed : value ∈ values) :
      Suits ratios (.discrete values) (.discrete value)
  | gamut {mask : GamutMask} : Suits ratios .gamut (.gamut mask)
  | number {kind : NumericKind} {interval : Interval Float}
      (ends : interval.EndsIn fun x => Number.isNaN x = false) :
      Suits ratios (.numeric kind) (.number interval)
  | ratio {interval : Interval Ratio} (ends : interval.EndsIn ratios) :
      Suits ratios .ratio (.ratio interval)

section Holds

variable {d : Device} {key : String}

@[simp] theorem holds_always : Constraint.always.holds d key = true := rfl

@[simp] theorem holds_never : Constraint.never.holds d key = false := rfl

theorem holds_discrete (value : DiscreteValue) :
    (Constraint.discrete value).holds d key = (d.discrete? key == some value) := by
  cases value with
  | keyword name =>
    by_cases grid : key = "grid"
    · subst grid
      rfl
    · simp only [holds, Device.discrete?, if_neg grid]
      cases d.keyword? key <;> simp
  | integer n =>
    by_cases grid : key = "grid"
    · subst grid
      simp [holds, Device.discrete?]
    · simp only [holds, Device.discrete?, if_neg grid, beq_eq_false_iff_ne.2 grid,
        Bool.false_and]
      cases d.keyword? key <;> simp

theorem holds_gamut {mask : GamutMask} {band : GamutBand} (found : d.gamut? key = some band) :
    (Constraint.gamut mask).holds d key = mask.contains band := by
  simp [holds, found]

theorem holds_number {interval : Interval Float} {x : Float} (found : d.number? key = some x) :
    (Constraint.number interval).holds d key = interval.contains x := by
  simp [holds, found]

theorem holds_ratio {interval : Interval Ratio} {r : Ratio} (found : d.ratio? key = some r) :
    (Constraint.ratio interval).holds d key = interval.contains r := by
  simp [holds, found]

theorem holds_ofNumbers? {interval : Option (Interval Float)} {x : Float}
    (found : d.number? key = some x) :
    (ofNumbers? interval).holds d key = interval.any (·.contains x) := by
  cases interval with
  | none => rfl
  | some part => exact holds_number found

theorem holds_ofRatios? {interval : Option (Interval Ratio)} {r : Ratio}
    (found : d.ratio? key = some r) :
    (ofRatios? interval).holds d key = interval.any (·.contains r) := by
  cases interval with
  | none => rfl
  | some part => exact holds_ratio found

end Holds

@[simp] theorem inter_always (a : Constraint) : a.inter .always = a := by cases a <;> rfl

@[simp] theorem inter_never (a : Constraint) : a.inter .never = .never := by cases a <;> rfl

@[simp] theorem always_inter (a : Constraint) : Constraint.always.inter a = a := by cases a <;> rfl

@[simp] theorem never_inter (a : Constraint) : Constraint.never.inter a = .never := rfl

theorem inter_discrete (x y : DiscreteValue) :
    (Constraint.discrete x).inter (.discrete y) = if x = y then .discrete x else .never := rfl

theorem inter_number (x y : Interval Float) :
    (Constraint.number x).inter (.number y) = ofNumbers? (x.inter? y) := rfl

theorem inter_ratio (x y : Interval Ratio) :
    (Constraint.ratio x).inter (.ratio y) = ofRatios? (x.inter? y) := rfl

section Suits

variable {ratios : Ratio → Prop} {kind : FeatureKind} {a b : Constraint}

theorem suits_ofNumbers? {kind : NumericKind} {interval : Option (Interval Float)}
    (ends : ∀ part, interval = some part → part.EndsIn fun x => Number.isNaN x = false) :
    (ofNumbers? interval).Suits ratios (.numeric kind) := by
  cases interval with
  | none => exact .never
  | some part => exact .number (ends part rfl)

theorem suits_ofRatios? {interval : Option (Interval Ratio)}
    (ends : ∀ part, interval = some part → part.EndsIn ratios) :
    (ofRatios? interval).Suits ratios .ratio := by
  cases interval with
  | none => exact .never
  | some part => exact .ratio (ends part rfl)

theorem Suits.inter (left : a.Suits ratios kind) (right : b.Suits ratios kind) :
    (a.inter b).Suits ratios kind := by
  cases right with
  | never => simpa using .never
  | always => simpa using left
  | discrete listed' =>
    cases left with
    | never => exact .never
    | always => exact .discrete listed'
    | discrete listed =>
      simp only [Constraint.inter]
      split
      · exact .discrete listed
      · exact .never
  | gamut =>
    cases left with
    | never => exact .never
    | always => exact .gamut
    | gamut => exact .gamut
  | number ends' =>
    cases left with
    | never => exact .never
    | always => exact .number ends'
    | number ends => exact suits_ofNumbers? fun part common => ends.inter? ends' common
  | ratio ends' =>
    cases left with
    | never => exact .never
    | always => exact .ratio ends'
    | ratio ends => exact suits_ofRatios? fun part common => ends.inter? ends' common

end Suits

variable {d : Device} {ratios : String → Ratio → Prop} {key : String} {kind : FeatureKind}
  {a b c : Constraint}

/-- Both constraints at once. -/
theorem holds_inter (sound : d.Sound ratios) (known : FeatureTable.kind? key = some kind)
    (left : a.Suits (ratios key) kind) (right : b.Suits (ratios key) kind) :
    (a.inter b).holds d key = (a.holds d key && b.holds d key) := by
  cases right with
  | never => simp
  | always => simp
  | @discrete values y listed' =>
    cases left with
    | never => rfl
    | always => rfl
    | @discrete _ x listed =>
      simp only [inter]
      by_cases same : x = y
      · simp [same]
      · rw [if_neg same, holds_never, holds_discrete, holds_discrete]
        cases d.discrete? key with
        | none => rfl
        | some actual =>
          by_cases first : actual = x
          · simp [first, same]
          · simp [first]
  | gamut =>
    cases left with
    | never => rfl
    | always => rfl
    | gamut =>
      obtain ⟨band, found⟩ := Device.answers_of_kind? (d := d) known
      simp only [inter, holds_gamut found, GamutMask.contains_inter]
  | number ends' =>
    cases left with
    | never => rfl
    | always => rfl
    | number ends =>
      obtain ⟨v, found, placed⟩ := sound.number known
      rw [inter, holds_ofNumbers? found, holds_number found, holds_number found]
      exact Interval.any_contains_inter? placed.total ends ends' placed.among
  | ratio ends' =>
    cases left with
    | never => rfl
    | always => rfl
    | ratio ends =>
      obtain ⟨v, found, placed⟩ := sound.ratio known
      rw [inter, holds_ofRatios? found, holds_ratio found, holds_ratio found]
      exact Interval.any_contains_inter? placed.total ends ends' placed.among

theorem not_holds_of_isContradiction (known : FeatureTable.kind? key = some kind)
    (suits : c.Suits (ratios key) kind) (never : c.isContradiction = true) :
    c.holds d key = false := by
  cases suits with
  | never => rfl
  | always => cases never
  | discrete listed => cases never
  | @gamut mask =>
    obtain ⟨band, found⟩ := Device.answers_of_kind? (d := d) known
    rw [holds_gamut found]
    simp only [isContradiction, GamutMask.isEmpty, Bool.and_eq_true, Bool.not_eq_true'] at never
    cases band <;> simp [GamutMask.contains, never]
  | number ends => cases never
  | ratio ends => cases never

/-- What the domain leaves of a constraint is of the same kind; the ends of the domain only join the
ratios of a constraint that has some. -/
theorem Suits.simplify_of {P : Ratio → Prop}
    (inside : ∀ interval, c = .ratio interval → ratioDomain.EndsIn P) (suits : c.Suits P kind) :
    c.simplify.Suits P kind := by
  cases suits with
  | never => exact .never
  | always => exact .always
  | discrete listed => exact .discrete listed
  | gamut =>
    simp only [Constraint.simplify]
    split
    · exact .never
    · split
      · exact .always
      · exact .gamut
  | @number _ interval ends =>
    rw [Constraint.simplify]
    cases left : interval.bound numberDomain with
    | whole => exact .always
    | nothing => exact .never
    | part part => exact .number (ends.bound numberDomain_endsIn left)
  | @ratio interval ends =>
    rw [Constraint.simplify]
    cases left : interval.bound ratioDomain with
    | whole => exact .always
    | nothing => exact .never
    | part part => exact .ratio (ends.bound (inside interval rfl) left)

theorem Suits.ratioDomain_endsIn (sound : d.Sound ratios)
    (known : FeatureTable.kind? key = some kind) (suits : c.Suits (ratios key) kind) :
    ∀ interval, c = .ratio interval → ratioDomain.EndsIn (ratios key) := by
  rintro interval rfl
  cases suits
  obtain ⟨v, found, placed⟩ := sound.ratio known
  exact placed.ends

theorem Suits.simplify (sound : d.Sound ratios) (known : FeatureTable.kind? key = some kind)
    (suits : c.Suits (ratios key) kind) : c.simplify.Suits (ratios key) kind :=
  suits.simplify_of (suits.ratioDomain_endsIn sound known)

/-- Inside the domain of its feature a constraint asks for what it asked for. -/
theorem holds_simplify (sound : d.Sound ratios) (known : FeatureTable.kind? key = some kind)
    (suits : c.Suits (ratios key) kind) : c.simplify.holds d key = c.holds d key := by
  cases suits with
  | never => rfl
  | always => rfl
  | discrete listed => rfl
  | @gamut mask =>
    obtain ⟨band, found⟩ := Device.answers_of_kind? (d := d) known
    simp only [simplify]
    split
    · rename_i empty
      have suits : (Constraint.gamut mask).Suits (ratios key) .gamut := .gamut
      exact (not_holds_of_isContradiction known suits empty).symm
    · split
      · rename_i full
        rw [holds_gamut found]
        simp only [GamutMask.isFull, Bool.and_eq_true] at full
        cases band <;> simp [GamutMask.contains, full]
      · rfl
  | @number _ interval ends =>
    obtain ⟨v, found, placed⟩ := sound.number known
    rw [holds_number found, ← Interval.contains_bound placed.total ends placed.ends placed.among
      placed.inside, simplify]
    cases interval.bound numberDomain with
    | whole => rfl
    | nothing => rfl
    | part part => exact holds_number found
  | @ratio interval ends =>
    obtain ⟨v, found, placed⟩ := sound.ratio known
    rw [holds_ratio found, ← Interval.contains_bound placed.total ends placed.ends placed.among
      placed.inside, simplify]
    cases interval.bound ratioDomain with
    | whole => rfl
    | nothing => rfl
    | part part => exact holds_ratio found

/-- What covers a constraint holds where the constraint does. -/
theorem holds_of_covers (sound : d.Sound ratios) (known : FeatureTable.kind? key = some kind)
    (left : a.Suits (ratios key) kind) (right : b.Suits (ratios key) kind)
    (covers : a.covers b = true) (holds : b.holds d key = true) : a.holds d key = true := by
  cases left with
  | always => rfl
  | never =>
    cases right with
    | never => cases holds
    | _ => cases covers
  | discrete listed =>
    cases right with
    | never => cases holds
    | always => cases covers
    | discrete listed' =>
      simp only [Constraint.covers, beq_iff_eq] at covers
      rw [covers, holds]
  | @gamut mask =>
    cases right with
    | never => cases holds
    | always => cases covers
    | @gamut mask' =>
      obtain ⟨band, found⟩ := Device.answers_of_kind? (d := d) known
      simp only [Constraint.covers, beq_iff_eq] at covers
      rw [holds_gamut found] at holds ⊢
      rw [← covers, GamutMask.contains_inter, Bool.and_eq_true] at holds
      exact holds.1
  | number ends =>
    cases right with
    | never => cases holds
    | always => cases covers
    | number ends' =>
      obtain ⟨v, found, placed⟩ := sound.number known
      rw [holds_number found] at holds ⊢
      exact Interval.contains_of_covers placed.total ends ends' placed.among covers holds
  | ratio ends =>
    cases right with
    | never => cases holds
    | always => cases covers
    | ratio ends' =>
      obtain ⟨v, found, placed⟩ := sound.ratio known
      rw [holds_ratio found] at holds ⊢
      exact Interval.contains_of_covers placed.total ends ends' placed.among covers holds

/-- A constraint that some device satisfies covers itself. -/
theorem covers_refl (sound : d.Sound ratios) (known : FeatureTable.kind? key = some kind)
    (suits : c.Suits (ratios key) kind) (holds : c.holds d key = true) : c.covers c = true := by
  cases suits with
  | never => rfl
  | always => rfl
  | discrete listed => simp [covers]
  | @gamut mask => simp [covers, GamutMask.inter]
  | @number _ interval ends =>
    obtain ⟨v, found, placed⟩ := sound.number known
    refine Interval.covers_refl placed.total ends ?_
    cases empty : interval.isEmpty with
    | false => rfl
    | true =>
      rw [holds_number found, Interval.contains_of_isEmpty placed.total ends placed.among empty]
        at holds
      cases holds
  | @ratio interval ends =>
    obtain ⟨v, found, placed⟩ := sound.ratio known
    refine Interval.covers_refl placed.total ends ?_
    cases empty : interval.isEmpty with
    | false => rfl
    | true =>
      rw [holds_ratio found, Interval.contains_of_isEmpty placed.total ends placed.among empty]
        at holds
      cases holds

theorem covers_never (a : Constraint) : a.covers .never = true := by cases a <;> rfl

theorem covers_trans (sound : d.Sound ratios) (known : FeatureTable.kind? key = some kind)
    (ha : a.Suits (ratios key) kind) (hb : b.Suits (ratios key) kind)
    (hc : c.Suits (ratios key) kind) (first : a.covers b = true) (second : b.covers c = true) :
    a.covers c = true := by
  cases hc with
  | never => exact covers_never a
  | always =>
    cases hb <;> cases second
    exact first
  | discrete listed =>
    cases hb with
    | never => cases second
    | always =>
      cases ha <;> cases first
      rfl
    | discrete listed' =>
      simp only [covers, beq_iff_eq] at second
      rwa [← second]
  | gamut =>
    cases hb with
    | never => cases second
    | always =>
      cases ha <;> cases first
      rfl
    | gamut =>
      cases ha with
      | never => cases first
      | always => rfl
      | gamut =>
        simp only [covers, beq_iff_eq] at first second ⊢
        rw [← second, ← GamutMask.inter_assoc, first]
  | number ends =>
    cases hb with
    | never => cases second
    | always =>
      cases ha <;> cases first
      rfl
    | number ends' =>
      cases ha with
      | never => cases first
      | always => rfl
      | number ends'' => exact Interval.covers_trans Number.totalOn ends'' ends' ends first second
  | ratio ends =>
    cases hb with
    | never => cases second
    | always =>
      cases ha <;> cases first
      rfl
    | ratio ends' =>
      cases ha with
      | never => cases first
      | always => rfl
      | ratio ends'' =>
        obtain ⟨v, found, placed⟩ := sound.ratio known
        exact Interval.covers_trans placed.total ends'' ends' ends first second

/-- The constraints of a negation are of the kind of the feature; the ends of the domain only join
the ratios of a constraint that has some. -/
theorem suits_negate_of {P : Ratio → Prop} (known : FeatureTable.kind? key = some kind)
    (inside : ∀ interval, a = .ratio interval → ratioDomain.EndsIn P) (suits : a.Suits P kind)
    {part : Clause} (mem : part ∈ a.negate key) :
    part = Clause.top ∨ ∃ c : Constraint, c.Suits P kind ∧ part = Clause.single key c := by
  cases suits with
  | always => cases mem
  | never => exact .inl (List.mem_singleton.1 mem)
  | @discrete values value listed =>
    rw [FeatureTable.kind?] at known
    simp only [negate, known, List.mem_map, List.mem_filter] at mem
    obtain ⟨other, ⟨listed', _⟩, rfl⟩ := mem
    exact .inr ⟨_, .discrete listed', rfl⟩
  | gamut => exact .inr ⟨_, .gamut, List.mem_singleton.1 mem⟩
  | number ends =>
    obtain ⟨interval, gap, rfl⟩ := List.mem_map.1 mem
    exact .inr ⟨_, .number (ends.complement numberDomain_endsIn gap), rfl⟩
  | ratio ends =>
    obtain ⟨interval, gap, rfl⟩ := List.mem_map.1 mem
    exact .inr ⟨_, .ratio (ends.complement (inside _ rfl) gap), rfl⟩

theorem suits_negate (sound : d.Sound ratios) (known : FeatureTable.kind? key = some kind)
    (suits : a.Suits (ratios key) kind) {part : Clause} (mem : part ∈ a.negate key) :
    part = Clause.top ∨
      ∃ c : Constraint, c.Suits (ratios key) kind ∧ part = Clause.single key c :=
  suits_negate_of known (suits.ratioDomain_endsIn sound known) suits mem

end Constraint

end MediaQuery
