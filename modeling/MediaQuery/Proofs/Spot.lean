import MediaQuery.Proofs.Irredundant

set_option autoImplicit false

/- Constraints as sets of spots. The spots of a feature are its values, or, if it has numbers or
ratios, the cuts between them. There are more cuts than values, so that spots tell all constraints
apart: what the domain leaves of a constraint is empty iff there is no spot in it, and it covers
another constraint iff it has all the spots of that one. -/
namespace MediaQuery

/-- A value that a feature may have, or a cut between values. -/
inductive Spot (β : Type) where
  | word (value : DiscreteValue)
  | band (band : GamutBand)
  | number (cut : ℤ ×ₗ Bool)
  | ratio (cut : β ×ₗ Bool)
  /-- The only spot of a feature that is asked for under another name. -/
  | blank

variable {β : Type} [LinearOrder β]

/-- The spots of a feature, inside of its domain. -/
def Spot.Legal (level : Ratio → β) : FeatureKind → Spot β → Prop
  | .discrete values, .word value => value ∈ values
  | .gamut, .band _ => True
  | .numeric _, .number cut => cut ∈ numberDomain.span Number.rank
  | .ratio, .ratio cut => cut ∈ ratioDomain.span level
  | .orientation, .blank | .pixelRatio, .blank => True
  | _, _ => False

/-- Spots without a gap: of the words all or at most one, and with two cuts all between them. -/
structure Spot.IsBlock (spots : Set (Spot β)) : Prop where
  words : (∀ value, .word value ∈ spots) ∨
    ∀ value other, .word value ∈ spots → .word other ∈ spots → value = other
  numbers : {cut | .number cut ∈ spots}.OrdConnected
  ratios : {cut | .ratio cut ∈ spots}.OrdConnected

theorem Spot.isBlock_singleton (s : Spot β) : Spot.IsBlock {s} where
  words := .inr fun value other first second => by
    have same : Spot.word value = Spot.word other := first.trans second.symm
    cases same
    rfl
  numbers := ⟨fun x first y second z between => by
    have same : Spot.number x = Spot.number y := first.trans second.symm
    cases same
    rwa [le_antisymm between.2 between.1]⟩
  ratios := ⟨fun x first y second z between => by
    have same : Spot.ratio x = Spot.ratio y := first.trans second.symm
    cases same
    rwa [le_antisymm between.2 between.1]⟩

/-- Whether a spot is one of those that a constraint asks for. -/
def Constraint.Admits (level : Ratio → β) : Constraint → Spot β → Prop
  | .always, _ => True
  | .discrete value, .word other => other = value
  | .gamut mask, .band band => mask.contains band = true
  | .number interval, .number cut => cut ∈ interval.span Number.rank
  | .ratio interval, .ratio cut => cut ∈ interval.span level
  | _, _ => False

/-- Ratios with their levels, and the ends of their domain among them. -/
structure Ratio.Ruler (P : Ratio → Prop) (level : Ratio → β) : Prop where
  leveled : Endpoint.Leveled P level
  ends : ratioDomain.EndsIn P

theorem Number.leveled : Endpoint.Leveled (fun x : Float => isNaN x = false) rank := by
  intro x y hx hy
  rw [cmp_eq_compare]
  exact order_eq_compare_rank hx hy

def FeatureKind.values : FeatureKind → List DiscreteValue
  | .discrete values => values
  | _ => []

theorem FeatureTable.exists_values : ∀ spec ∈ FeatureTable.all,
    spec.kind = .discrete spec.kind.values →
      ∃ v ∈ spec.kind.values, ∃ w ∈ spec.kind.values, v ≠ w := by
  decide +kernel

/-- A discrete feature has a value besides any one. -/
theorem FeatureTable.exists_other {key : String} {values : List DiscreteValue}
    (known : FeatureTable.kind? key = some (.discrete values)) (value : DiscreteValue) :
    ∃ other ∈ values, other ≠ value := by
  obtain ⟨spec, found, kind⟩ := Option.map_eq_some_iff.1 known
  have two := exists_values spec (lookup?_mem found)
  rw [kind] at two
  obtain ⟨v, hv, w, hw, ne⟩ := two rfl
  by_cases same : v = value
  · exact ⟨w, hw, fun same' => ne (same.trans same'.symm)⟩
  · exact ⟨v, hv, same⟩

namespace GamutMask

variable {x y : GamutMask}

theorem ext_contains (bands : ∀ g, x.contains g = y.contains g) : x = y := by
  have first := bands .belowSrgb
  have second := bands .srgb
  have third := bands .p3
  have fourth := bands .rec2020
  cases x
  cases y
  simp_all [contains]

theorem isEmpty_iff : x.isEmpty = true ↔ ∀ g, x.contains g = false := by
  constructor
  · intro empty g
    simp only [isEmpty, Bool.and_eq_true, Bool.not_eq_true'] at empty
    cases g <;> simp [contains, empty]
  · intro none
    have first := none .belowSrgb
    have second := none .srgb
    have third := none .p3
    have fourth := none .rec2020
    simp_all [contains, isEmpty]

theorem exists_contains (occupied : x.isEmpty = false) : ∃ g, x.contains g = true := by
  rw [← Bool.not_eq_true, isEmpty_iff] at occupied
  obtain ⟨g, inside⟩ := not_forall.1 occupied
  exact ⟨g, by simpa using inside⟩

theorem isFull_iff : x.isFull = true ↔ ∀ g, x.contains g = true := by
  constructor
  · intro full g
    simp only [isFull, Bool.and_eq_true] at full
    cases g <;> simp [contains, full]
  · intro all
    have first := all .belowSrgb
    have second := all .srgb
    have third := all .p3
    have fourth := all .rec2020
    simp_all [contains, isFull]

theorem inter_eq_right_iff : x.inter y = y ↔ ∀ g, y.contains g = true → x.contains g = true := by
  constructor
  · intro sub g inside
    rw [← sub, contains_inter, Bool.and_eq_true] at inside
    exact inside.1
  · intro sub
    refine ext_contains fun g => ?_
    rw [contains_inter]
    cases inside : y.contains g with
    | false => exact Bool.and_false _
    | true => rw [sub g inside, Bool.and_self]

end GamutMask

namespace Constraint

/-- What the domain may leave of a constraint on a feature. -/
inductive Reduced (P : Ratio → Prop) (level : Ratio → β) : FeatureKind → Constraint → Prop where
  | always {kind : FeatureKind} : Reduced P level kind .always
  | never {kind : FeatureKind} : Reduced P level kind .never
  | discrete {values : List DiscreteValue} {value : DiscreteValue} (listed : value ∈ values) :
      Reduced P level (.discrete values) (.discrete value)
  | gamut {mask : GamutMask} (occupied : mask.isEmpty = false) (short : mask.isFull = false) :
      Reduced P level .gamut (.gamut mask)
  | number {kind : NumericKind} {interval : Interval Float}
      (ends : interval.EndsIn fun x => Number.isNaN x = false)
      (occupied : (interval.span Number.rank).Nonempty)
      (inside : interval.span Number.rank ⊆ numberDomain.span Number.rank)
      (short : ¬numberDomain.span Number.rank ⊆ interval.span Number.rank) :
      Reduced P level (.numeric kind) (.number interval)
  | ratio {interval : Interval Ratio} (ends : interval.EndsIn P)
      (occupied : (interval.span level).Nonempty)
      (inside : interval.span level ⊆ ratioDomain.span level)
      (short : ¬ratioDomain.span level ⊆ interval.span level) :
      Reduced P level .ratio (.ratio interval)

variable {P : Ratio → Prop} {level : Ratio → β} {key : String} {kind : FeatureKind}
  {a b c : Constraint} {s : Spot β}

theorem Suits.reduced (ruler : Ratio.Ruler P level) (suits : c.Suits P kind) :
    c.simplify.Reduced P level kind := by
  cases suits with
  | always => exact .always
  | never => exact .never
  | discrete listed => exact .discrete listed
  | @gamut mask =>
    rw [Constraint.simplify]
    by_cases empty : mask.isEmpty = true
    · rw [if_pos empty]
      exact .never
    · rw [if_neg empty]
      by_cases full : mask.isFull = true
      · rw [if_pos full]
        exact .always
      · rw [if_neg full]
        exact .gamut (by simpa using empty) (by simpa using full)
  | @number _ interval ends =>
    rw [Constraint.simplify]
    have spans := Interval.span_of_bound Number.leveled ends numberDomain_endsIn
    cases left : interval.bound numberDomain with
    | whole => exact .always
    | nothing => exact .never
    | part part =>
      rw [left] at spans
      obtain ⟨both, occupied, short⟩ := spans
      exact .number (ends.bound numberDomain_endsIn left) occupied
        (both.trans_subset Set.inter_subset_right) short
  | @ratio interval ends =>
    rw [Constraint.simplify]
    have spans := Interval.span_of_bound ruler.leveled ends ruler.ends
    cases left : interval.bound ratioDomain with
    | whole => exact .always
    | nothing => exact .never
    | part part =>
      rw [left] at spans
      obtain ⟨both, occupied, short⟩ := spans
      exact .ratio (ends.bound ruler.ends left) occupied
        (both.trans_subset Set.inter_subset_right) short

theorem admits_ofBoundedNumbers (bounded : Bounded Float) (cut : ℤ ×ₗ Bool) :
    (ofBoundedNumbers bounded).Admits level (.number cut) ↔ cut ∈ bounded.span Number.rank := by
  cases bounded <;> exact Iff.rfl

theorem admits_ofBoundedRatios (bounded : Bounded Ratio) (cut : β ×ₗ Bool) :
    (ofBoundedRatios bounded).Admits level (.ratio cut) ↔ cut ∈ bounded.span level := by
  cases bounded <;> exact Iff.rfl

/-- The domain leaves a constraint with the spots that it has there. -/
theorem Suits.admits_simplify (ruler : Ratio.Ruler P level) (suits : c.Suits P kind)
    (legal : Spot.Legal level kind s) : c.simplify.Admits level s ↔ c.Admits level s := by
  cases suits with
  | always => exact Iff.rfl
  | never => exact Iff.rfl
  | discrete listed => exact Iff.rfl
  | @gamut mask =>
    cases s with
    | band g =>
      rw [Constraint.simplify]
      by_cases empty : mask.isEmpty = true
      · rw [if_pos empty]
        exact iff_of_false id (by simp [Admits, GamutMask.isEmpty_iff.1 empty g])
      · rw [if_neg empty]
        by_cases full : mask.isFull = true
        · rw [if_pos full]
          exact iff_of_true trivial (GamutMask.isFull_iff.1 full g)
        · rw [if_neg full]
    | _ => cases legal
  | number ends =>
    cases s with
    | number cut =>
      rw [Constraint.simplify, admits_ofBoundedNumbers]
      exact Interval.mem_span_bound Number.leveled ends numberDomain_endsIn legal
    | _ => cases legal
  | ratio ends =>
    cases s with
    | ratio cut =>
      rw [Constraint.simplify, admits_ofBoundedRatios]
      exact Interval.mem_span_bound ruler.leveled ends ruler.ends legal
    | _ => cases legal

theorem numberDomain_nonempty : (numberDomain.span Number.rank).Nonempty :=
  (Interval.span_nonempty_iff Number.leveled numberDomain_endsIn).2 (by decide +kernel)

theorem ratioDomain_nonempty (ruler : Ratio.Ruler P level) : (ratioDomain.span level).Nonempty :=
  (Interval.span_nonempty_iff ruler.leveled ruler.ends).2 (by decide +kernel)

theorem exists_legal (ruler : Ratio.Ruler P level) (known : FeatureTable.kind? key = some kind) :
    ∃ s, Spot.Legal level kind s := by
  cases kind with
  | discrete values =>
    obtain ⟨value, listed, _⟩ := FeatureTable.exists_other known (.integer 0)
    exact ⟨.word value, listed⟩
  | gamut => exact ⟨.band .srgb, trivial⟩
  | numeric unit =>
    obtain ⟨cut, inside⟩ := numberDomain_nonempty
    exact ⟨.number cut, inside⟩
  | ratio =>
    obtain ⟨cut, inside⟩ := ratioDomain_nonempty ruler
    exact ⟨.ratio cut, inside⟩
  | orientation => exact ⟨.blank, trivial⟩
  | pixelRatio => exact ⟨.blank, trivial⟩

/-- What is left of a constraint has a spot. -/
theorem Reduced.exists_spot (ruler : Ratio.Ruler P level)
    (known : FeatureTable.kind? key = some kind) (reduced : c.Reduced P level kind)
    (possible : c.isNever = false) : ∃ s, Spot.Legal level kind s ∧ c.Admits level s := by
  cases reduced with
  | never => cases possible
  | always =>
    obtain ⟨s, legal⟩ := exists_legal ruler known
    exact ⟨s, legal, trivial⟩
  | discrete listed => exact ⟨.word _, listed, rfl⟩
  | gamut occupied short =>
    obtain ⟨g, inside⟩ := GamutMask.exists_contains occupied
    exact ⟨.band g, trivial, inside⟩
  | number ends occupied inside short =>
    obtain ⟨cut, mem⟩ := occupied
    exact ⟨.number cut, inside mem, mem⟩
  | ratio ends occupied inside short =>
    obtain ⟨cut, mem⟩ := occupied
    exact ⟨.ratio cut, inside mem, mem⟩

/-- What covers a constraint has its spots. -/
private theorem Reduced.admits_of_covers (ruler : Ratio.Ruler P level)
    (left : a.Reduced P level kind) (right : b.Reduced P level kind) (covers : a.covers b = true)
    (legal : Spot.Legal level kind s) (inside : b.Admits level s) : a.Admits level s := by
  cases left with
  | always => trivial
  | never =>
    cases right with
    | never => exact inside
    | _ => cases covers
  | discrete listed =>
    cases right with
    | always => cases covers
    | never => cases inside
    | discrete listed' =>
      cases s with
      | word value => exact Eq.trans inside (beq_iff_eq.1 covers).symm
      | _ => cases legal
  | gamut occupied short =>
    cases right with
    | always => cases covers
    | never => cases inside
    | gamut occupied' short' =>
      cases s with
      | band g => exact GamutMask.inter_eq_right_iff.1 (beq_iff_eq.1 covers) g inside
      | _ => cases legal
  | number ends occupied within short =>
    cases right with
    | always => cases covers
    | never => cases inside
    | number ends' occupied' within' short' =>
      cases s with
      | number cut =>
        exact ((Interval.coversInterval_iff_span Number.leveled ends ends').1 covers).2 inside
      | _ => cases legal
  | ratio ends occupied within short =>
    cases right with
    | always => cases covers
    | never => cases inside
    | ratio ends' occupied' within' short' =>
      cases s with
      | ratio cut =>
        exact ((Interval.coversInterval_iff_span ruler.leveled ends ends').1 covers).2 inside
      | _ => cases legal

/-- What has all spots of a feature asks for nothing. -/
private theorem Reduced.eq_always (ruler : Ratio.Ruler P level)
    (known : FeatureTable.kind? key = some kind) (reduced : a.Reduced P level kind)
    (all : ∀ s, Spot.Legal level kind s → a.Admits level s) : a = .always := by
  cases reduced with
  | always => rfl
  | never =>
    obtain ⟨s, legal⟩ := exists_legal ruler known
    exact (all s legal).elim
  | @discrete _ value listed =>
    obtain ⟨other, listed', ne⟩ := FeatureTable.exists_other known value
    exact absurd (all (.word other) listed') ne
  | gamut occupied short =>
    rw [GamutMask.isFull_iff.2 fun g => all (.band g) trivial] at short
    cases short
  | number ends occupied within short =>
    exact absurd (fun cut legal => all (.number cut) legal) short
  | ratio ends occupied within short =>
    exact absurd (fun cut legal => all (.ratio cut) legal) short

/-- What has the spots of a constraint covers it. -/
private theorem Reduced.covers_of_admits (ruler : Ratio.Ruler P level)
    (known : FeatureTable.kind? key = some kind) (left : a.Reduced P level kind)
    (right : b.Reduced P level kind)
    (sub : ∀ s, Spot.Legal level kind s → b.Admits level s → a.Admits level s) :
    a.covers b = true := by
  by_cases never : b.isNever = true
  · cases b with
    | never => exact covers_never a
    | _ => cases never
  · obtain ⟨s, legal, inside⟩ := right.exists_spot ruler known (by simpa using never)
    have mine := sub s legal inside
    cases right with
    | never => exact inside.elim
    | always =>
      rw [left.eq_always ruler known fun s legal => sub s legal trivial]
      rfl
    | @discrete _ value listed =>
      cases left with
      | always => rfl
      | never => exact mine.elim
      | discrete listed' => exact beq_iff_eq.2 (Eq.symm (sub (.word value) listed rfl))
    | gamut occupied short =>
      cases left with
      | always => rfl
      | never => exact mine.elim
      | gamut occupied' short' =>
        exact beq_iff_eq.2 (GamutMask.inter_eq_right_iff.2 fun g => sub (.band g) trivial)
    | number ends occupied within short =>
      cases left with
      | always => rfl
      | never => exact mine.elim
      | number ends' occupied' within' short' =>
        refine (Interval.coversInterval_iff_span Number.leveled ends' ends).2 ⟨occupied, ?_⟩
        exact fun cut inside => sub (.number cut) (within inside) inside
    | ratio ends occupied within short =>
      cases left with
      | always => rfl
      | never => exact mine.elim
      | ratio ends' occupied' within' short' =>
        refine (Interval.coversInterval_iff_span ruler.leveled ends' ends).2 ⟨occupied, ?_⟩
        exact fun cut inside => sub (.ratio cut) (within inside) inside

/-- What is left of a constraint covers what is left of another one iff it has its spots. -/
theorem Reduced.covers_iff (ruler : Ratio.Ruler P level)
    (known : FeatureTable.kind? key = some kind) (left : a.Reduced P level kind)
    (right : b.Reduced P level kind) : a.covers b = true ↔
      ∀ s, Spot.Legal level kind s → b.Admits level s → a.Admits level s := by
  constructor
  · intro covers s legal inside
    exact left.admits_of_covers ruler right covers legal inside
  · exact left.covers_of_admits ruler known right

theorem admits_ofNumbers? (interval : Option (Interval Float)) (s : Spot β) :
    (ofNumbers? interval).Admits level s ↔
      ∃ part, interval = some part ∧ (Constraint.number part).Admits level s := by
  cases interval with
  | none => exact iff_of_false id (by simp)
  | some part => simp [ofNumbers?]

theorem admits_ofRatios? (interval : Option (Interval Ratio)) (s : Spot β) :
    (ofRatios? interval).Admits level s ↔
      ∃ part, interval = some part ∧ (Constraint.ratio part).Admits level s := by
  cases interval with
  | none => exact iff_of_false id (by simp)
  | some part => simp [ofRatios?]

/-- An intersection has the spots of both constraints. -/
theorem admits_inter (ruler : Ratio.Ruler P level) (left : a.Suits P kind)
    (right : b.Suits P kind) (s : Spot β) :
    (a.inter b).Admits level s ↔ a.Admits level s ∧ b.Admits level s := by
  cases left with
  | always => rw [always_inter]; exact (and_iff_right trivial).symm
  | never => exact iff_of_false id fun both => both.1
  | @discrete _ x listed =>
    cases right with
    | always => exact (and_iff_left trivial).symm
    | never => exact iff_of_false id fun both => both.2
    | @discrete _ y listed' =>
      rw [inter_discrete]
      cases s with
      | word value =>
        by_cases same : x = y
        · rw [if_pos same, same]
          exact (and_self_iff).symm
        · rw [if_neg same]
          exact iff_of_false id fun both => same (both.1.symm.trans both.2)
      | _ => split <;> exact iff_of_false id fun both => both.1
  | gamut =>
    cases right with
    | always => exact (and_iff_left trivial).symm
    | never => exact iff_of_false id fun both => both.2
    | gamut =>
      cases s with
      | band g => simp [Admits, inter, GamutMask.contains_inter]
      | _ => exact iff_of_false id fun both => both.1
  | number ends =>
    cases right with
    | always => exact (and_iff_left trivial).symm
    | never => exact iff_of_false id fun both => both.2
    | number ends' =>
      rw [inter_number, admits_ofNumbers?]
      cases s with
      | number cut => exact Interval.mem_span_inter? Number.leveled ends ends'
      | _ => simp [Admits]
  | ratio ends =>
    cases right with
    | always => exact (and_iff_left trivial).symm
    | never => exact iff_of_false id fun both => both.2
    | ratio ends' =>
      rw [inter_ratio, admits_ofRatios?]
      cases s with
      | ratio cut => exact Interval.mem_span_inter? ruler.leveled ends ends'
      | _ => simp [Admits]

/-- The interval of a constraint, if it has one, is not empty. -/
def IsOccupied : Constraint → Prop
  | .number interval => interval.isEmpty = false
  | .ratio interval => interval.isEmpty = false
  | _ => True

def IsInside (level : Ratio → β) : Constraint → Prop
  | .number interval => interval.span Number.rank ⊆ numberDomain.span Number.rank
  | .ratio interval => interval.span level ⊆ ratioDomain.span level
  | _ => True

theorem isOccupied_ofNumbers? (interval : Option (Interval Float))
    (occupied : ∀ part, interval = some part → part.isEmpty = false) :
    (ofNumbers? interval).IsOccupied := by
  cases interval with
  | none => trivial
  | some part => exact occupied part rfl

theorem isOccupied_ofRatios? (interval : Option (Interval Ratio))
    (occupied : ∀ part, interval = some part → part.isEmpty = false) :
    (ofRatios? interval).IsOccupied := by
  cases interval with
  | none => trivial
  | some part => exact occupied part rfl

theorem IsOccupied.inter (left : a.IsOccupied) (right : b.IsOccupied) : (a.inter b).IsOccupied := by
  cases a <;> cases b <;> try trivial
  case discrete.discrete x y =>
    rw [inter_discrete]
    split <;> trivial
  case number.number x y =>
    exact isOccupied_ofNumbers? _ fun part common => (Interval.inter?_eq_some common).2
  case ratio.ratio x y =>
    exact isOccupied_ofRatios? _ fun part common => (Interval.inter?_eq_some common).2

theorem IsInside.inter (ruler : Ratio.Ruler P level) (left : a.Suits P kind)
    (right : b.Suits P kind) (ha : a.IsInside level) (hb : b.IsInside level) :
    (a.inter b).IsInside level := by
  cases left with
  | always => rwa [always_inter]
  | never => trivial
  | @discrete _ x listed =>
    cases right with
    | always => exact ha
    | never => trivial
    | @discrete _ y listed' =>
      rw [inter_discrete]
      split <;> trivial
  | gamut => cases right <;> trivial
  | @number _ x ends =>
    cases right with
    | always => exact ha
    | never => trivial
    | @number _ y ends' =>
      rw [inter_number]
      cases common : x.inter? y with
      | none => trivial
      | some part =>
        obtain ⟨both, _⟩ := Interval.span_of_inter? Number.leveled ends ends' common
        exact (both.trans_subset Set.inter_subset_left).trans ha
  | @ratio x ends =>
    cases right with
    | always => exact ha
    | never => trivial
    | @ratio y ends' =>
      rw [inter_ratio]
      cases common : x.inter? y with
      | none => trivial
      | some part =>
        obtain ⟨both, _⟩ := Interval.span_of_inter? ruler.leveled ends ends' common
        exact (both.trans_subset Set.inter_subset_left).trans ha

theorem not_admits_of_isContradiction (contradiction : c.isContradiction = true) (s : Spot β) :
    ¬c.Admits level s := by
  intro admits
  cases c with
  | never => exact admits
  | gamut mask =>
    cases s with
    | band g =>
      have outside := GamutMask.isEmpty_iff.1 contradiction g
      rw [Admits, outside] at admits
      cases admits
    | _ => cases admits
  | _ => cases contradiction

/-- Inside the domain, a constraint that does not contradict itself has a spot. -/
theorem IsInside.exists_spot (ruler : Ratio.Ruler P level)
    (known : FeatureTable.kind? key = some kind) (suits : c.Suits P kind)
    (inside : c.IsInside level) (occupied : c.IsOccupied) (sound : c.isContradiction = false) :
    ∃ s, Spot.Legal level kind s ∧ c.Admits level s := by
  cases suits with
  | always =>
    obtain ⟨s, legal⟩ := exists_legal ruler known
    exact ⟨s, legal, trivial⟩
  | never => cases sound
  | discrete listed => exact ⟨.word _, listed, rfl⟩
  | gamut =>
    obtain ⟨g, mem⟩ := GamutMask.exists_contains sound
    exact ⟨.band g, trivial, mem⟩
  | number ends =>
    obtain ⟨cut, mem⟩ := (Interval.span_nonempty_iff Number.leveled ends).2 occupied
    exact ⟨.number cut, inside mem, mem⟩
  | ratio ends =>
    obtain ⟨cut, mem⟩ := (Interval.span_nonempty_iff ruler.leveled ends).2 occupied
    exact ⟨.ratio cut, inside mem, mem⟩

/-- A part of the negation of a constraint: a constraint inside the domain that has none of the
spots of the negated one. -/
structure IsPart (P : Ratio → Prop) (level : Ratio → β) (kind : FeatureKind) (a x : Constraint) :
    Prop where
  suits : x.Suits P kind
  occupied : x.IsOccupied
  inside : x.IsInside level
  apart : ∀ s, x.Admits level s → ¬a.Admits level s

/-- The clauses of a negation are parts, except for that of the constraint that nothing meets. -/
theorem isPart_of_mem_negate (ruler : Ratio.Ruler P level)
    (known : FeatureTable.kind? key = some kind) (suits : a.Suits P kind) {part : Clause}
    (mem : part ∈ a.negate key) : a = .never ∧ part = Clause.top ∨
      ∃ x, part = Clause.single key x ∧ IsPart P level kind a x := by
  cases suits with
  | always => cases mem
  | never => exact .inl ⟨rfl, List.mem_singleton.1 mem⟩
  | @discrete values value listed =>
    rw [FeatureTable.kind?] at known
    simp only [negate, known, List.mem_map, List.mem_filter, decide_eq_true_eq] at mem
    obtain ⟨other, ⟨listed', ne⟩, rfl⟩ := mem
    refine .inr ⟨_, rfl, .discrete listed', trivial, trivial, fun s first second => ?_⟩
    cases s with
    | word v => exact ne (Eq.trans (Eq.symm first) second)
    | _ => cases first
  | @gamut mask =>
    refine .inr ⟨_, List.mem_singleton.1 mem, .gamut, trivial, trivial, fun s first second => ?_⟩
    cases s with
    | band g =>
      simp only [Admits, GamutMask.contains_complement, Bool.not_eq_true'] at first second
      rw [first] at second
      cases second
    | _ => cases first
  | @number _ interval ends =>
    obtain ⟨gap, listed, rfl⟩ := List.mem_map.1 mem
    obtain ⟨occupied, within⟩ :=
      Interval.span_of_mem_complement Number.leveled ends numberDomain_endsIn listed
    have ends' := ends.complement numberDomain_endsIn listed
    refine .inr ⟨_, rfl, .number ends',
      (Interval.span_nonempty_iff Number.leveled ends').1 occupied,
      within.trans Set.sdiff_subset, fun s first second => ?_⟩
    cases s with
    | number cut => exact (within first).2 second
    | _ => cases first
  | @ratio interval ends =>
    obtain ⟨gap, listed, rfl⟩ := List.mem_map.1 mem
    obtain ⟨occupied, within⟩ :=
      Interval.span_of_mem_complement ruler.leveled ends ruler.ends listed
    have ends' := ends.complement ruler.ends listed
    refine .inr ⟨_, rfl, .ratio ends',
      (Interval.span_nonempty_iff ruler.leveled ends').1 occupied,
      within.trans Set.sdiff_subset, fun s first second => ?_⟩
    cases s with
    | ratio cut => exact (within first).2 second
    | _ => cases first

theorem isBlock_admits (level : Ratio → β) (b : Constraint) :
    Spot.IsBlock {s | b.Admits level s} where
  words := by
    cases b with
    | always => exact .inl fun _ => trivial
    | discrete only => exact .inr fun value other first second => Eq.trans first (Eq.symm second)
    | _ => exact .inr fun value other first => first.elim
  numbers := by
    cases b with
    | always => exact Set.ordConnected_univ
    | number interval => exact Set.ordConnected_Ico
    | _ => exact Set.ordConnected_empty
  ratios := by
    cases b with
    | always => exact Set.ordConnected_univ
    | ratio interval => exact Set.ordConnected_Ico
    | _ => exact Set.ordConnected_empty

/-- Beside a constraint, spots without a gap lie in one part of its negation. -/
theorem exists_part (ruler : Ratio.Ruler P level) (known : FeatureTable.kind? key = some kind)
    (suits : a.Suits P kind) (occupied : a.IsOccupied) (possible : a ≠ .never)
    {spots : Set (Spot β)} (block : Spot.IsBlock spots)
    (nonempty : ∃ s ∈ spots, Spot.Legal level kind s)
    (apart : ∀ s ∈ spots, Spot.Legal level kind s → ¬a.Admits level s) :
    ∃ x, Clause.single key x ∈ a.negate key ∧
      ∀ s ∈ spots, Spot.Legal level kind s → x.Admits level s := by
  obtain ⟨s, mem, legal⟩ := nonempty
  cases suits with
  | always => exact absurd trivial (apart s mem legal)
  | never => exact absurd rfl possible
  | @discrete values value listed =>
    cases s with
    | word other =>
      have ne : other ≠ value := apart (.word other) mem legal
      refine ⟨.discrete other, ?_, fun s mem' legal' => ?_⟩
      · rw [FeatureTable.kind?] at known
        simp only [negate, known]
        refine List.mem_map.2 ⟨other, List.mem_filter.2 ⟨legal, ?_⟩, rfl⟩
        simpa using ne
      · cases s with
        | word third =>
          rcases block.words with all | one
          · exact absurd rfl (apart (.word value) (all value) listed)
          · exact one third other mem' mem
        | _ => cases legal'
    | _ => cases legal
  | @gamut mask =>
    refine ⟨_, List.mem_singleton_self _, fun s mem legal => ?_⟩
    cases s with
    | band g =>
      have outside := apart (.band g) mem legal
      simpa [Admits, GamutMask.contains_complement] using outside
    | _ => cases legal
  | @number _ interval ends =>
    obtain ⟨cut, rfl⟩ : ∃ cut, s = .number cut := by
      cases s with
      | number cut => exact ⟨cut, rfl⟩
      | _ => cases legal
    obtain ⟨part, listed, sub⟩ := Interval.exists_complement_of_apart Number.leveled ends
      numberDomain_endsIn block.numbers ⟨cut, mem, legal⟩ occupied fun cut => apart (.number cut)
    refine ⟨.number part, List.mem_map_of_mem listed, fun s mem legal => ?_⟩
    cases s with
    | number cut => exact sub cut mem legal
    | _ => cases legal
  | @ratio interval ends =>
    obtain ⟨cut, rfl⟩ : ∃ cut, s = .ratio cut := by
      cases s with
      | ratio cut => exact ⟨cut, rfl⟩
      | _ => cases legal
    obtain ⟨part, listed, sub⟩ := Interval.exists_complement_of_apart ruler.leveled ends
      ruler.ends block.ratios ⟨cut, mem, legal⟩ occupied fun cut => apart (.ratio cut)
    refine ⟨.ratio part, List.mem_map_of_mem listed, fun s mem legal => ?_⟩
    cases s with
    | ratio cut => exact sub cut mem legal
    | _ => cases legal

end Constraint

end MediaQuery
