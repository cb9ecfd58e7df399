import MediaQuery.Profile.Verify
import MediaQuery.Proofs.Agreement
import MediaQuery.Proofs.Nearest
import MediaQuery.Proofs.Regrouping
import MediaQuery.Proofs.Vocabulary
import MediaQuery.Proofs.WrittenRatio

set_option autoImplicit false

namespace MediaQuery

namespace Number

open Float.Model Float.Model.UnpackedFloat

section Operations

variable {x y : Float}

/-- A number times a finite one is no number iff it is infinity times zero. -/
theorem isNaN_mul_eq (number : isNaN x = false) (finite : isFinite y = true) :
    isNaN (x * y) = (!isFinite x && isZero y) := by
  by_cases bounded : isFinite x = true
  · rw [not_isNaN_mul bounded finite, bounded]
    rfl
  · have infinite : ∃ s, unpacked x = .infinity s := by
      rw [isNaN, decide_eq_false_iff_not] at number
      rw [isFinite, decide_eq_true_iff] at bounded
      have kind := unpacks x
      generalize unpacked x = u at kind
      cases kind with
      | notANumber above => omega
      | infinity s level => exact ⟨s, rfl⟩
      | zero s level =>
        rw [level, infiniteMagnitude] at bounded
        omega
      | finite s m e positive canonical above below => omega
    obtain ⟨s, split⟩ := infinite
    rw [Bool.eq_false_iff.2 bounded, Bool.not_false, Bool.true_and, Bool.eq_iff_iff,
      isZero_iff_unpacked, mul_eq_packed, isNaN_packed, split]
    rw [isFinite, decide_eq_true_iff] at finite
    have kind := unpacks y
    generalize unpacked y = u at kind
    cases kind with
    | notANumber above => omega
    | infinity t level => omega
    | zero t level => exact iff_of_true rfl ⟨t, rfl⟩
    | finite t m e positive canonical above below =>
      constructor
      · intro same
        cases same
      · rintro ⟨_, same⟩
        cases same

theorem isNaN_div (number : isNaN x = false) (finite : isFinite y = true)
    (nonzero : isZero y = false) : isNaN (x / y) = false := by
  obtain ⟨_, positive, split⟩ := unpacked_eq_finite finite nonzero
  rw [← Bool.not_eq_true, isNaN_iff_unpacked] at number
  rw [div_eq_packed, split, ← Bool.not_eq_true, isNaN_packed]
  cases kind : unpacked x with
  | notANumber => exact absurd kind number
  | infinity s => nofun
  | zero s => nofun
  | finite s m e above =>
    obtain ⟨a, E, accuracy, u, rounded, _⟩ :=
      div_rounds s (sign y) e (scaled y).exponent above positive
    rw [rounded]
    exact roundWithAccuracy_ne_notANumber _ _ _ _

theorem isNaN_neg (number : isNaN x = false) : isNaN (-x) = false := by
  rw [Decimal.neg_eq_packed, ← Bool.not_eq_true, isNaN_packed]
  rw [← Bool.not_eq_true, isNaN_iff_unpacked] at number
  cases kind : unpacked x with
  | notANumber => exact absurd kind number
  | _ => nofun

theorem isNaN_roundHalfAway (number : isNaN x = false) : isNaN (roundHalfAway x) = false := by
  have nearest (n : ℕ) : isNaN (Float.ofScientific n false 0) = false := by
    rcases Nat.eq_zero_or_pos n with rfl | positive
    · decide
    · exact Decimal.isNaN_ofScientific positive.ne' _ _
  unfold roundHalfAway withSignOf
  split
  · exact number
  · split
    · exact isNaN_neg (nearest _)
    · exact nearest _

end Operations

end Number

namespace Metrics

variable {m : Metrics}

theorem isFinite_of_verified (verified : m.problems = []) : ∀ length ∈ m.lengths,
    Number.isFinite length.2 = true := by
  intro length mem
  have accepted := List.filterMap_eq_nil_iff.1 verified length mem
  by_contra infinite
  simp [infinite] at accepted

theorem isFinite_lengthUnit? (verified : m.problems = []) {unit : String} {px : Float}
    (named : m.lengthUnit? unit = some px) : Number.isFinite px = true := by
  have lengths := isFinite_of_verified verified
  simp only [Metrics.lengths, List.forall_mem_cons] at lengths
  obtain ⟨width, height, em, rem, ex, ch, cap, ic, lh, rlh, _⟩ := lengths
  have percent {x : Float} (finite : Number.isFinite x = true) : Number.isFinite (x / 100) = true :=
    Number.isFinite_div finite (by decide) (by decide +kernel)
  have inline : Number.isFinite m.inlinePx = true := by
    unfold inlinePx
    split <;> assumption
  have block : Number.isFinite m.blockPx = true := by
    unfold blockPx
    split <;> assumption
  have least : Number.isFinite (Number.least m.widthPx m.heightPx) = true := by
    unfold Number.least
    split
    · assumption
    · split <;> assumption
  have greatest : Number.isFinite (Number.greatest m.widthPx m.heightPx) = true := by
    unfold Number.greatest
    split
    · assumption
    · split <;> assumption
  unfold lengthUnit? at named
  split at named <;> cases named <;>
    first
      | with_reducible assumption
      | with_reducible exact percent (by assumption)
      | decide +kernel

end Metrics

/-- Whether a value is infinitely many units of length zero, and so no number of px. -/
def Value.isIndefinite (m : Metrics) : Value → Bool
  | .dimension x unit =>
    (m.lengthUnit? unit).any fun px => !Number.isFinite x && Number.isZero px
  | _ => false

section Values

variable {m : Metrics} {value : Value}

theorem Quantity.isNaN_roundThousandth {x : Float} (number : Number.isNaN x = false) :
    Number.isNaN (roundThousandth x) = false := by
  have scaled : Number.isNaN (x * 1000) = false := by
    rw [Number.isNaN_mul_eq number (by decide)]
    exact Bool.and_false _
  exact Number.isNaN_div (Number.isNaN_roundHalfAway scaled) (by decide) (by decide)

theorem Quantity.isNaN_resolution? {x y : Float} {unit : String} (number : Number.isNaN x = false)
    (named : resolution? x unit = some y) : Number.isNaN y = false := by
  have factor {z : Float} (finite : Number.isFinite z = true) (nonzero : Number.isZero z = false) :
      Number.isNaN (roundThousandth (x * z)) = false := by
    refine isNaN_roundThousandth ?_
    rw [Number.isNaN_mul_eq number finite, nonzero]
    exact Bool.and_false _
  unfold resolution? at named
  split at named <;> cases named
  · exact number
  · exact number
  · exact factor (by decide +kernel) (by decide +kernel)
  · exact factor (by decide +kernel) (by decide +kernel)

/-- A value that is read stands for numbers unless it is infinitely many units of length zero. -/
theorem Value.isNaN_numbers (verified : m.problems = []) (lexical : value.Lexical) :
    (∀ x ∈ (Quantity.ofValue m value).numbers, Number.isNaN x = false) ↔
      value.isIndefinite m = false := by
  have thousand {x : Float} (number : Number.isNaN x = false) :
      Number.isNaN (x * 1000) = false := by
    rw [Number.isNaN_mul_eq number (by decide)]
    exact Bool.and_false _
  cases value with
  | number x integer => exact iff_of_true (List.forall_mem_singleton.2 lexical) rfl
  | ratio x y =>
    refine iff_of_true (List.forall_mem_cons.2 ⟨lexical.1, ?_⟩) rfl
    exact List.forall_mem_singleton.2 lexical.2
  | ident name =>
    refine iff_of_true ?_ rfl
    unfold Quantity.ofValue
    split <;> simp_all [Quantity.numbers]
  | dimension x unit =>
    simp only [Quantity.ofValue, Quantity.ofDimension, Value.isIndefinite]
    cases named : m.lengthUnit? unit with
    | some px =>
      have product := Number.isNaN_mul_eq lexical (Metrics.isFinite_lengthUnit? verified named)
      simp [Quantity.numbers, product]
    | none =>
      refine iff_of_true ?_ rfl
      cases density : Quantity.resolution? x unit with
      | some dppx => exact List.forall_mem_singleton.2 (Quantity.isNaN_resolution? lexical density)
      | none =>
        simp only
        split
        · exact List.forall_mem_singleton.2 lexical
        · exact List.forall_mem_singleton.2 (thousand lexical)
        · exact List.forall_mem_singleton.2 lexical
        · exact List.forall_mem_singleton.2 (thousand lexical)
        · exact List.forall_mem_nil _

/-- Infinitely many units of length zero are a length. -/
theorem Value.ofValue_of_isIndefinite (indefinite : value.isIndefinite m = true) :
    ∃ x unit px, value = .dimension x unit ∧ Quantity.ofValue m value = .length px := by
  cases value with
  | dimension x unit =>
    obtain ⟨px, named, _⟩ := (Option.any_eq_true _ _).1 indefinite
    exact ⟨x, unit, x * px, rfl, by simp [Quantity.ofValue, Quantity.ofDimension, named]⟩
  | _ => cases indefinite

end Values

def Feature.isIndefinite (m : Metrics) : Feature → Bool
  | .plain name value => (FeatureTable.resolve? name).any fun (_, spec) =>
    spec.kind == .numeric .length && value.isIndefinite m
  | _ => false

/-- A ratio of numbers. -/
structure Ratio.IsDefinite (r : Ratio) : Prop where
  numerator : Number.isNaN r.numerator = false
  denominator : Number.isNaN r.denominator = false

section Features

variable {m : Metrics} {spec : FeatureSpec} {value : Value} {f : Feature}

namespace FeatureSpec

/-- Only a length can be compared with infinitely many units of length zero. -/
theorem kind_of_isIndefinite (indefinite : value.isIndefinite m = true) {x : Float}
    (read : spec.number? m value = some x) : spec.kind = .numeric .length := by
  obtain ⟨_, _, px, _, quantity⟩ := Value.ofValue_of_isIndefinite indefinite
  unfold number? at read
  rw [quantity] at read
  cases kind : spec.kind with
  | numeric unit =>
    rw [kind] at read
    cases unit with
    | length => rfl
    | integer => cases read
    | resolution => cases read
  | _ =>
    rw [kind] at read
    cases read

theorem ratio?_of_isIndefinite (indefinite : value.isIndefinite m = true) :
    ratio? m value = none := by
  obtain ⟨_, _, px, _, quantity⟩ := Value.ofValue_of_isIndefinite indefinite
  rw [ratio?, quantity]
  rfl

/-- A value that a feature is compared with by a number or a ratio. -/
theorem isIndefinite_eq_false (other : spec.kind ≠ .numeric .length)
    (read : (∃ x, spec.number? m value = some x) ∨ ∃ r, ratio? m value = some r) :
    value.isIndefinite m = false := by
  by_contra indefinite
  have indefinite : value.isIndefinite m = true := by simpa using indefinite
  rcases read with ⟨x, read⟩ | ⟨r, read⟩
  · exact other (kind_of_isIndefinite indefinite read)
  · rw [ratio?_of_isIndefinite indefinite] at read
    cases read

theorem ValueAsks.definite {limit : Option Limit} {c : Constraint}
    (other : spec.kind ≠ .numeric .length) (asks : spec.ValueAsks m limit value c) :
    value.isIndefinite m = false := by
  cases value with
  | dimension x unit =>
    -- A number with a unit is neither a word nor an integer, so it is read as a number or a ratio.
    have unlisted : spec.discreteValue? none none = none := by
      unfold discreteValue?
      split
      · exact List.find?_eq_none.2 fun v _ => by cases v <;> simp
      · rfl
    cases asks with
    | universal legal => cases unlisted.symm.trans legal
    | discrete kind legal => cases unlisted.symm.trans legal
    | gamut kind named | portrait kind named | landscape kind named => cases named
    | number numeric read => exact isIndefinite_eq_false other (.inl ⟨_, read⟩)
    | ratio kind read => exact isIndefinite_eq_false other (.inr ⟨_, read⟩)
  | _ => rfl

theorem SidesAsk.definite {left : Option (Value × Comparison)}
    {right : Option (Comparison × Value)} {c : Constraint} (other : spec.kind ≠ .numeric .length)
    (asks : spec.SidesAsk m left right c) :
    ∀ v ∈ sideValues left right, v.isIndefinite m = false := by
  intro v mem
  cases asks with
  | number numeric read => exact isIndefinite_eq_false other (.inl (exists_of_sides? read v mem))
  | ratio kind read => exact isIndefinite_eq_false other (.inr (exists_of_sides? read v mem))

end FeatureSpec

/-- An intersection has ends that are numbers if those of its first interval are: what is no number
is on a level with every end, and on one level it is the first end that stays. -/
theorem Interval.EndsIn.inter?_left {a b part : Interval Float}
    (ends : a.EndsIn fun x => Number.isNaN x = false) (made : a.inter? b = some part) :
    part.EndsIn fun x => Number.isNaN x = false := by
  have right {x y : Float} (strict : Number.order x y ≠ .eq) : Number.isNaN y = false := by
    by_contra none
    have none : Number.isNaN y = true := by simpa using none
    exact strict (by rw [Number.order, none, Bool.or_true, if_pos rfl])
  obtain ⟨rfl, _⟩ := Interval.inter?_eq_some made
  constructor
  · change Number.isNaN (Interval.lowerEnd a b).2 = false
    unfold Interval.lowerEnd
    cases verdict : Endpoint.compare a.min b.min with
    | lt => exact right fun level => by cases verdict.symm.trans level
    | eq => exact ends.min
    | gt => exact ends.min
  · change Number.isNaN (Interval.upperEnd a b).1 = false
    unfold Interval.upperEnd
    cases verdict : Endpoint.compare a.max b.max with
    | lt => exact ends.max
    | eq => exact ends.max
    | gt => exact right fun level => by cases verdict.symm.trans level

/-- Comparisons with any values leave ends that are numbers, since they begin with all numbers. -/
theorem Interval.endsIn_between? {left : Option (Float × Comparison)}
    {right : Option (Comparison × Float)} {part : Interval Float}
    (made : Interval.between? left right = some part) :
    part.EndsIn fun x => Number.isNaN x = false := by
  have restrict {a b : Interval Float} (ends : a.EndsIn fun x => Number.isNaN x = false) :
      ∀ side, a.restrict? side = some b → b.EndsIn fun x => Number.isNaN x = false
    | none, made => by
      cases made
      exact ends
    | some (op, x), made => ends.inter?_left made
  obtain ⟨first, made₁, made₂⟩ := Option.bind_eq_some_iff.1 made
  exact restrict (restrict ⟨by decide, by decide⟩ _ made₁) _ made₂

theorem Ratio.isDefinite_of_ratio? {r : Ratio} (read : FeatureSpec.ratio? m value = some r) :
    r.IsDefinite := by
  have written := isWritten_of_ratio? read
  exact ⟨((Number.isNonNegative_iff _).1 written.numerator).1,
    ((Number.isNonNegative_iff _).1 written.denominator).1⟩

theorem Constraint.EndsIn.endsAmong {P : Ratio → Prop} {c : Constraint} (ends : c.EndsIn P) :
    c.EndsAmong (fun x => Number.isNaN x = false) P := by
  cases c with
  | number interval => exact ends.numbers interval rfl
  | ratio interval => exact ends.ratios interval rfl
  | _ => trivial

theorem FeatureSpec.Among.definite (verified : m.problems = []) {values : List Value}
    (lexical : ∀ v ∈ values, v.Lexical) (definite : ∀ v ∈ values, v.isIndefinite m = false) :
    spec.Among m Ratio.IsDefinite values := by
  have least : (Endpoint.negInfinity : Ratio).IsDefinite := ⟨by decide, by decide⟩
  have zero : (Endpoint.zero : Ratio).IsDefinite := ⟨by decide, by decide⟩
  have one : (⟨1, 1⟩ : Ratio).IsDefinite := ⟨by decide, by decide⟩
  have greatest : (Endpoint.infinity : Ratio).IsDefinite := ⟨by decide, by decide⟩
  exact
    { numbers := fun v mem => (Value.isNaN_numbers verified (lexical v mem)).2 (definite v mem)
      bounds := fun _ => ⟨zero, least, greatest⟩
      written := fun _ v _ r made => Ratio.isDefinite_of_ratio? made
      sides := fun _ => ⟨zero, one, greatest⟩ }

theorem FeatureSpec.SidesAsk.endsAmong (verified : m.problems = [])
    {left : Option (Value × Comparison)} {right : Option (Comparison × Value)} {c : Constraint}
    (lexical : ∀ v ∈ sideValues left right, v.Lexical) (asks : spec.SidesAsk m left right c) :
    c.EndsAmong (fun x => Number.isNaN x = false) Ratio.IsDefinite := by
  by_cases length : spec.kind = .numeric .length
  · cases asks with
    | @number unit low high numeric read =>
      cases between : Interval.between? low high with
      | none => trivial
      | some part => exact Interval.endsIn_between? between
    | ratio kind read => cases length.symm.trans kind
  · exact (asks.endsIn (.definite verified lexical (asks.definite length))).endsAmong

theorem FeatureSpec.ValueAsks.endsAmong (verified : m.problems = []) {limit : Option Limit}
    {c : Constraint} (lexical : value.Lexical) (asks : spec.ValueAsks m limit value c)
    (definite : (spec.kind == .numeric .length && value.isIndefinite m) = false) :
    c.EndsAmong (fun x => Number.isNaN x = false) Ratio.IsDefinite := by
  have own : value.isIndefinite m = false := by
    by_cases length : spec.kind = .numeric .length
    · simpa [length] using definite
    · exact asks.definite length
  have among : spec.Among m Ratio.IsDefinite [value] :=
    .definite verified (List.forall_mem_singleton.2 lexical) (List.forall_mem_singleton.2 own)
  exact (asks.endsIn among List.mem_cons_self).endsAmong

namespace Feature

/-- The clauses of a test have numbers for ends if it is definite. -/
theorem endsAmong_clauses (verified : m.problems = []) (lexical : ∀ v ∈ f.values, v.Lexical)
    (definite : f.isIndefinite m = false) :
    ∀ c ∈ f.clauses m, c.EndsAmong (fun x => Number.isNaN x = false) Ratio.IsDefinite := by
  intro c mem key y found
  rcases exists_asksFor mem with ⟨_, rfl⟩ | ⟨limit, spec, x, resolved, asks, rfl⟩
  · cases found
  rw [Clause.single, KeyMap.get?_single] at found
  split at found <;> cases found
  cases asks with
  | name asks =>
    have among : spec.Among m Ratio.IsDefinite [] :=
      .definite verified (List.forall_mem_nil _) (List.forall_mem_nil _)
    exact (asks.endsIn among).endsAmong
  | value asks =>
    refine asks.endsAmong verified (lexical _ List.mem_cons_self) ?_
    rw [Feature.name] at resolved
    simpa [isIndefinite, resolved] using definite
  | sides asks => exact asks.endsAmong verified lexical

/-- A test that is not definite has an end that is no number. -/
theorem exists_isNaN_end (verified : m.problems = []) (lexical : ∀ v ∈ f.values, v.Lexical)
    (indefinite : f.isIndefinite m = true) :
    ∃ c ∈ f.clauses m, ∃ x ∈ c.numberEnds, Number.isNaN x = true := by
  cases f with
  | boolean name => cases indefinite
  | range name left right => cases indefinite
  | plain name value =>
    obtain ⟨⟨limit, spec⟩, resolved, both⟩ := (Option.any_eq_true _ _).1 indefinite
    simp only [Bool.and_eq_true, beq_iff_eq] at both
    obtain ⟨kind, own⟩ := both
    obtain ⟨_, _, px, _, quantity⟩ := Value.ofValue_of_isIndefinite own
    have none : Number.isNaN px = true := by
      have numbers := Value.isNaN_numbers verified (lexical value List.mem_cons_self)
      simpa [quantity, Quantity.numbers, own] using numbers
    have read : spec.number? m value = some px := by
      simp [FeatureSpec.number?, kind, quantity, Quantity.length?]
    have understood : (Feature.plain name value).constraints? m =
        some (spec.key, [.number (Limit.interval limit px)]) :=
      constraints?_eq_some.2 ⟨limit, spec, resolved, rfl, by
        simp [asked?, FeatureSpec.ofPlain?, kind, read]⟩
    have made : Feature.clauses m (.plain name value) =
        [Clause.single spec.key (.number (Limit.interval limit px))] := by
      simp only [clauses, understood, List.map_cons, List.map_nil]
    refine ⟨_, made ▸ List.mem_cons_self, px, ?_, none⟩
    have entry : (Clause.single spec.key (.number (Limit.interval limit px))).numberEnds =
        [(Limit.interval limit px).min, (Limit.interval limit px).max] := rfl
    rw [entry]
    rcases limit with _ | _ | _ <;> simp [Limit.interval, Interval.exact, Interval.atLeast,
      Interval.atMost]

end Feature

end Features

section Connectives

variable {numbers : Float → Prop} {ratios : Ratio → Prop} {c : Clause} {x : Constraint}

theorem Clause.endsAmong_single {key : String} (ends : x.EndsAmong numbers ratios) :
    (Clause.single key x).EndsAmong numbers ratios := by
  intro other y found
  rw [Clause.single, KeyMap.get?_single] at found
  split at found <;> cases found
  exact ends

/-- The ends of what a negation leaves are ends of the constraint or of the domain. -/
theorem Constraint.endsAmong_negate (wide : numberDomain.EndsIn numbers)
    (wide' : ratioDomain.EndsIn ratios) (ends : x.EndsAmong numbers ratios) {key : String} :
    ∀ part ∈ x.negate key, part.EndsAmong numbers ratios := by
  intro part mem
  cases x with
  | always => cases mem
  | never =>
    cases List.mem_singleton.1 mem
    exact Clause.endsAmong_top
  | discrete value =>
    simp only [negate] at mem
    split at mem
    · obtain ⟨other, _, rfl⟩ := List.mem_map.1 mem
      exact Clause.endsAmong_single trivial
    · cases List.mem_singleton.1 mem
      intro key x found
      cases found
  | gamut mask =>
    cases List.mem_singleton.1 mem
    exact Clause.endsAmong_single trivial
  | number interval =>
    obtain ⟨rest, outside, rfl⟩ := List.mem_map.1 mem
    exact Clause.endsAmong_single (Interval.EndsIn.complement ends wide outside)
  | ratio interval =>
    obtain ⟨rest, outside, rfl⟩ := List.mem_map.1 mem
    exact Clause.endsAmong_single (Interval.EndsIn.complement ends wide' outside)

theorem Clause.endsAmong_negate (wide : numberDomain.EndsIn numbers)
    (wide' : ratioDomain.EndsIn ratios) (ends : c.EndsAmong numbers ratios) :
    ∀ part ∈ c.negate, part.EndsAmong numbers ratios := by
  intro part mem
  unfold negate at mem
  split at mem
  · cases List.mem_singleton.1 mem
    nofun
  · split at mem
    · cases List.mem_singleton.1 mem
      exact endsAmong_top
    · obtain ⟨⟨key, x⟩, entry, mem⟩ := List.mem_flatMap.1 mem
      have among := ends key x (KeyMap.mem_entries.1 entry)
      exact Constraint.endsAmong_negate wide wide' among part mem

/-- No connective makes an end that is not one of its clauses or of the domains. -/
theorem Clause.hereditary_endsAmong (wide : numberDomain.EndsIn numbers)
    (wide' : ratioDomain.EndsIn ratios) : Clause.Hereditary (Clause.EndsAmong numbers ratios) where
  top := endsAmong_top
  and := EndsAmong.and
  negateAll := by
    intro cs ends
    -- The clauses so far and those of the next negation are joined and thinned out at each step.
    have steps : ∀ done : List Clause, (∀ a ∈ done, a.EndsAmong numbers ratios) →
        ∀ r ∈ cs.foldl (fun done c => dropContradictions (product done c.negate)) done,
          r.EndsAmong numbers ratios := by
      induction cs with
      | nil => exact fun done start => start
      | cons c cs ih =>
        obtain ⟨first, rest⟩ := List.forall_mem_cons.1 ends
        intro done start
        have next := endsAmong_product start (endsAmong_negate wide wide' first)
        exact ih rest _ fun a mem => next a (List.mem_filter.1 mem).1
    exact steps [top] (List.forall_mem_singleton.2 endsAmong_top)

theorem Clause.EndsAmong.mem_numberEnds (ends : c.EndsAmong numbers ratios) :
    ∀ v ∈ c.numberEnds, numbers v := by
  intro v mem
  obtain ⟨x, inside, ends'⟩ := List.mem_flatMap.1 mem
  obtain ⟨⟨key, x⟩, entry, rfl⟩ := List.mem_map.1 inside
  have interval := ends key x (KeyMap.mem_entries.1 entry)
  cases x <;> simp [Constraint.numberEnds] at ends'
  rcases ends' with rfl | rfl
  · exact interval.min
  · exact interval.max

theorem Clause.EndsAmong.mem_ratioEnds (ends : c.EndsAmong numbers ratios) :
    ∀ r ∈ c.ratioEnds, ratios r := by
  intro r mem
  obtain ⟨x, inside, ends'⟩ := List.mem_flatMap.1 mem
  obtain ⟨⟨key, x⟩, entry, rfl⟩ := List.mem_map.1 inside
  have interval := ends key x (KeyMap.mem_entries.1 entry)
  cases x <;> simp [Constraint.ratioEnds] at ends'
  rcases ends' with rfl | rfl
  · exact interval.min
  · exact interval.max

end Connectives

/-- Which tests of a list that is read have an end that is no number, under metrics that are in
order: those that ask, behind a colon, for a length of infinitely many units of length zero. Without
them no interval in the clauses of a query has such an end. -/
theorem QueryList.definite_ends {source : String} {list : QueryList} {m : Metrics}
    (parsed : QueryList.parse source = .ok list) (verified : m.problems = []) :
    (∀ f ∈ list.features, (∃ c ∈ f.clauses m, ∃ x ∈ c.numberEnds, Number.isNaN x = true) ↔
        f.isIndefinite m = true) ∧
      ((∀ f ∈ list.features, f.isIndefinite m = false) → ∀ q ∈ list, ∀ c ∈ q.clauses m,
        (∀ x ∈ c.numberEnds, Number.isNaN x = false) ∧ ∀ r ∈ c.ratioEnds, r.IsDefinite) := by
  have lexical := lexical_of_parse parsed
  have kept : Clause.Hereditary
      (Clause.EndsAmong (fun x => Number.isNaN x = false) Ratio.IsDefinite) :=
    Clause.hereditary_endsAmong ⟨by decide, by decide⟩
      ⟨⟨by decide, by decide⟩, ⟨by decide, by decide⟩⟩
  constructor
  · refine fun f mem => ⟨fun ⟨c, inside, x, isEnd, noNumber⟩ => ?_,
      Feature.exists_isNaN_end verified (lexical f mem)⟩
    by_contra definite
    have ends := Feature.endsAmong_clauses verified (lexical f mem) (by simpa using definite) c
      inside
    rw [ends.mem_numberEnds x isEnd] at noNumber
    cases noNumber
  · intro definite q mem c inside
    have ends := q.clauses_of_hereditary kept (fun _ _ ends => ends)
      (fun f asked => ?_) (fun _ _ => nofun) c inside
    · exact ⟨ends.mem_numberEnds, ends.mem_ratioEnds⟩
    · have listed : f ∈ list.features := List.mem_flatMap.2 ⟨q, mem, asked⟩
      exact Feature.endsAmong_clauses verified (lexical f listed) (definite f listed)

/-- Infinitely many em, which are not zero px, between widths and below a ratio. -/
theorem QueryList.definite_ends_infinite : ∃ list,
    QueryList.parse "(10px < width <= 1e400em) or (not (aspect-ratio > 16/9))" = .ok list ∧
      Metrics.problems {} = [] ∧ (∀ f ∈ list.features, f.isIndefinite {} = false) ∧
      ∀ q ∈ list, ∀ c ∈ q.clauses {}, (∀ x ∈ c.numberEnds, Number.isNaN x = false) ∧
        ∀ r ∈ c.ratioEnds, r.IsDefinite := by
  obtain ⟨list, parsed, tested⟩ := QueryList.exists_of_isRead
    "(10px < width <= 1e400em) or (not (aspect-ratio > 16/9))"
    (fun list => decide (∀ f ∈ list.features, f.isIndefinite {} = false)) (by decide +kernel)
  have definite := of_decide_eq_true tested
  have verified : Metrics.problems {} = [] := by decide +kernel
  exact ⟨list, parsed, verified, definite, (QueryList.definite_ends parsed verified).2 definite⟩

/-- Infinitely many em of length zero: both ends are no number, and every device matches. -/
theorem QueryList.exists_indefinite_end : ∃ (list : QueryList) (m : Metrics),
    QueryList.parse "(width: 1e400em)" = .ok list ∧ m.problems = [] ∧
      (∃ q ∈ list, ∃ c ∈ q.clauses m, ∃ x ∈ c.numberEnds, Number.isNaN x = true) ∧
      (list.compile m).alwaysMatches = true := by
  obtain ⟨list, parsed, tested⟩ := QueryList.exists_of_isRead "(width: 1e400em)"
    (fun list => decide ((∃ q ∈ list, ∃ c ∈ q.clauses { emPx := 0 }, ∃ x ∈ c.numberEnds,
      Number.isNaN x = true) ∧ (list.compile { emPx := 0 }).alwaysMatches = true))
    (by decide +kernel)
  obtain ⟨indefinite, always⟩ := of_decide_eq_true tested
  exact ⟨list, { emPx := 0 }, parsed, by decide +kernel, indefinite, always⟩

end MediaQuery
