import MediaQuery.Proofs.Compile
import MediaQuery.Proofs.Knowledge
import MediaQuery.Proofs.Negation

set_option autoImplicit false

namespace MediaQuery

section Limits

variable {α : Type} [Endpoint α] {x : α} {interval part : Interval α}

theorem Interval.isEmpty_exact (self : Endpoint.compare x x = .eq) :
    (Interval.exact x).isEmpty = false := by
  simp [Interval.exact, Interval.isEmpty, self]

theorem Interval.isEmpty_atLeast (low : Endpoint.compare x Endpoint.infinity ≠ .gt) :
    (Interval.atLeast x true).isEmpty = false := by
  simp only [Interval.atLeast, Interval.isEmpty]
  cases verdict : Endpoint.compare x Endpoint.infinity with
  | gt => exact absurd verdict low
  | _ => rfl

theorem Interval.isEmpty_atMost (high : Endpoint.compare Endpoint.negInfinity x ≠ .gt) :
    (Interval.atMost x true).isEmpty = false := by
  simp only [Interval.atMost, Interval.isEmpty]
  cases verdict : Endpoint.compare Endpoint.negInfinity x with
  | gt => exact absurd verdict high
  | _ => rfl

theorem Interval.isEmpty_of_restrict? {side : Option (Comparison × α)}
    (occupied : interval.isEmpty = false) (made : interval.restrict? side = some part) :
    part.isEmpty = false := by
  cases side with
  | none =>
    cases made
    exact occupied
  | some pair => exact (Interval.inter?_eq_some made).2

theorem Interval.isEmpty_of_between? {left : Option (α × Comparison)}
    {right : Option (Comparison × α)} (whole : (Interval.unbounded : Interval α).isEmpty = false)
    (made : Interval.between? left right = some part) : part.isEmpty = false := by
  obtain ⟨first, madeFirst, made⟩ := Option.bind_eq_some_iff.1 made
  exact isEmpty_of_restrict? (isEmpty_of_restrict? whole madeFirst) made

end Limits

theorem Number.negInfinity_order (x : Float) : Number.order Number.negInfinity x ≠ .gt := by
  by_cases number : Number.isNaN x = false
  · rw [Number.order_eq_compare_rank Number.isNaN_negInfinity number, compare_le_iff_le]
    exact (Number.rank_bounds number).1
  · have none : Number.isNaN x = true := by simpa using number
    simp [Number.order, none]

theorem Number.eq_of_not_isFinite {x : Float} (number : isNaN x = false)
    (infinite : isFinite x = false) : x = infinity ∨ x = negInfinity := by
  have level : rank x = infiniteMagnitude ∨ rank x = -infiniteMagnitude := by
    rw [isNaN, decide_eq_false_iff_not] at number
    rw [isFinite, decide_eq_false_iff_not] at infinite
    unfold rank
    split <;> omega
  rcases level with level | level
  · exact .inl (eq_of_rank (level.trans (by decide)) (by rw [level]; decide))
  · exact .inr (eq_of_rank (level.trans (by decide)) (by rw [level]; decide))

theorem Ratio.order_zero_ne_lt {r : Ratio} (numerator : Number.isNonNegative r.numerator = true)
    (denominator : Number.isNonNegative r.denominator = true) : order r ⟨0, 1⟩ ≠ .lt := by
  by_cases both : r.isZeroOverZero = true
  · have degenerate : (⟨0, 1⟩ : Ratio).isDegenerate = true := by decide
    simp [order, both, degenerate]
  · have number := ((Number.isNonNegative_iff _).1 numerator).1
    rw [order_eq_crossOrder (by simpa using both) (by decide), crossOrder]
    simp only [Number.mul_one]
    by_cases finite : Number.isFinite r.denominator = true
    · have product := Number.isZero_mul (by decide : Number.isZero 0 = true) finite
      rw [number, Number.not_isNaN_of_isZero product]
      exact Number.order_zero numerator product
    · -- Zero times infinity is no number, so the quotients are compared.
      have infinite : r.denominator = Number.infinity := by
        rcases Number.eq_of_not_isFinite ((Number.isNonNegative_iff _).1 denominator).1
          (by simpa using finite) with infinite | negative
        · exact infinite
        · rw [negative] at denominator
          exact absurd denominator (by decide)
      have product : Number.isNaN (0 * r.denominator) = true := by
        rw [infinite, Number.mul_comm]
        exact Number.isNaN_infinity_mul (by decide)
      have zero : (⟨0, 1⟩ : Ratio).quotient = 0 := by decide
      rw [product, Bool.or_true, if_pos rfl, zero]
      have sign := Ratio.isNegative_quotient numerator denominator
      by_cases some : Number.isNaN r.quotient = true
      · simp [Number.order, some]
      · have some : Number.isNaN r.quotient = false := by simpa using some
        rw [Number.order_eq_compare_rank some Number.isNaN_zero, Number.rank_zero,
          compare_ge_iff_ge]
        simpa [Number.isNegative, some] using sign

section Constraints

variable {spec : FeatureSpec} {m : Metrics} {P : Ratio → Prop} {c : Constraint}
  {limit : Option Limit} {value : Value}

theorem Limit.isEmpty_number {x : Float} (number : Number.isNaN x = false) (limit : Option Limit) :
    (Limit.interval limit x).isEmpty = false := by
  rcases limit with _ | limit
  · exact Interval.isEmpty_exact (Number.totalOn.compare_self number)
  · cases limit with
    | min => exact Interval.isEmpty_atLeast (Number.order_infinity x)
    | max => exact Interval.isEmpty_atMost (Number.negInfinity_order x)

theorem Limit.isEmpty_ratio {r : Ratio} (total : Endpoint.TotalOn P) (zero : P Endpoint.zero)
    (read : FeatureSpec.ratio? m value = some r) (limit : Option Limit)
    (ends : (Limit.interval limit r).EndsIn P) : (Limit.interval limit r).isEmpty = false := by
  have one : Number.isNonNegative 1 = true := by decide
  obtain ⟨numerator, denominator⟩ : Number.isNonNegative r.numerator = true ∧
      Number.isNonNegative r.denominator = true := by
    rcases FeatureSpec.ratio?_eq_some read with ⟨x, _, _, rfl, above⟩ | ⟨_, above⟩
    · exact ⟨above, one⟩
    · exact above
  rcases limit with _ | limit
  · exact Interval.isEmpty_exact (total.compare_self ends.min)
  · cases limit with
    | min => exact Interval.isEmpty_atLeast (ratio_order_infinity denominator)
    | max =>
      have above : Endpoint.compare Endpoint.zero r ≠ .gt := by
        have order := Ratio.order_zero_ne_lt numerator denominator
        rw [← Ratio.order_swap] at order
        change Ratio.order ⟨0, 1⟩ r ≠ .gt
        cases verdict : Ratio.order ⟨0, 1⟩ r <;> simp_all [Ordering.swap]
      exact Interval.isEmpty_atMost (total.trans ends.min zero ends.max (by decide) above)

namespace FeatureSpec

theorem NameAsks.isOccupied (asks : spec.NameAsks c) : c.IsOccupied := by
  cases asks with
  | always | discrete kind listed | gamut kind => trivial
  | number numeric part => exact Interval.isEmpty_of_mem_complement part
  | ratio kind part => exact Interval.isEmpty_of_mem_complement part

theorem ValueAsks.isOccupied (total : Endpoint.TotalOn P) (zero : P Endpoint.zero)
    (asks : spec.ValueAsks m limit value c) (ends : c.EndsIn P) : c.IsOccupied := by
  cases asks with
  | universal legal | discrete kind legal | gamut kind named => trivial
  | portrait kind named =>
    exact (by decide : (⟨true, Endpoint.zero, ⟨1, 1⟩, true⟩ : Interval Ratio).isEmpty = false)
  | landscape kind named =>
    exact (by decide : (Interval.atLeast (⟨1, 1⟩ : Ratio) false).isEmpty = false)
  | number numeric read =>
    have ends := ends.numbers _ rfl
    refine Limit.isEmpty_number ?_ limit
    rcases limit with _ | limit
    · exact ends.min
    · cases limit with
      | min => exact ends.min
      | max => exact ends.max
  | ratio kind read => exact Limit.isEmpty_ratio total zero read limit (ends.ratios _ rfl)

theorem SidesAsk.isOccupied {left : Option (Value × Comparison)}
    {right : Option (Comparison × Value)} (asks : spec.SidesAsk m left right c) :
    c.IsOccupied := by
  cases asks with
  | number numeric read =>
    exact Constraint.isOccupied_ofNumbers? _ fun part between =>
      Interval.isEmpty_of_between? (by decide) between
  | ratio kind read =>
    exact Constraint.isOccupied_ofRatios? _ fun part between =>
      Interval.isEmpty_of_between? (by decide) between

end FeatureSpec

theorem Feature.AsksFor.isOccupied {f : Feature} (total : Endpoint.TotalOn P)
    (zero : P Endpoint.zero) (asks : f.AsksFor m limit spec c) (ends : c.EndsIn P) :
    c.IsOccupied := by
  cases asks with
  | name asks => exact asks.isOccupied
  | value asks => exact asks.isOccupied total zero ends
  | sides asks => exact asks.isOccupied

end Constraints

theorem Constraint.Suits.endsIn {P : Ratio → Prop} {kind : FeatureKind} {c : Constraint}
    (suits : c.Suits P kind) : c.EndsIn P := by
  constructor
  · rintro interval rfl
    cases suits with
    | number ends => exact ends
  · rintro interval rfl
    cases suits with
    | ratio ends => exact ends

/-- The intervals of a test that is understood are not empty. -/
theorem Feature.isFilled_clauses {f : Feature} {m : Metrics} {P : Ratio → Prop}
    (total : Endpoint.TotalOn P) (zero : P Endpoint.zero)
    (plain : ∀ c ∈ f.clauses m, c.Plain fun _ => P) : ∀ c ∈ f.clauses m, c.IsFilled := by
  intro c mem key
  have understood := plain c mem
  rcases exists_asksFor mem with ⟨_, rfl⟩ | ⟨limit, spec, x, _, asks, rfl⟩
  · cases understood.readable
  · have found : (Clause.single spec.key x).tests.get? spec.key = some x := by
      rw [Clause.single, KeyMap.get?_single, if_pos rfl]
    obtain ⟨kind, _, suits⟩ := understood.suits spec.key x found
    rw [Clause.on_single]
    split
    · exact asks.isOccupied total zero suits.endsIn
    · trivial

/-- A property of clauses that the connectives keep. -/
structure Clause.Hereditary (Q : Clause → Prop) : Prop where
  top : Q Clause.top
  and : ∀ {a b}, Q a → Q b → Q (a.and b)
  negateAll : ∀ {cs}, (∀ c ∈ cs, Q c) → ∀ r ∈ Clause.negateAll cs, Q r

section Trees

variable {m : Metrics} {Q : Clause → Prop}

mutual

theorem InParens.clauses_of_hereditary (kept : Clause.Hereditary Q) : ∀ item : InParens,
    (∀ f ∈ item.features, ∀ c ∈ f.clauses m, Q c) →
      (∀ text ∈ item.texts, Q (Clause.unreadable text)) → ∀ c ∈ item.clauses m, Q c
  | .condition c, leaves, texts => by
    simpa only [InParens.clauses] using Condition.clauses_of_hereditary kept c leaves texts
  | .feature f, leaves, texts => leaves f (by simp [InParens.features])
  | .enclosed s, leaves, texts => List.forall_mem_singleton.2 (texts s (by simp [InParens.texts]))

theorem InParens.allClauses_of_hereditary (kept : Clause.Hereditary Q) :
    ∀ (items : List InParens) (done : List Clause),
      (∀ f ∈ InParens.allFeatures items, ∀ c ∈ f.clauses m, Q c) →
        (∀ text ∈ InParens.allTexts items, Q (Clause.unreadable text)) → (∀ c ∈ done, Q c) →
        ∀ c ∈ InParens.allClauses m done items, Q c
  | [], done, leaves, texts, start => start
  | item :: items, done, leaves, texts, start => by
    simp only [InParens.allFeatures, InParens.allTexts, List.mem_append] at leaves texts
    have first := InParens.clauses_of_hereditary kept item (fun f mem => leaves f (.inl mem))
      fun text mem => texts text (.inl mem)
    refine InParens.allClauses_of_hereditary kept items (Clause.product done (item.clauses m))
      (fun f mem => leaves f (.inr mem)) (fun text mem => texts text (.inr mem)) fun c mem => ?_
    obtain ⟨a, ha, b, hb, rfl⟩ := Clause.mem_product.1 mem
    exact kept.and (start a ha) (first b hb)

theorem InParens.anyClauses_of_hereditary (kept : Clause.Hereditary Q) :
    ∀ items : List InParens, (∀ f ∈ InParens.allFeatures items, ∀ c ∈ f.clauses m, Q c) →
      (∀ text ∈ InParens.allTexts items, Q (Clause.unreadable text)) →
      ∀ c ∈ InParens.anyClauses m items, Q c
  | [], leaves, texts => nofun
  | item :: items, leaves, texts => by
    simp only [InParens.allFeatures, InParens.allTexts, List.mem_append] at leaves texts
    intro c mem
    rw [InParens.anyClauses, List.mem_append] at mem
    rcases mem with first | rest
    · exact InParens.clauses_of_hereditary kept item (fun f mem => leaves f (.inl mem))
        (fun text mem => texts text (.inl mem)) c first
    · exact InParens.anyClauses_of_hereditary kept items (fun f mem => leaves f (.inr mem))
        (fun text mem => texts text (.inr mem)) c rest

/-- What the clauses of the tests and of the texts have in common, those of a tree have, too. -/
theorem Condition.clauses_of_hereditary (kept : Clause.Hereditary Q) : ∀ condition : Condition,
    (∀ f ∈ condition.features, ∀ c ∈ f.clauses m, Q c) →
      (∀ text ∈ condition.texts, Q (Clause.unreadable text)) → ∀ c ∈ condition.clauses m, Q c
  | .and items, leaves, texts =>
    InParens.allClauses_of_hereditary kept items [Clause.top] leaves texts (by simp [kept.top])
  | .or items, leaves, texts => by
    simpa only [Condition.clauses] using
      InParens.anyClauses_of_hereditary kept items leaves texts
  | .not item, leaves, texts => by
    simpa only [Condition.clauses] using
      kept.negateAll (InParens.clauses_of_hereditary kept item leaves texts)

end

/-- What the clauses of a tree have in common, those of a query have under their tags. -/
theorem Query.clauses_of_hereditary (kept : Clause.Hereditary Q)
    (tagged : ∀ c tag, Q c → Q (c.tagged tag)) (q : Query)
    (leaves : ∀ f ∈ q.features, ∀ c ∈ f.clauses m, Q c)
    (texts : ∀ text ∈ q.texts, Q (Clause.unreadable text)) : ∀ c ∈ q.clauses m, Q c := by
  have own : ∀ c ∈ q.ownClauses m, Q c := by
    rw [Query.features] at leaves
    rw [Query.texts] at texts
    unfold Query.ownClauses
    cases condition : q.condition with
    | none => simp [kept.top]
    | some c =>
      rw [condition] at leaves texts
      exact Condition.clauses_of_hereditary kept c leaves texts
  intro c mem
  by_cases negated : q.qualifier = some .not
  · rw [q.clauses_of_negated negated, List.mem_append] at mem
    rcases mem with medium | condition
    · have bare : c = Clause.top ∨ ∃ tag, c = Clause.top.tagged tag := by
        cases named : q.mediaType <;> simp_all [MediaType.negated]
      rcases bare with rfl | ⟨tag, rfl⟩
      · exact kept.top
      · exact tagged _ tag kept.top
    · obtain ⟨untagged, inside, rfl⟩ := List.mem_map.1 condition
      exact tagged _ _ (kept.negateAll own untagged inside)
  · rw [q.clauses_of_affirmed negated] at mem
    cases named : q.mediaType.tag? with
    | none => simp [named] at mem
    | some tag =>
      rw [named] at mem
      obtain ⟨untagged, inside, rfl⟩ := List.mem_map.1 mem
      exact tagged _ _ (own untagged inside)

end Trees

section Proper

variable {β : Type} [LinearOrder β] {P : Ratio → Prop} {level : Ratio → β}

/-- A clause as the trees without text give it: plain, and without an empty interval. -/
structure Clause.Proper (P : Ratio → Prop) (c : Clause) : Prop where
  plain : c.Plain fun _ => P
  filled : c.IsFilled

theorem Clause.IsSettled.proper {c : Clause} (settled : c.IsSettled P level) : c.Proper P :=
  ⟨settled.plain, settled.filled⟩

theorem Clause.hereditary_proper (ruler : Ratio.Ruler P level) :
    Clause.Hereditary (Clause.Proper P) where
  top := ⟨Clause.plain_top, Clause.isFilled_top⟩
  and left right := ⟨left.plain.and right.plain, left.filled.and right.filled⟩
  negateAll proper _ mem :=
    (isSettled_of_mem_negateAll ruler (fun c inside => (proper c inside).plain) mem).1.proper

/-- The clauses of a tree without text are proper if those of its tests are plain. -/
theorem Condition.proper_clauses {m : Metrics} (total : Endpoint.TotalOn P)
    (ruler : Ratio.Ruler P level) {condition : Condition} (noText : condition.texts = [])
    (leaves : ∀ f ∈ condition.features, ∀ c ∈ f.clauses m, c.Plain fun _ => P) :
    ∀ c ∈ condition.clauses m, c.Proper P := by
  refine Condition.clauses_of_hereditary (Clause.hereditary_proper ruler) condition ?_
    (by simp [noText])
  intro f mem c made
  exact ⟨leaves f mem c made,
    Feature.isFilled_clauses total ruler.ends.min (leaves f mem) c made⟩

end Proper

end MediaQuery
