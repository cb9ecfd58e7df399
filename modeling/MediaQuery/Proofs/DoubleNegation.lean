import MediaQuery.Proofs.Occupied
import MediaQuery.Proofs.Reordering

set_option autoImplicit false

/- What a double negation compiles to. Its clauses are all that imply the tree, so that the result
is that of the tree iff this one has all such clauses, too, and lists nothing beside its clauses.
Both may fail: a tree may hold a clause that is never met, and the clauses of a tree are not joined
where they overlap. A negation has all its clauses, so that three negations are one. -/
namespace MediaQuery

theorem Number.order_of_same {x y : Float} (same : same x y = true) : order x y = .eq := by
  simp only [Number.same, Bool.and_eq_true, Bool.not_eq_true', beq_iff_eq] at same
  rw [order_eq_compare_rank same.1.1 same.1.2, compare_eq_iff_eq]
  exact same.2

theorem Number.order_of_isZero {x y : Float} (hx : isZero x = true) (hy : isZero y = true) :
    order x y = .eq := by
  refine order_of_same ?_
  simp [Number.same, not_isNaN_of_isZero hx, not_isNaN_of_isZero hy, (isZero_iff_rank x).1 hx,
    (isZero_iff_rank y).1 hy]

theorem Number.isZero_iff_of_same {x y : Float} (level : same x y = true) :
    isZero x = true ↔ isZero y = true := by
  simp only [Number.same, Bool.and_eq_true, beq_iff_eq] at level
  rw [isZero_iff_rank, isZero_iff_rank, level.2]

/-- The two zeros are the only numbers that are the same without being equal. -/
theorem Number.eq_of_same {x y : Float} (level : same x y = true) (nonzero : isZero x = false) :
    x = y := by
  simp only [Number.same, Bool.and_eq_true, beq_iff_eq] at level
  refine eq_of_rank level.2 fun zero => ?_
  rw [(isZero_iff_rank x).2 zero] at nonzero
  cases nonzero

theorem Number.eq_of_isZero {x : Float} (zero : isZero x = true) : x = 0 ∨ x = -0 := by
  obtain ⟨sign, unpacked⟩ := (isZero_iff_unpacked x).1 zero
  rw [← packed_unpacked x, unpacked]
  cases sign
  · exact .inr (by decide)
  · exact .inl (by decide)

private theorem Ratio.crossOrder_of_isZero {r s : Ratio}
    (left : Number.isZero (r.numerator * s.denominator) = true)
    (right : Number.isZero (s.numerator * r.denominator) = true) : crossOrder r s = .eq := by
  simp only [crossOrder, Number.not_isNaN_of_isZero left, Number.not_isNaN_of_isZero right]
  exact Number.order_of_isZero left right

/-- Ratios with the same parts are on one level: only zeros may differ in sign, and a product that
one of them makes is zero as well, or no number on both sides. -/
theorem Ratio.order_of_same {r s : Ratio} (level : r.same s = true) : order r s = .eq := by
  obtain ⟨a, b⟩ := r
  obtain ⟨c, d⟩ := s
  rw [same, Bool.and_eq_true] at level
  obtain ⟨above, below⟩ : Number.same a c = true ∧ Number.same b d = true := level
  have number : Number.isNaN a = false ∧ Number.isNaN b = false := by
    simp only [Number.same, Bool.and_eq_true, Bool.not_eq_true'] at above below
    exact ⟨above.1.1, below.1.1⟩
  have flat := Number.isZero_iff_of_same above
  have flat' := Number.isZero_iff_of_same below
  by_cases zero : Number.isZero a = true
  · have zero' := flat.1 zero
    by_cases both : Number.isZero b = true
    · simp [order, isZeroOverZero, isDegenerate, zero, both, zero']
    · have single : Number.isZero b = false := by simpa using both
      cases Number.eq_of_same below single
      rw [order_eq_crossOrder (by simp [isZeroOverZero, single])
        (by simp [isZeroOverZero, single])]
      by_cases finite : Number.isFinite b = true
      · exact crossOrder_of_isZero (Number.isZero_mul zero finite) (Number.isZero_mul zero' finite)
      · rcases Number.eq_of_not_isFinite number.2 (by simpa using finite) with rfl | rfl <;>
          rcases Number.eq_of_isZero zero with rfl | rfl <;>
          rcases Number.eq_of_isZero zero' with rfl | rfl <;> decide
  · have single : Number.isZero a = false := by simpa using zero
    cases Number.eq_of_same above single
    by_cases zero' : Number.isZero b = true
    · have zero'' := flat'.1 zero'
      rw [order_eq_crossOrder (by simp [isZeroOverZero, single])
        (by simp [isZeroOverZero, single])]
      by_cases finite : Number.isFinite a = true
      · have product {x : Float} (hx : Number.isZero x = true) : Number.isZero (a * x) = true := by
          rw [Number.mul_comm]
          exact Number.isZero_mul hx finite
        exact crossOrder_of_isZero (product zero'') (product zero')
      · rcases Number.eq_of_not_isFinite number.1 (by simpa using finite) with rfl | rfl <;>
          rcases Number.eq_of_isZero zero' with rfl | rfl <;>
          rcases Number.eq_of_isZero zero'' with rfl | rfl <;> decide
    · cases Number.eq_of_same below (by simpa using zero')
      exact order_self _

namespace Interval

variable {α : Type} [Endpoint α] {P : α → Prop} {a b : Interval α}

theorem sameAs_of_beq {eq : α → α → Bool}
    (faithful : ∀ x y, eq x y = true → Endpoint.compare x y = .eq)
    (level : a.beq eq b = true) : a.sameAs b = true := by
  simp only [beq, Bool.and_eq_true, beq_iff_eq] at level
  obtain ⟨⟨⟨lower, min⟩, max⟩, upper⟩ := level
  simp [sameAs, lower, upper, faithful _ _ min, faithful _ _ max]

theorem covers_of_sameAs (total : Endpoint.TotalOn P) (left : a.EndsIn P) (right : b.EndsIn P)
    (level : a.sameAs b = true) (self : Constraint.coversInterval a a = true) :
    Constraint.coversInterval b a = true := by
  obtain ⟨β, _, rank, leveled⟩ := total.exists_level
  have occupied := ((coversInterval_iff_span leveled left left).1 self).1
  have spans := (sameAs_iff_span leveled left right occupied).1 level
  exact (coversInterval_iff_span leveled right left).2 ⟨occupied, spans.subset⟩

end Interval

namespace Constraint

variable {ratios : String → Ratio → Prop} {key : String} {kind : FeatureKind} {a b : Constraint}

theorem covers_of_same (scale : Ratio.Scale ratios) (left : a.Suits (ratios key) kind)
    (right : b.Suits (ratios key) kind) (level : a.same b = true) (self : a.covers a = true) :
    b.covers a = true := by
  cases left with
  | always =>
    cases right with
    | always => rfl
    | _ => cases level
  | never =>
    cases right with
    | never => rfl
    | _ => cases level
  | discrete listed =>
    cases right with
    | discrete listed' => exact beq_iff_eq.2 (beq_iff_eq.1 level).symm
    | _ => cases level
  | gamut =>
    cases right with
    | gamut =>
      have equal := beq_iff_eq.1 level
      rw [← equal]
      exact self
    | _ => cases level
  | number ends =>
    cases right with
    | number ends' =>
      have same := Interval.sameAs_of_beq (fun x y => Number.order_of_same) level
      exact Interval.covers_of_sameAs Number.totalOn ends ends' same self
    | _ => cases level
  | ratio ends =>
    cases right with
    | ratio ends' =>
      have same := Interval.sameAs_of_beq (fun r s => Ratio.order_of_same) level
      exact Interval.covers_of_sameAs (scale.total key) ends ends' same self
    | _ => cases level

end Constraint

namespace Clause

variable {ratios : String → Ratio → Prop} {a b : Clause}

theorem covers_of_same (scale : Ratio.Scale ratios) (left : a.Suits ratios)
    (right : b.Suits ratios) (level : a.same b = true) (self : a.covers a = true) :
    b.covers a = true := by
  rw [same, Bool.and_eq_true, Bool.and_eq_true, beq_iff_eq, beq_iff_eq] at level
  obtain ⟨⟨tags, _⟩, tests⟩ := level
  refine covers_iff.2 ⟨fun tag found => tags.trans found, fun key y found => ?_⟩
  obtain ⟨x, found', level⟩ := KeyMap.get?_of_same tests found
  obtain ⟨kind, known, suits⟩ := left key x found'
  obtain ⟨other, again, covers⟩ := (covers_iff.1 self).2 key x found'
  cases found'.symm.trans again
  exact ⟨x, found', Constraint.covers_of_same scale suits (right.of_kind known found) level covers⟩

end Clause

section Lists

variable {P : Ratio → Prop} {a b c : Clause} {cs : List Clause}

theorem Ratio.Scale.exists_ruler (scale : Ratio.Scale fun _ => P) :
    ∃ (β : Type) (_ : LinearOrder β) (level : Ratio → β), Ratio.Ruler P level := by
  obtain ⟨β, order, level, leveled⟩ := (scale.total "").exists_level
  exact ⟨β, order, level, leveled, scale.ends ""⟩

namespace Clause

theorem Proper.wellTyped (proper : c.Proper P) : c.WellTyped fun _ => P :=
  ⟨proper.plain.readable, proper.plain.suits⟩

theorem Apart.symm {β : Type} [LinearOrder β] {level : Ratio → β} (apart : a.Apart level b) :
    b.Apart level a := by
  obtain ⟨key, kind, known, none⟩ := apart
  exact ⟨key, kind, known, fun s legal first second => none s legal second first⟩

/-- A clause implies the lists that it is part of. -/
theorem implies_of_mem (scale : Ratio.Scale fun _ => P) (plain : c.Plain fun _ => P)
    (mem : c ∈ cs) : c.Implies (fun _ => P) cs := by
  obtain ⟨β, _, level, ruler⟩ := scale.exists_ruler
  intro s plainS joined
  have both := plain.and plainS
  refine ⟨c, mem, ?_⟩
  rw [falseKeys_eq_nil_iff ruler (both.and plain).suits,
    possible_and_iff ruler both.suits plain.suits]
  rintro ⟨key, kind, known, none⟩
  obtain ⟨spot, legal, admits⟩ := (falseKeys_eq_nil_iff ruler both.suits).1 joined key kind known
  exact none spot legal admits
    (within_and_left ruler plain.suits plainS.suits key kind known spot legal admits)

theorem proper_of_mem_negateAll (scale : Ratio.Scale fun _ => P) (proper : ∀ c ∈ cs, c.Proper P) :
    ∀ r ∈ negateAll cs, r.Proper P ∧ r.falseKeys = [] := by
  obtain ⟨β, _, level, ruler⟩ := scale.exists_ruler
  intro r mem
  have settled := (isSettled_of_mem_negateAll ruler (fun c mem => (proper c mem).plain) mem).1
  exact ⟨settled.proper, (falseKeys_eq_nil_iff ruler settled.plain.suits).2 settled.possible⟩

/-- A clause that can be asked for implies a list iff the double negation of the list has a clause
that covers it. -/
theorem implies_iff_exists_covers (scale : Ratio.Scale fun _ => P)
    (proper : ∀ c ∈ cs, c.Proper P) (plain : b.Plain fun _ => P) (possible : b.falseKeys = []) :
    b.Implies (fun _ => P) cs ↔
      ∃ r ∈ negateAll (negateAll cs), r.simplify.covers b.simplify = true := by
  obtain ⟨β, _, level, ruler⟩ := scale.exists_ruler
  have negated (n : Clause) (mem : n ∈ negateAll cs) : n.Proper P :=
    (proper_of_mem_negateAll scale proper n mem).1
  rw [← within_negateAll_negateAll_iff ruler (fun c mem => (proper c mem).plain)
    (fun c mem => (proper c mem).filled) plain
    ((falseKeys_eq_nil_iff ruler plain.suits).1 possible)]
  refine exists_congr fun r => and_congr_right fun mem => ?_
  have plain' := (proper_of_mem_negateAll scale negated r mem).1.plain
  exact (covers_simplify_iff ruler plain'.suits plain.suits plain'.untagged).symm

/-- What implies a negation excludes each clause that is negated. -/
theorem apart_of_implies_negateAll {β : Type} [LinearOrder β] {level : Ratio → β}
    (ruler : Ratio.Ruler P level) (plain : ∀ c ∈ cs, c.Plain fun _ => P)
    (plainB : b.Plain fun _ => P) (implies : b.Implies (fun _ => P) (negateAll cs)) (mem : c ∈ cs) :
    b.Apart level c := by
  by_contra meets
  have both := plainB.and (plain c mem)
  have together := (possible_and_iff ruler plainB.suits (plain c mem).suits).2 meets
  obtain ⟨n, hn, joined⟩ :=
    implies c (plain c mem) ((falseKeys_eq_nil_iff ruler both.suits).2 together)
  obtain ⟨settled, excluded⟩ := isSettled_of_mem_negateAll ruler plain hn
  rw [falseKeys_eq_nil_iff ruler (both.and settled.plain).suits,
    possible_and_iff ruler both.suits settled.plain.suits] at joined
  refine joined ((excluded c mem).symm.of_within ?_)
  exact within_and_right ruler plainB.suits (plain c mem).suits

/-- A clause that can be asked for, and that implies a negation, is covered by a clause of it. -/
theorem exists_covers_of_implies_negateAll (scale : Ratio.Scale fun _ => P)
    (proper : ∀ c ∈ cs, c.Proper P) (plain : b.Plain fun _ => P) (possible : b.falseKeys = [])
    (implies : b.Implies (fun _ => P) (negateAll cs)) :
    ∃ r ∈ negateAll cs, r.simplify.covers b.simplify = true := by
  obtain ⟨β, _, level, ruler⟩ := scale.exists_ruler
  have plain' (c : Clause) (mem : c ∈ cs) := (proper c mem).plain
  obtain ⟨r, mem, within⟩ := (within_negateAll_iff ruler plain'
    (fun c mem => (proper c mem).filled) ((falseKeys_eq_nil_iff ruler plain.suits).1 possible)).2
    fun c mem => apart_of_implies_negateAll ruler plain' plain implies mem
  have plainR := (proper_of_mem_negateAll scale proper r mem).1.plain
  exact ⟨r, mem, (covers_simplify_iff ruler plainR.suits plain.suits plainR.untagged).2 within⟩

/-- What implies a single clause lies within it: outside of it, a part of its negation could be
asked for in addition. -/
theorem within_of_implies_singleton {β : Type} [LinearOrder β] {level : Ratio → β}
    (ruler : Ratio.Ruler P level) (proper : c.Proper P) (met : c.Possible level)
    (plain : b.Plain fun _ => P) (possible : b.Possible level)
    (implies : b.Implies (fun _ => P) [c]) : b.Within level c := by
  intro key kind known spot legal admits
  by_contra outside
  have suits := proper.plain.suits.on known
  have sound : c.on key ≠ .never := by
    intro never
    obtain ⟨s, _, inside⟩ := met key kind known
    rw [never] at inside
    exact inside
  obtain ⟨x, mem, sub⟩ := Constraint.exists_part ruler known suits (proper.filled key) sound
    (Spot.isBlock_singleton spot) ⟨spot, rfl, legal⟩ fun s same _ inside =>
      outside (by rwa [Set.mem_singleton_iff.1 same] at inside)
  have isPart : IsPart P level c (single key x) := by
    rcases Constraint.isPart_of_mem_negate ruler known suits mem with ⟨never, _⟩ | ⟨y, same, part⟩
    · exact absurd never sound
    · rw [same]
      exact .single known part
  have joined : ¬b.Apart level (single key x) := by
    rintro ⟨key', kind', known', none⟩
    by_cases same : key' = key
    · subst same
      cases known.symm.trans known'
      refine none spot legal admits ?_
      rw [on_single, if_pos rfl]
      exact sub spot rfl legal
    · obtain ⟨s, legal', inside⟩ := possible key' kind' known'
      refine none s legal' inside ?_
      rw [on_single, if_neg same]
      trivial
  have both := plain.and isPart.plain
  have together := (possible_and_iff ruler plain.suits isPart.plain.suits).2 joined
  obtain ⟨c', mem', more⟩ := implies (single key x) isPart.plain
    ((falseKeys_eq_nil_iff ruler both.suits).2 together)
  cases List.mem_singleton.1 mem'
  rw [falseKeys_eq_nil_iff ruler (both.and proper.plain).suits,
    possible_and_iff ruler both.suits proper.plain.suits] at more
  exact more (isPart.apart.of_within (within_and_right ruler plain.suits isPart.plain.suits))

end Clause

namespace Outcome

theorem falsified_negateAll (scale : Ratio.Scale fun _ => P) (proper : ∀ c ∈ cs, c.Proper P) :
    (ofClauses (Clause.negateAll cs)).falsified = [] := by
  have each := Clause.proper_of_mem_negateAll scale proper
  rw [falsified_ofClauses (fun c mem => (each c mem).1.wellTyped),
    List.flatMap_eq_nil_iff.2 fun c mem => (each c mem).2]
  rfl

theorem isSimple_of_mem_clauses {ratios : String → Ratio → Prop}
    (typed : ∀ c ∈ cs, c.WellTyped ratios) (kept : a ∈ (ofClauses cs).clauses) :
    a.IsSimple ratios :=
  isSimple_of_mem_candidates typed (Clause.mem_of_mem_dropRedundant kept)

/-- A normal form keeps a clause that covers a possible one. -/
theorem exists_kept (scale : Ratio.Scale fun _ => P) (typed : ∀ c ∈ cs, c.WellTyped fun _ => P)
    (mem : c ∈ cs) (possible : c.falseKeys = []) :
    ∃ k ∈ (ofClauses cs).clauses, k.covers c.simplify = true :=
  (Clause.preordered_simple scale).exists_kept
    (fun _ candidate => isSimple_of_mem_candidates typed candidate)
    ((mem_candidates typed).2 ⟨c, mem, possible, rfl⟩)

/-- The normal form of a list covers all possible clauses that imply the list. -/
def IsComplete (P : Ratio → Prop) (cs : List Clause) : Prop :=
  ∀ b : Clause, b.Plain (fun _ => P) → b.falseKeys = [] → b.Implies (fun _ => P) cs →
    ∃ c ∈ (ofClauses cs).clauses, c.covers b.simplify = true

/-- The normal form of a double negation covers what implies the list, so that a normal form that is
the same does, too. -/
private theorem isComplete_of_same (scale : Ratio.Scale fun _ => P)
    (proper : ∀ c ∈ cs, c.Proper P)
    (level : (ofClauses (Clause.negateAll (Clause.negateAll cs))).same (ofClauses cs) = true) :
    IsComplete P cs := by
  have negated := Clause.proper_of_mem_negateAll scale proper
  have twice := Clause.proper_of_mem_negateAll scale fun c mem => (negated c mem).1
  have typed (c : Clause) (mem : c ∈ cs) := (proper c mem).wellTyped
  have typed' (r : Clause) (mem : r ∈ Clause.negateAll (Clause.negateAll cs)) :=
    (twice r mem).1.wellTyped
  have order := Clause.preordered_simple scale
  simp only [same, Bool.and_eq_true, List.all_eq_true, List.any_eq_true] at level
  obtain ⟨⟨_, each⟩, _⟩ := level
  intro b plain possible implies
  obtain ⟨r, mem, covers⟩ :=
    (Clause.implies_iff_exists_covers scale proper plain possible).1 implies
  obtain ⟨k, kept, above⟩ := exists_kept scale typed' mem (twice r mem).2
  obtain ⟨k', kept', level⟩ := each k kept
  have hr : r.simplify.IsSimple fun _ => P := ⟨r, (twice r mem).1.plain.suits, rfl⟩
  have hb : b.simplify.IsSimple fun _ => P := ⟨b, plain.suits, rfl⟩
  have hk := isSimple_of_mem_clauses typed' kept
  have hk' := isSimple_of_mem_clauses typed kept'
  have higher : k'.covers k = true :=
    Clause.covers_of_same scale (hk.suits scale) (hk'.suits scale) level (order.refl hk)
  exact ⟨k', kept', order.trans hk' hk hb higher (order.trans hk hr hb above covers)⟩

/-- A double negation has the normal form of the list iff the list falsifies nothing, and its normal
form is complete. -/
theorem same_negateAll_negateAll_iff (scale : Ratio.Scale fun _ => P)
    (proper : ∀ c ∈ cs, c.Proper P) :
    (ofClauses (Clause.negateAll (Clause.negateAll cs))).same (ofClauses cs) = true ↔
      (ofClauses cs).falsified = [] ∧ IsComplete P cs := by
  have negated := Clause.proper_of_mem_negateAll scale proper
  have twice := Clause.proper_of_mem_negateAll scale fun c mem => (negated c mem).1
  have none := falsified_negateAll scale fun c mem => (negated c mem).1
  constructor
  · intro level
    refine ⟨?_, isComplete_of_same scale proper level⟩
    simp only [same, Bool.and_eq_true, beq_iff_eq] at level
    exact level.1.1.1.2.symm.trans none
  · rintro ⟨falsified, complete⟩
    have typed (c : Clause) (mem : c ∈ cs) := (proper c mem).wellTyped
    refine same_ofClauses scale (fun r mem => (twice r mem).1.wellTyped) typed ?_ ?_
      (none.trans falsified.symm)
    · intro r mem possible
      have plain := (twice r mem).1.plain
      have implies := (Clause.implies_iff_exists_covers scale proper plain possible).2
        ⟨r, mem, Clause.covers_self_of_simplify r⟩
      obtain ⟨k, kept, covers⟩ := complete r plain possible implies
      obtain ⟨c, hc, possible', rfl⟩ :=
        (mem_candidates typed).1 (Clause.mem_of_mem_dropRedundant kept)
      exact ⟨c, hc, possible', covers⟩
    · intro c mem possible
      have plain := (proper c mem).plain
      obtain ⟨r, hr, covers⟩ := (Clause.implies_iff_exists_covers scale proper plain possible).1
        (Clause.implies_of_mem scale plain mem)
      exact ⟨r, hr, (twice r hr).2, covers⟩

/-- The normal form of a negation is complete. -/
theorem isComplete_negateAll (scale : Ratio.Scale fun _ => P) (proper : ∀ c ∈ cs, c.Proper P) :
    IsComplete P (Clause.negateAll cs) := by
  have negated := Clause.proper_of_mem_negateAll scale proper
  have typed (r : Clause) (mem : r ∈ Clause.negateAll cs) := (negated r mem).1.wellTyped
  intro b plain possible implies
  obtain ⟨r, mem, covers⟩ :=
    Clause.exists_covers_of_implies_negateAll scale proper plain possible implies
  obtain ⟨k, kept, above⟩ := exists_kept scale typed mem (negated r mem).2
  have hr : r.simplify.IsSimple fun _ => P := ⟨r, (negated r mem).1.plain.suits, rfl⟩
  have hb : b.simplify.IsSimple fun _ => P := ⟨b, plain.suits, rfl⟩
  exact ⟨k, kept, (Clause.preordered_simple scale).trans (isSimple_of_mem_clauses typed kept) hr hb
    above covers⟩

/-- The normal form of a single clause that can be asked for is complete. -/
theorem isComplete_singleton (scale : Ratio.Scale fun _ => P) (proper : c.Proper P)
    (met : c.falseKeys = []) : IsComplete P [c] := by
  obtain ⟨β, _, level, ruler⟩ := scale.exists_ruler
  intro b plain possible implies
  have within := Clause.within_of_implies_singleton ruler proper
    ((Clause.falseKeys_eq_nil_iff ruler proper.plain.suits).1 met) plain
    ((Clause.falseKeys_eq_nil_iff ruler plain.suits).1 possible) implies
  have covers := (Clause.covers_simplify_iff ruler proper.plain.suits plain.suits
    proper.plain.untagged).2 within
  have typed : ∀ c' ∈ [c], c'.WellTyped fun _ => P := by simp [proper.wellTyped]
  obtain ⟨k, kept, above⟩ := exists_kept scale typed List.mem_cons_self met
  have hc : c.simplify.IsSimple fun _ => P := ⟨c, proper.plain.suits, rfl⟩
  have hb : b.simplify.IsSimple fun _ => P := ⟨b, plain.suits, rfl⟩
  exact ⟨k, kept, (Clause.preordered_simple scale).trans (isSimple_of_mem_clauses typed kept) hc hb
    above covers⟩

end Outcome

end Lists

section Trees

variable {m : Metrics} {c : Condition}

/-- The ratios at the ends of intervals in the clauses of the tests of a condition, and the ends of
the domain. -/
def Condition.endRatios (m : Metrics) (c : Condition) : List Ratio :=
  c.features.flatMap (fun f => (f.clauses m).flatMap Clause.ratioEnds) ++
    [ratioDomain.min, ratioDomain.max]

def Condition.doubleNegated (c : Condition) : Condition := .not (.condition (.not (.condition c)))

theorem Condition.clauses_doubleNegated (m : Metrics) (c : Condition) :
    c.doubleNegated.clauses m = Clause.negateAll (Clause.negateAll (c.clauses m)) := by
  simp only [doubleNegated, Condition.clauses, InParens.clauses]

theorem Condition.scale_endRatios (total : Endpoint.TotalOn (· ∈ c.endRatios m))
    (separated : ∀ r ∈ c.endRatios m, ∀ s ∈ c.endRatios m,
      Ratio.order r s = .eq → r.same s = true) :
    Ratio.Scale fun _ r => r ∈ c.endRatios m where
  total _ := total
  ends _ := ⟨by simp [endRatios], by simp [endRatios]⟩
  separated {_ r s} hr hs level := separated r hr s hs level

theorem Condition.plain_leaves (understood : QueryList.Understood [.ofCondition c] m) :
    ∀ f ∈ c.features, ∀ part ∈ f.clauses m, part.Plain fun _ r => r ∈ c.endRatios m := by
  intro f mem
  have listed : f ∈ QueryList.features [.ofCondition c] := by
    simpa [QueryList.features, Query.features, Query.ofCondition] using mem
  have readable := Feature.isUnreadable_eq_false (understood.readable f listed)
  have typed : ∀ part ∈ f.clauses m, part.Plain fun _ _ => True := by
    refine Feature.plain_clauses_of_within readable fun limit spec resolved => ?_
    exact ⟨understood.numbers f listed, fun _ => ⟨trivial, trivial, trivial⟩,
      fun _ _ _ _ _ => trivial, fun _ => ⟨trivial, trivial, trivial⟩⟩
  refine Feature.plain_clauses readable fun part made key constraint found => ⟨?_, ?_⟩
  · obtain ⟨kind, _, suits⟩ := (typed part made).suits key constraint found
    exact suits.endsIn.numbers
  · have value := KeyMap.mem_values found
    rintro interval rfl
    have among (r : Ratio) (mem' : r ∈ [interval.min, interval.max]) : r ∈ c.endRatios m := by
      simp only [endRatios, List.mem_append, List.mem_flatMap]
      exact .inl ⟨f, mem, part, made, List.mem_flatMap.2 ⟨_, value, mem'⟩⟩
    exact ⟨among _ (by simp), among _ (by simp)⟩

theorem Condition.proper_of_understood (understood : QueryList.Understood [.ofCondition c] m)
    (scale : Ratio.Scale fun _ r => r ∈ c.endRatios m) :
    ∀ part ∈ c.clauses m, part.Proper (· ∈ c.endRatios m) := by
  obtain ⟨β, _, level, ruler⟩ := scale.exists_ruler
  have noText : c.texts = [] := by
    simpa [QueryList.texts, Query.texts, Query.ofCondition] using understood.noText
  exact Condition.proper_clauses (scale.total "") ruler noText (Condition.plain_leaves understood)

theorem Outcome.ofClauses_tagged_all {cs : List Clause} (untagged : ∀ part ∈ cs, part.tag = none) :
    ofClauses (cs.map fun part => part.tagged .all) = ofClauses cs := by
  have simple (part : Clause) (mem : part ∈ cs) : (part.tagged .all).simplify = part.simplify := by
    simp [Clause.simplify, Clause.tagged, untagged part mem]
  have kept : ((cs.map fun part => part.tagged .all).filter fun c => !c.isInvalid) =
      (cs.filter fun c => !c.isInvalid).map fun part => part.tagged .all := by
    rw [List.filter_map]
    rfl
  have possible (ds : List Clause) :
      ((ds.map fun part => part.tagged .all).filter fun c => c.falseKeys.isEmpty) =
        (ds.filter fun c => c.falseKeys.isEmpty).map fun part => part.tagged .all := by
    rw [List.filter_map]
    rfl
  simp only [ofClauses, kept, possible, List.map_map, List.flatMap_map]
  congr 2
  refine List.map_congr_left fun part mem => ?_
  exact simple part (List.mem_filter.1 (List.mem_filter.1 mem).1).1

theorem QueryList.compile_ofCondition (untagged : ∀ part ∈ c.clauses m, part.tag = none) :
    QueryList.compile m [.ofCondition c] = Outcome.ofClauses (c.clauses m) := by
  have tags : QueryList.clauses m [.ofCondition c] =
      (c.clauses m).map fun part => part.tagged .all := by
    simp [QueryList.clauses, Query.clauses, Query.ofCondition, MediaType.tag?]
  rw [QueryList.compile, tags, Outcome.ofClauses_tagged_all untagged]

private theorem QueryList.same_compile_iff {P : Ratio → Prop} (scale : Ratio.Scale fun _ => P)
    (proper : ∀ part ∈ c.clauses m, part.Proper P) :
    (QueryList.compile m [.ofCondition c.doubleNegated]).same
        (QueryList.compile m [.ofCondition c]) = true ↔
      (QueryList.compile m [.ofCondition c]).falsified = [] ∧
        Outcome.IsComplete P (c.clauses m) := by
  have negated := Clause.proper_of_mem_negateAll scale proper
  have twice := Clause.proper_of_mem_negateAll scale fun part mem => (negated part mem).1
  rw [← Condition.clauses_doubleNegated] at twice
  rw [QueryList.compile_ofCondition fun part mem => (proper part mem).plain.untagged,
    QueryList.compile_ofCondition fun part mem => (twice part mem).1.plain.untagged,
    Condition.clauses_doubleNegated]
  exact Outcome.same_negateAll_negateAll_iff scale proper

/-- A double negation compiles to the result of its tree iff the tree falsifies no feature and has
all clauses that imply it: each one that can be asked for is covered by one of the result. -/
theorem QueryList.same_compile_doubleNegated_iff
    (understood : QueryList.Understood [.ofCondition c] m)
    (total : Endpoint.TotalOn (· ∈ c.endRatios m))
    (separated : ∀ r ∈ c.endRatios m, ∀ s ∈ c.endRatios m,
      Ratio.order r s = .eq → r.same s = true) :
    (QueryList.compile m [.ofCondition c.doubleNegated]).same
        (QueryList.compile m [.ofCondition c]) = true ↔
      (QueryList.compile m [.ofCondition c]).falsified = [] ∧
        ∀ b : Clause, b.Plain (fun _ r => r ∈ c.endRatios m) → b.falseKeys = [] →
          b.Implies (fun _ r => r ∈ c.endRatios m) (c.clauses m) →
          ∃ k ∈ (QueryList.compile m [.ofCondition c]).clauses, k.covers b.simplify = true := by
  have scale := Condition.scale_endRatios total separated
  have proper := Condition.proper_of_understood understood scale
  rw [QueryList.same_compile_iff scale proper, Outcome.IsComplete,
    QueryList.compile_ofCondition fun part mem => (proper part mem).plain.untagged]

/-- `(hover: hover) and (aspect-ratio > 4/3)` -/
def hoveringAndWide : Condition :=
  .and [.feature (.plain "hover" (.ident "hover")),
    .feature (.range "aspect-ratio" none (some (.gt, .ratio 4 3)))]

/-- What implies the conjunction of two tests is covered by its only clause. -/
theorem QueryList.same_compile_doubleNegated_hovering :
    (QueryList.compile {} [.ofCondition hoveringAndWide]).falsified = [] ∧
      ∀ b : Clause, b.Plain (fun _ r => r ∈ hoveringAndWide.endRatios {}) → b.falseKeys = [] →
        b.Implies (fun _ r => r ∈ hoveringAndWide.endRatios {}) (hoveringAndWide.clauses {}) →
        ∃ k ∈ (QueryList.compile {} [.ofCondition hoveringAndWide]).clauses,
          k.covers b.simplify = true :=
  (QueryList.same_compile_doubleNegated_iff (by decide +kernel)
    (Endpoint.totalOn_mem (by decide +kernel) (by decide +kernel)) (by decide +kernel)).1
    (by decide +kernel)

/-- `(width < 0px)` -/
def narrowerThanNothing : Condition :=
  .and [.feature (.range "width" none (some (.lt, .dimension 0 "px")))]

/-- A double negation may be seen: it forgets which features the tree falsifies. -/
theorem QueryList.exists_seen_doubleNegated : ¬∀ (m : Metrics) (c : Condition),
    QueryList.Understood [.ofCondition c] m →
      (QueryList.compile m [.ofCondition c.doubleNegated]).same
        (QueryList.compile m [.ofCondition c]) = true := by
  intro unseen
  have same := unseen {} narrowerThanNothing (by decide +kernel)
  exact absurd same (by decide +kernel)

/-- `(width < 100px) or (width > 50px)` compiles to two clauses, its double negation to the one that
both together make. -/
example :
    let narrowOrWide : Condition := .or [
      .feature (.range "width" none (some (.lt, .dimension 100 "px"))),
      .feature (.range "width" none (some (.gt, .dimension 50 "px")))]
    (QueryList.compile {} [.ofCondition narrowOrWide]).clauses.length = 2 ∧
      (QueryList.compile {} [.ofCondition narrowOrWide.doubleNegated]).alwaysMatches = true := by
  decide +kernel

/-- A tree that compiles to a single clause, and falsifies nothing, is what its double negation
compiles to. -/
theorem QueryList.same_compile_doubleNegated_of_single {part : Clause}
    (understood : QueryList.Understood [.ofCondition c] m)
    (total : Endpoint.TotalOn (· ∈ c.endRatios m))
    (separated : ∀ r ∈ c.endRatios m, ∀ s ∈ c.endRatios m,
      Ratio.order r s = .eq → r.same s = true)
    (single : c.clauses m = [part]) (met : part.falseKeys = []) :
    (QueryList.compile m [.ofCondition c.doubleNegated]).same
      (QueryList.compile m [.ofCondition c]) = true := by
  have scale := Condition.scale_endRatios total separated
  have proper := Condition.proper_of_understood understood scale
  have typed (part : Clause) (mem : part ∈ c.clauses m) := (proper part mem).wellTyped
  refine (QueryList.same_compile_iff scale proper).2 ⟨?_, ?_⟩
  · rw [QueryList.compile_ofCondition fun part mem => (proper part mem).plain.untagged,
      Outcome.falsified_ofClauses typed, single, List.flatMap_singleton, met]
    rfl
  · rw [single] at proper ⊢
    exact Outcome.isComplete_singleton scale (proper part List.mem_cons_self) met

/-- Three negations compile to what one compiles to. -/
theorem QueryList.same_compile_doubleNegated_not
    (understood : QueryList.Understood [.ofCondition c] m)
    (total : Endpoint.TotalOn (· ∈ c.endRatios m))
    (separated : ∀ r ∈ c.endRatios m, ∀ s ∈ c.endRatios m,
      Ratio.order r s = .eq → r.same s = true) :
    (QueryList.compile m [.ofCondition (Condition.not (.condition c)).doubleNegated]).same
      (QueryList.compile m [.ofCondition (.not (.condition c))]) = true := by
  have scale := Condition.scale_endRatios total separated
  have proper := Condition.proper_of_understood understood scale
  have clauses : (Condition.not (.condition c)).clauses m = Clause.negateAll (c.clauses m) := by
    simp only [Condition.clauses, InParens.clauses]
  have negated := Clause.proper_of_mem_negateAll scale proper
  rw [← clauses] at negated
  refine (QueryList.same_compile_iff scale fun part mem => (negated part mem).1).2 ⟨?_, ?_⟩
  · rw [QueryList.compile_ofCondition fun part mem => (negated part mem).1.plain.untagged, clauses]
    exact Outcome.falsified_negateAll scale proper
  · rw [clauses]
    exact Outcome.isComplete_negateAll scale proper

end Trees

end MediaQuery
