import MediaQuery.Proofs.Demand
import MediaQuery.Proofs.ExtendedReal

set_option autoImplicit false

namespace MediaQuery

namespace Knowledge

/-- The numbers from zero on, zero itself only if it can be, with the infinite one. -/
def domain (canBeZero : Bool) : Set EReal := {x | 0 < x ∨ x = 0 ∧ canBeZero = true}

section Bounds

variable {canBeZero : Bool} {e : EReal}

theorem top_mem_domain : ⊤ ∈ domain canBeZero := .inl EReal.zero_lt_top

theorem nonneg_of_mem_domain {x : EReal} (mem : x ∈ domain canBeZero) : 0 ≤ x :=
  mem.elim le_of_lt fun zero => zero.1.ge

/-- A value is outside of the domain iff all numbers of the domain are above it. -/
theorem not_mem_domain_iff : e ∉ domain canBeZero ↔ ∀ x ∈ domain canBeZero, e < x := by
  constructor
  · intro outside x mem
    have below : e ≤ 0 := not_lt.1 fun positive => outside (.inl positive)
    refine (below.trans (nonneg_of_mem_domain mem)).lt_of_ne ?_
    rintro rfl
    exact outside mem
  · exact fun above mem => (above e mem).false

theorem not_mem_domain_iff_sign :
    e ∉ domain canBeZero ↔ e < 0 ∨ e = 0 ∧ canBeZero = false := by
  simp only [domain, Set.mem_ofPred_eq, not_or, not_lt, not_and, Bool.not_eq_true]
  constructor
  · rintro ⟨below, zero⟩
    exact below.lt_or_eq.imp_right fun same => ⟨same, zero same⟩
  · rintro (negative | ⟨rfl, never⟩)
    · exact ⟨negative.le, fun same => absurd same negative.ne⟩
    · exact ⟨le_rfl, fun _ => never⟩

theorem le_domain_iff : (∀ x ∈ domain canBeZero, e ≤ x) ↔ e ≤ 0 := by
  constructor
  · intro lower
    by_contra positive
    obtain ⟨x, above, below⟩ := exists_between (not_le.1 positive)
    exact (lower x (.inl above)).not_gt below
  · exact fun below x mem => below.trans (nonneg_of_mem_domain mem)

theorem domain_le_iff : (∀ x ∈ domain canBeZero, x ≤ e) ↔ e = ⊤ := by
  constructor
  · exact fun upper => top_le_iff.1 (upper ⊤ top_mem_domain)
  · rintro rfl x _
    exact le_top

theorem not_domain_lt : ¬∀ x ∈ domain canBeZero, x < e :=
  fun upper => (upper ⊤ top_mem_domain).not_ge le_top

theorem not_domain_eq : ¬∀ x ∈ domain canBeZero, x = e := by
  intro single
  have one : (1 : EReal) ∈ domain canBeZero := .inl one_pos
  have same := (single 1 one).trans (single ⊤ top_mem_domain).symm
  exact absurd same (EReal.coe_ne_top 1)

end Bounds

end Knowledge

namespace Comparison

/-- Whether two values compare as an operator says. -/
def Relates {α : Type} [Preorder α] : Comparison → α → α → Prop
  | .lt, x, y => x < y
  | .le, x, y => x ≤ y
  | .gt, x, y => y < x
  | .ge, x, y => y ≤ x
  | .eq, x, y => x = y

open Number Knowledge

variable {op : Comparison} {canBeZero : Bool} {v : Float}

private theorem below_iff (canBeZero : Bool) (number : isNaN v = false) :
    (isNegative v || isZero v && !canBeZero) = true ↔ toEReal v ∉ domain canBeZero := by
  rw [not_mem_domain_iff_sign, Bool.or_eq_true, Bool.and_eq_true, isNegative_iff_toEReal number,
    isZero_iff_toEReal number, Bool.not_eq_true']

private theorem atMostZero_iff (number : isNaN v = false) :
    (isNegative v || isZero v) = true ↔ toEReal v ≤ 0 := by
  rw [Bool.or_eq_true, isNegative_iff_toEReal number, isZero_iff_toEReal number, le_iff_lt_or_eq]

private theorem not_infinite (number : isNaN v = false)
    (outside : (isNegative v || isZero v && !canBeZero) = true) : ¬same v infinity = true := by
  rw [isInfinite_iff_toEReal number]
  intro infinite
  rw [below_iff canBeZero number, infinite] at outside
  exact outside top_mem_domain

/-- A comparison is decided to hold iff it holds for all numbers of the domain. -/
theorem decide?_eq_yes_iff (number : isNaN v = false) :
    op.decide? canBeZero v = some .yes ↔
      ∀ x ∈ domain canBeZero, op.Relates x (toEReal v) := by
  have below := below_iff canBeZero number
  have atMostZero := atMostZero_iff number
  have infinite := isInfinite_iff_toEReal number
  cases op with
  | lt =>
    refine iff_of_false ?_ not_domain_lt
    simp only [decide?]
    split <;> simp
  | le =>
    simp only [decide?, Relates, domain_le_iff, ← infinite]
    split
    · rename_i outside
      simp [not_infinite number outside]
    · simp
  | gt =>
    simp only [decide?, Relates, ← not_mem_domain_iff, ← below]
    split
    · simp [*]
    · split <;> simp [*]
  | ge =>
    simp only [decide?, Relates, le_domain_iff, ← atMostZero, Option.ite_none_right_eq_some,
      and_true]
  | eq =>
    refine iff_of_false ?_ not_domain_eq
    simp only [decide?]
    split <;> simp

theorem decide?_eq_no_iff (number : isNaN v = false) :
    op.decide? canBeZero v = some .no ↔
      ∀ x ∈ domain canBeZero, ¬op.Relates x (toEReal v) := by
  have below := below_iff canBeZero number
  have atMostZero := atMostZero_iff number
  have infinite := isInfinite_iff_toEReal number
  cases op with
  | lt =>
    simp only [decide?, Relates, not_lt, le_domain_iff, ← atMostZero,
      Option.ite_none_right_eq_some, and_true]
  | le =>
    simp only [decide?, Relates, not_le, ← not_mem_domain_iff, ← below]
    split
    · simp [*]
    · split <;> simp [*]
  | gt =>
    simp only [decide?, Relates, not_lt, domain_le_iff, ← infinite]
    split
    · rename_i outside
      simp [not_infinite number outside]
    · simp
  | ge =>
    refine iff_of_false ?_ ?_
    · simp only [decide?]
      split <;> simp
    · simpa only [Relates, not_le] using not_domain_lt
  | eq =>
    have apart : (∀ x ∈ domain canBeZero, x ≠ toEReal v) ↔ toEReal v ∉ domain canBeZero :=
      ⟨fun apart mem => apart _ mem rfl, fun outside x mem same => outside (same ▸ mem)⟩
    simp only [decide?, Relates, ← ne_eq, apart, ← below, Option.ite_none_right_eq_some, and_true]

end Comparison

namespace Feature

/-- A test of the comparison of a feature with one value, in any of the ways to write it. The last
test is the one that an oracle is asked where the comparison is not decided. -/
inductive Compares (known : KeyMap Knowledge) :
    Feature → String → Comparison → Value → Feature → Prop where
  | plain {name : String} {value : Value} :
      Compares known (.plain name value) name .eq value (.plain name value)
  | right {name : String} {op : Comparison} {value : Value} :
      Compares known (.range name none (some (op, value))) name op value (compare name op value)
  | left {name : String} {op : Comparison} {value : Value} :
      Compares known (.range name (some (value, op)) none) name op.flip value
        (compare name op.flip value)
  | limit {name base : String} {limit : Limit} {value : Value} (unknown : known.get? name = none)
      (limits : FeatureTable.splitLimit? name = some (limit, base)) :
      Compares known (.plain name value) base limit.comparison value
        (compare base limit.comparison value)

/-- A test has a verdict, and no oracle is asked. -/
def Settled (c : SolverConfig) (f : Feature) (verdict : Kleene) : Prop :=
  f.verdict c = verdict ∧ f.questions c = []

def Asks (c : SolverConfig) (f asked : Feature) : Prop :=
  f.verdict c = c.oracle.feature asked ∧ f.questions c = [.feature asked]

variable {c : SolverConfig} {f asked : Feature} {name : String} {op : Comparison} {value : Value}
  {kind : RangeKind} {canBeZero canBeNegative : Bool} {extraValues : List String}

/-- However a comparison is written, it makes one demand. -/
theorem Compares.demands {known : KeyMap Knowledge}
    (compares : f.Compares known name op value asked)
    (ranges : known.get? name = some (.range kind canBeZero canBeNegative extraValues))
    (m : Metrics) :
    f.demands known m =
      [compareDemand m (.range kind canBeZero canBeNegative extraValues) asked op value] := by
  cases compares with
  | plain | right | left => simp only [Feature.demands, Feature.name, ranges, knownDemands]
  | limit unknown limits =>
    simp only [Feature.demands, Feature.name, unknown, unknownDemands, limits, ranges]

theorem settled_of_demands {verdict : Kleene}
    (demands : f.demands c.known c.metrics = [.decided verdict]) : f.Settled c verdict := by
  constructor
  · rw [Feature.verdict, demands]
    cases verdict <;> rfl
  · rw [Feature.questions, demands]
    rfl

theorem asks_of_demands (demands : f.demands c.known c.metrics = [.ask asked]) :
    f.Asks c asked := by
  constructor
  · rw [Feature.verdict, demands]
    exact Kleene.and_yes _
  · rw [Feature.questions, demands]
    rfl

theorem not_asks_of_settled {verdict : Kleene} (settled : f.Settled c verdict) :
    ¬f.Asks c asked := fun asks => by
  rw [Feature.Asks, settled.2] at asks
  cases asks.2

/-- What is settled is what a number of the domain and the value decide. -/
theorem settled_iff_decide? {v : Float} {verdict : Kleene}
    (demands : f.demands c.known c.metrics = [match op.decide? canBeZero v with
      | some verdict => .decided verdict
      | none => .ask asked]) :
    f.Settled c verdict ↔ op.decide? canBeZero v = some verdict := by
  cases decided : op.decide? canBeZero v with
  | none =>
    rw [decided] at demands
    refine iff_of_false (fun settled => ?_) nofun
    exact not_asks_of_settled settled (asks_of_demands demands)
  | some verdict' =>
    rw [decided] at demands
    have settled := settled_of_demands demands
    rw [Option.some.injEq]
    exact ⟨fun other => settled.1.symm.trans other.1, fun same => same ▸ settled⟩

/-- A comparison of a feature with a value is settled exactly where it comes out the same for all
numbers of the domain, and put to the oracle elsewhere. A feature that may be below zero and a word
of which the number is not known are always asked about, and a value of another kind fails. -/
theorem settled_iff_domain (compares : f.Compares c.known name op value asked)
    (ranges : c.known.get? name = some (.range kind canBeZero canBeNegative extraValues)) :
    (value.inRange? c.metrics kind extraValues = none → f.Settled c .no) ∧
    ∀ v, value.inRange? c.metrics kind extraValues = some v →
      (canBeNegative = true ∨ Number.isNaN v = true → f.Asks c asked) ∧
      (canBeNegative = false → Number.isNaN v = false →
        (f.Settled c .yes ↔
          ∀ x ∈ Knowledge.domain canBeZero, op.Relates x (Number.toEReal v)) ∧
        (f.Settled c .no ↔
          ∀ x ∈ Knowledge.domain canBeZero, ¬op.Relates x (Number.toEReal v)) ∧
        ((∃ x ∈ Knowledge.domain canBeZero, op.Relates x (Number.toEReal v)) →
          (∃ x ∈ Knowledge.domain canBeZero, ¬op.Relates x (Number.toEReal v)) →
          f.Asks c asked)) := by
  have demands := compares.demands ranges c.metrics
  refine ⟨fun wrong => ?_, fun v read => ⟨fun open_ => ?_, fun above number => ?_⟩⟩
  · simp only [compareDemand, wrong] at demands
    exact settled_of_demands demands
  · have asks : (Number.isNaN v || canBeNegative) = true := by
      rw [Bool.or_eq_true]
      exact open_.symm
    simp only [compareDemand, read, asks, if_true] at demands
    exact asks_of_demands demands
  · simp only [compareDemand, read, above, number, Bool.or_self, Bool.false_eq_true, if_false]
      at demands
    have holds : op.decide? canBeZero v = some .yes ↔ _ := Comparison.decide?_eq_yes_iff number
    have fails : op.decide? canBeZero v = some .no ↔ _ := Comparison.decide?_eq_no_iff number
    refine ⟨(settled_iff_decide? demands).trans holds,
      (settled_iff_decide? demands).trans fails, ?_⟩
    rintro ⟨x, memX, related⟩ ⟨y, memY, unrelated⟩
    have undecided : op.decide? canBeZero v = none := by
      cases decided : op.decide? canBeZero v with
      | none => rfl
      | some verdict =>
        cases verdict with
        | yes => exact absurd (holds.1 decided y memY) unrelated
        | no => exact absurd related (fails.1 decided x memX)
        | unknown => exact absurd rfl (Comparison.decide?_ne_unknown decided)
    rw [undecided] at demands
    exact asks_of_demands demands

/-- Zero is a width, so `(max-width: 0px)` is asked about; it is not the width of a device, so
`(0px < device-width)` is settled. -/
theorem settled_iff_domain_zero :
    let zero : Value := .dimension 0 "px"
    let c : SolverConfig := {}
    (c.known.get? "width" = some (.range .length true false []) ∧
      (plain "max-width" zero).Asks c (compare "width" .le zero)) ∧
    c.known.get? "device-width" = some (.range .length false false []) ∧
      (range "device-width" (some (zero, .lt)) none).Settled c .yes := by
  intro zero c
  have width : c.known.get? "width" = some (.range .length true false []) := by
    rw [Knowledge.get?_builtIn]
    rfl
  have deviceWidth : c.known.get? "device-width" = some (.range .length false false []) := by
    rw [Knowledge.get?_builtIn]
    rfl
  have unknown : c.known.get? "max-width" = none := by
    rw [Knowledge.get?_builtIn]
    rfl
  have read : zero.inRange? c.metrics .length [] = some 0 := by decide +kernel
  have number := Number.isNaN_zero
  have limits : FeatureTable.splitLimit? "max-width" = some (.max, "width") := by decide
  refine ⟨⟨width, ?_⟩, deviceWidth, ?_⟩
  · have decided := (settled_iff_domain (c := c) (.limit unknown limits) width).2 0 read
    refine (decided.2 rfl number).2.2 ⟨0, .inr ⟨rfl, rfl⟩, ?_⟩ ⟨⊤, Knowledge.top_mem_domain, ?_⟩
    · exact Number.toEReal_zero.ge
    · simp [Comparison.Relates, Limit.comparison, Number.toEReal_zero]
  · have left : (range "device-width" (some (zero, .lt)) none).Compares c.known "device-width" .gt
        zero (compare "device-width" .gt zero) := .left
    have decided := (settled_iff_domain left deviceWidth).2 0 read
    refine (decided.2 rfl number).1.2 fun x mem => ?_
    rw [Number.toEReal_zero]
    exact mem.resolve_right fun zero => absurd zero.2 (by decide)

end Feature

end MediaQuery
