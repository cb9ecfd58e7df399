import MediaQuery.Proofs.Device
import MediaQuery.Proofs.Feature
import MediaQuery.Proofs.Interval
import MediaQuery.Solver.Basic

set_option autoImplicit false

namespace MediaQuery

section Intervals

variable {α : Type} [Endpoint α] {P : α → Prop} {v x y : α}

/-- A value between the infinities. -/
structure Endpoint.Bounded (v : α) : Prop where
  low : Endpoint.compare v Endpoint.negInfinity ≠ .lt
  high : Endpoint.compare v Endpoint.infinity ≠ .gt

theorem Interval.endsIn_unbounded (low : P Endpoint.negInfinity) (high : P Endpoint.infinity) :
    (Interval.unbounded : Interval α).EndsIn P := ⟨low, high⟩

theorem Interval.contains_unbounded (bounded : Endpoint.Bounded v) :
    (Interval.unbounded : Interval α).contains v = true := by
  have low := bounded.low
  have high := bounded.high
  simp only [contains, aboveMin, belowMax, unbounded]
  cases first : Endpoint.compare v Endpoint.negInfinity <;>
  cases second : Endpoint.compare v Endpoint.infinity <;> simp_all

/-- The interval of a comparison holds the values that compare so. -/
theorem Comparison.contains_interval (bounded : Endpoint.Bounded v) (op : Comparison) (x : α) :
    (op.interval x).contains v = op.accepts (Endpoint.compare v x) := by
  have low := bounded.low
  have high := bounded.high
  cases op <;>
  simp only [Comparison.interval, Interval.contains, Interval.aboveMin, Interval.belowMax,
    Interval.atLeast, Interval.atMost, Interval.exact] <;>
  cases order : Endpoint.compare v x <;>
  cases first : Endpoint.compare v Endpoint.negInfinity <;>
  cases second : Endpoint.compare v Endpoint.infinity <;> simp_all [Comparison.accepts]

/-- The comparison that a limit stands for; without a limit, equality. -/
def Limit.operator : Option Limit → Comparison
  | some limit => limit.comparison
  | none => .eq

theorem Limit.interval_eq (limit : Option Limit) (x : α) :
    Limit.interval limit x = (Limit.operator limit).interval x := by
  cases limit with
  | none => rfl
  | some limit => cases limit <;> rfl

theorem Comparison.endsIn_interval (low : P Endpoint.negInfinity) (high : P Endpoint.infinity)
    (hx : P x) (op : Comparison) : (op.interval x).EndsIn P := by
  cases op
  · exact ⟨low, hx⟩
  · exact ⟨low, hx⟩
  · exact ⟨hx, high⟩
  · exact ⟨hx, high⟩
  · exact ⟨hx, hx⟩

/-- What a comparison on one side admits; without one, everything. -/
def Comparison.admits (v : α) : Option (Comparison × α) → Bool
  | some (op, x) => op.accepts (Endpoint.compare v x)
  | none => true

def Comparison.fromRight (side : Option (α × Comparison)) : Option (Comparison × α) :=
  side.map fun (x, op) => (op.flip, x)

omit [Endpoint α] in
theorem Comparison.mem_fromRight {left : Option (α × Comparison)}
    (leftIn : ∀ x op, left = some (x, op) → P x) :
    ∀ op x, fromRight left = some (op, x) → P x := by
  rintro op x side
  obtain ⟨⟨x', op'⟩, found, same⟩ := Option.map_eq_some_iff.1 side
  cases same
  exact leftIn _ _ found

theorem Interval.EndsIn.restrict? {interval part : Interval α} {side : Option (Comparison × α)}
    (ends : interval.EndsIn P) (low : P Endpoint.negInfinity) (high : P Endpoint.infinity)
    (sideIn : ∀ op x, side = some (op, x) → P x) (made : interval.restrict? side = some part) :
    part.EndsIn P := by
  cases side with
  | none =>
    cases made
    exact ends
  | some pair =>
    exact ends.inter? (Comparison.endsIn_interval low high (sideIn _ _ rfl) _) made

theorem Interval.any_contains_restrict? {interval : Interval α}
    {side : Option (Comparison × α)} (total : Endpoint.TotalOn P) (low : P Endpoint.negInfinity)
    (high : P Endpoint.infinity) (hv : P v) (bounded : Endpoint.Bounded v)
    (ends : interval.EndsIn P) (sideIn : ∀ op x, side = some (op, x) → P x) :
    (interval.restrict? side).any (·.contains v) =
      (interval.contains v && Comparison.admits v side) := by
  cases side with
  | none => simp [Interval.restrict?, Comparison.admits]
  | some pair =>
    rw [Interval.restrict?, Interval.any_contains_inter? total ends
      (Comparison.endsIn_interval low high (sideIn _ _ rfl) _) hv,
      Comparison.contains_interval bounded, Comparison.admits]

variable {left : Option (α × Comparison)} {right : Option (Comparison × α)}

theorem Interval.EndsIn.between? {part : Interval α}
    (low : P Endpoint.negInfinity) (high : P Endpoint.infinity)
    (leftIn : ∀ x op, left = some (x, op) → P x) (rightIn : ∀ op x, right = some (op, x) → P x)
    (made : Interval.between? left right = some part) : part.EndsIn P := by
  obtain ⟨first, madeFirst, made⟩ := Option.bind_eq_some_iff.1 made
  have firstIn : first.EndsIn P := (Interval.endsIn_unbounded low high).restrict? low high
    (Comparison.mem_fromRight leftIn) madeFirst
  exact firstIn.restrict? low high rightIn made

/-- The values between two sides are those that compare so with both. -/
theorem Interval.any_contains_between? (total : Endpoint.TotalOn P)
    (low : P Endpoint.negInfinity) (high : P Endpoint.infinity) (hv : P v)
    (bounded : Endpoint.Bounded v) (leftIn : ∀ x op, left = some (x, op) → P x)
    (rightIn : ∀ op x, right = some (op, x) → P x) :
    (Interval.between? left right).any (·.contains v) =
      (Comparison.admits v (Comparison.fromRight left) && Comparison.admits v right) := by
  have leftIn' := Comparison.mem_fromRight leftIn
  have first := Interval.any_contains_restrict? total low high hv bounded
    (Interval.endsIn_unbounded low high) leftIn'
  rw [Interval.contains_unbounded bounded, Bool.true_and] at first
  rw [← first, Interval.between?]
  change (((Interval.unbounded.restrict? (Comparison.fromRight left)).bind _).any _) = _
  cases made : (Interval.unbounded : Interval α).restrict? (Comparison.fromRight left) with
  | none => rfl
  | some part =>
    have ends := (Interval.endsIn_unbounded low high).restrict? low high leftIn' made
    exact Interval.any_contains_restrict? total low high hv bounded ends rightIn

end Intervals

namespace Comparison

/-- A decision is right for a value in some order to the limit, if the order is what the sign of
the limit and its being infinite imply for numbers from zero on. -/
theorem decide?_right {op : Comparison} {canBeZero : Bool} {limit : Float} {order : Ordering}
    {verdict : Kleene} (negative : Number.isNegative limit = true → order = .gt)
    (zero : Number.isZero limit = true → order ≠ .lt)
    (nonzero : Number.isZero limit = true → canBeZero = false → order = .gt)
    (infinite : Number.same limit Number.infinity = true → order ≠ .gt)
    (decided : op.decide? canBeZero limit = some verdict) :
    verdict = Kleene.ofBool (op.accepts order) := by
  have below (small : (Number.isNegative limit || Number.isZero limit && !canBeZero) = true) :
      order = .gt := by
    rw [Bool.or_eq_true, Bool.and_eq_true, Bool.not_eq_true'] at small
    exact small.elim negative fun both => nonzero both.1 both.2
  have atMostZero (small : (Number.isNegative limit || Number.isZero limit) = true) :
      order ≠ .lt := by
    rcases Bool.or_eq_true_iff.1 small with small | small
    · rw [negative small]
      decide
    · exact zero small
  cases op with
  | eq =>
    simp only [decide?, Option.ite_none_right_eq_some] at decided
    rw [below decided.1, ← Option.some.inj decided.2]
    rfl
  | ge | lt =>
    simp only [decide?, Option.ite_none_right_eq_some] at decided
    have above := atMostZero decided.1
    rw [← Option.some.inj decided.2]
    cases order <;> first | rfl | exact absurd rfl above
  | gt | le =>
    simp only [decide?] at decided
    split at decided
    · rename_i small
      cases decided
      rw [below small]
      rfl
    · simp only [Option.ite_none_right_eq_some] at decided
      have atMost := infinite decided.1
      rw [← Option.some.inj decided.2]
      cases order <;> first | rfl | exact absurd rfl atMost

theorem decide?_ne_unknown {op : Comparison} {canBeZero : Bool} {limit : Float} {verdict : Kleene}
    (decided : op.decide? canBeZero limit = some verdict) : verdict ≠ .unknown := by
  rintro rfl
  cases op <;> simp only [decide?] at decided <;> split at decided <;> simp at decided

/-- On numbers from zero on, zero only if it is possible, every decision is right. -/
theorem decide?_number {op : Comparison} {canBeZero : Bool} {x limit : Float} {verdict : Kleene}
    (above : Number.isNonNegative x = true)
    (possible : canBeZero = false → Number.isZero x = false)
    (number : Number.isNaN limit = false) (decided : op.decide? canBeZero limit = some verdict) :
    verdict = Kleene.ofBool (op.accepts (Number.order x limit)) := by
  have hx := ((Number.isNonNegative_iff x).1 above).1
  simp only [Number.isNonNegative, hx, Bool.not_false, Bool.true_and, decide_eq_true_iff] at above
  have order := Number.order_eq_compare_rank hx number
  refine decide?_right ?_ ?_ ?_ ?_ decided
  · intro negative
    simp only [Number.isNegative, number, Bool.not_false, Bool.true_and, decide_eq_true_iff]
      at negative
    rw [order, compare_gt_iff_gt]
    omega
  · intro zero
    rw [order, compare_ge_iff_ge, (Number.isZero_iff_rank limit).1 zero]
    exact above
  · intro zero never
    have nonzero := possible never
    rw [← Bool.not_eq_true, Number.isZero_iff_rank] at nonzero
    rw [order, compare_gt_iff_gt, (Number.isZero_iff_rank limit).1 zero]
    omega
  · intro same
    simp only [Number.same, Bool.and_eq_true, beq_iff_eq] at same
    have limited := Number.order_infinity x
    rw [Number.order_eq_compare_rank hx Number.isNaN_infinity, ← same.2, ← order] at limited
    exact limited

end Comparison

end MediaQuery
