import Mathlib
import MediaQuery.Ratio

set_option autoImplicit false

/- The contract of the comparison of ends: on the values in question it is a total preorder. Such a
comparison is the one of a linear order of levels, which is how the algebra of intervals is reasoned
about. Numbers have it; for ratios it has to be asked of the ratios at hand. -/
namespace MediaQuery

/-- The comparison is a total preorder of some values. -/
structure Endpoint.TotalOn {α : Type} [Endpoint α] (P : α → Prop) : Prop where
  swap : ∀ {x y}, P x → P y → (Endpoint.compare x y).swap = Endpoint.compare y x
  trans : ∀ {x y z}, P x → P y → P z → Endpoint.compare x y ≠ .gt →
    Endpoint.compare y z ≠ .gt → Endpoint.compare x z ≠ .gt

theorem cmp_cases {β : Type} [LinearOrder β] (a b : β) :
    a < b ∧ cmp a b = .lt ∨ a = b ∧ cmp a b = .eq ∨ b < a ∧ cmp a b = .gt := by
  rcases lt_trichotomy a b with below | equal | above
  · exact .inl ⟨below, (cmp_eq_lt_iff a b).2 below⟩
  · exact .inr (.inl ⟨equal, (cmp_eq_eq_iff a b).2 equal⟩)
  · exact .inr (.inr ⟨above, (cmp_eq_gt_iff a b).2 above⟩)

namespace Endpoint

variable {α : Type} [Endpoint α] {P Q : α → Prop}

theorem TotalOn.mono (total : TotalOn Q) (sub : ∀ x, P x → Q x) : TotalOn P where
  swap hx hy := total.swap (sub _ hx) (sub _ hy)
  trans hx hy hz := total.trans (sub _ hx) (sub _ hy) (sub _ hz)

theorem TotalOn.compare_self (total : TotalOn P) {x : α} (hx : P x) :
    Endpoint.compare x x = .eq := by
  have swapped := total.swap hx hx
  cases verdict : Endpoint.compare x x <;> simp_all [Ordering.swap]

/-- Whether the values of a list are totally ordered can be found out by comparing them. -/
theorem totalOn_mem {xs : List α}
    (swap : ∀ x ∈ xs, ∀ y ∈ xs, (Endpoint.compare x y).swap = Endpoint.compare y x)
    (trans : ∀ x ∈ xs, ∀ y ∈ xs, ∀ z ∈ xs, Endpoint.compare x y ≠ .gt →
      Endpoint.compare y z ≠ .gt → Endpoint.compare x z ≠ .gt) : TotalOn (· ∈ xs) where
  swap hx hy := swap _ hx _ hy
  trans hx hy hz := trans _ hx _ hy _ hz

/-- Values that are compared by levels are totally ordered. -/
theorem totalOn_of_levels (levels : List (α × Int))
    (spec : ∀ x ∈ levels, ∀ y ∈ levels,
      Endpoint.compare x.1 y.1 = Ord.compare x.2 y.2) :
    TotalOn (· ∈ levels.map Prod.fst) where
  swap hx hy := by
    obtain ⟨a, first, rfl⟩ := List.mem_map.1 hx
    obtain ⟨b, second, rfl⟩ := List.mem_map.1 hy
    rw [spec a first b second, spec b second a first]
    exact (@Std.OrientedCmp.eq_swap Int Ord.compare _ b.2 a.2).symm
  trans hx hy hz := by
    obtain ⟨a, first, rfl⟩ := List.mem_map.1 hx
    obtain ⟨b, second, rfl⟩ := List.mem_map.1 hy
    obtain ⟨c, third, rfl⟩ := List.mem_map.1 hz
    rw [spec a first b second, spec b second c third, spec a first c third]
    simp only [compare_le_iff_le]
    exact le_trans

/-- The values in question, ordered by the comparison. -/
@[reducible]
private def levelPreorder (total : TotalOn P) : Preorder {x : α // P x} where
  le x y := Endpoint.compare x.1 y.1 ≠ .gt
  le_refl x := by rw [total.compare_self x.2]; decide
  le_trans x y z := total.trans x.2 y.2 z.2

private theorem levelPreorder_total (total : TotalOn P) (x y : {x : α // P x}) :
    Endpoint.compare x.1 y.1 ≠ .gt ∨ Endpoint.compare y.1 x.1 ≠ .gt := by
  have swapped := total.swap x.2 y.2
  cases verdict : Endpoint.compare x.1 y.1 <;> simp_all [Ordering.swap] <;> simp [← swapped]

/-- A total preorder compares values by their levels in a linear order. -/
theorem TotalOn.exists_level (total : TotalOn P) :
    ∃ (β : Type) (_ : LinearOrder β) (level : α → β),
      ∀ x y, P x → P y → Endpoint.compare x y = cmp (level x) (level y) := by
  classical
  let _ := levelPreorder total
  have : @Std.Total {x : α // P x} (· ≤ ·) := ⟨levelPreorder_total total⟩
  refine ⟨WithBot (Antisymmetrization {x : α // P x} (· ≤ ·)), inferInstance,
    fun x => if inside : P x then
      ↑(toAntisymmetrization (α := {x : α // P x}) (· ≤ ·) ⟨x, inside⟩) else ⊥, ?_⟩
  intro x y hx hy
  have swapped := total.swap hx hy
  have forward : (⟨x, hx⟩ : {x : α // P x}) ≤ ⟨y, hy⟩ ↔ Endpoint.compare x y ≠ .gt := Iff.rfl
  have backward : (⟨y, hy⟩ : {x : α // P x}) ≤ ⟨x, hx⟩ ↔ Endpoint.compare y x ≠ .gt := Iff.rfl
  rw [← swapped] at backward
  simp only [dif_pos hx, dif_pos hy]
  symm
  cases verdict : Endpoint.compare x y with
  | lt =>
    rw [verdict] at forward backward
    rw [cmp_eq_lt_iff, WithBot.coe_lt_coe, toAntisymmetrization_lt_toAntisymmetrization_iff]
    exact lt_of_le_not_ge (forward.2 (by decide)) (fun le => backward.1 le rfl)
  | eq =>
    rw [verdict] at forward backward
    rw [cmp_eq_eq_iff, WithBot.coe_inj]
    exact Quotient.sound ⟨forward.2 (by decide), backward.2 (by decide)⟩
  | gt =>
    rw [verdict] at forward backward
    rw [cmp_eq_gt_iff, WithBot.coe_lt_coe, toAntisymmetrization_lt_toAntisymmetrization_iff]
    exact lt_of_le_not_ge (backward.2 (by decide)) (fun le => forward.1 le rfl)

end Endpoint

namespace Number

theorem isNaN_zero : isNaN 0 = false := by decide

theorem isNaN_infinity : isNaN infinity = false := by decide

theorem isNaN_negInfinity : isNaN negInfinity = false := by decide

theorem rank_infinity : rank infinity = infiniteMagnitude := by decide

theorem rank_negInfinity : rank negInfinity = -infiniteMagnitude := by decide

theorem rank_bounds {x : Float} (number : isNaN x = false) :
    rank negInfinity ≤ rank x ∧ rank x ≤ rank infinity := by
  rw [rank_negInfinity, rank_infinity]
  rw [isNaN, decide_eq_false_iff_not] at number
  unfold rank
  split <;> omega

theorem order_eq_compare_rank {x y : Float} (hx : isNaN x = false) (hy : isNaN y = false) :
    order x y = compare (rank x) (rank y) := by
  simp [order, hx, hy]

theorem isZero_iff_rank (x : Float) : isZero x = true ↔ rank x = 0 := by
  rw [isZero, beq_iff_eq, rank]
  split <;> omega

/-- The doubles that are numbers are totally ordered. -/
theorem totalOn : Endpoint.TotalOn fun x : Float => isNaN x = false where
  swap {x y} _ _ := order_swap x y
  trans {x y z} hx hy hz lower upper := by
    change order x y ≠ .gt at lower
    change order y z ≠ .gt at upper
    change order x z ≠ .gt
    rw [order_eq_compare_rank hx hy, compare_le_iff_le] at lower
    rw [order_eq_compare_rank hy hz, compare_le_iff_le] at upper
    rw [order_eq_compare_rank hx hz, compare_le_iff_le]
    omega

end Number

namespace Ratio

theorem order_eq_crossOrder {a b : Ratio} (ha : a.isZeroOverZero = false)
    (hb : b.isZeroOverZero = false) : order a b = crossOrder a b := by
  simp [order, ha, hb]

theorem order_self (r : Ratio) : order r r = .eq := by
  by_cases both : r.isZeroOverZero = true
  · simp [order, both, isDegenerate_of_isZeroOverZero r both]
  · have single : r.isZeroOverZero = false := by simpa using both
    rw [order_eq_crossOrder single single, crossOrder]
    split <;> exact Number.order_self _

end Ratio

end MediaQuery
