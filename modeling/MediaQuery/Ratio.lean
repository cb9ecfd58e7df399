import MediaQuery.Interval

set_option autoImplicit false

namespace MediaQuery

structure Ratio where
  numerator : Float
  denominator : Float

namespace Ratio

/-- One of the two parts is zero. -/
def isDegenerate (r : Ratio) : Bool := Number.isZero r.numerator || Number.isZero r.denominator

def isZeroOverZero (r : Ratio) : Bool := Number.isZero r.numerator && Number.isZero r.denominator

/-- The ratio as a double. Over zero it is infinite with the sign of the numerator, and zero over
zero is zero. -/
def quotient (r : Ratio) : Float :=
  if Number.isZero r.denominator then
    if Number.isZero r.numerator then 0 else Number.withSignOf r.numerator Number.infinity
  else r.numerator / r.denominator

/-- Compares ratios that are not zero over zero by their cross products, and by their quotients
where a cross product is no number. -/
def crossOrder (a b : Ratio) : Ordering :=
  let left := a.numerator * b.denominator
  let right := b.numerator * a.denominator
  if Number.isNaN left || Number.isNaN right then Number.order a.quotient b.quotient
  else Number.order left right

/-- The order of ratios. Zero over zero is on a level with every degenerate ratio and below all
others. -/
def order (a b : Ratio) : Ordering :=
  if a.isZeroOverZero then if b.isDegenerate then .eq else .lt
  else if b.isZeroOverZero then if a.isDegenerate then .eq else .gt
  else crossOrder a b

def same (a b : Ratio) : Bool :=
  Number.same a.numerator b.numerator && Number.same a.denominator b.denominator

theorem crossOrder_swap (a b : Ratio) : (crossOrder a b).swap = crossOrder b a := by
  simp only [crossOrder, Bool.or_comm]
  split <;> exact Number.order_swap _ _

theorem isDegenerate_of_isZeroOverZero (r : Ratio) (h : r.isZeroOverZero = true) :
    r.isDegenerate = true := by
  simp only [isZeroOverZero, Bool.and_eq_true] at h
  simp [isDegenerate, h.1]

theorem order_swap (a b : Ratio) : (order a b).swap = order b a := by
  unfold order
  by_cases ha : a.isZeroOverZero = true <;> by_cases hb : b.isZeroOverZero = true
  · simp [ha, hb, isDegenerate_of_isZeroOverZero]
  · simp only [ha, hb, if_true, if_false, Bool.false_eq_true]
    split <;> rfl
  · simp only [ha, hb, if_true, if_false, Bool.false_eq_true]
    split <;> rfl
  · simp only [ha, hb, if_false, Bool.false_eq_true]
    exact crossOrder_swap a b

end Ratio

instance : Endpoint Ratio where
  compare := Ratio.order
  negInfinity := ⟨Number.negInfinity, 1⟩
  infinity := ⟨Number.infinity, 1⟩
  zero := ⟨0, 1⟩

end MediaQuery
