import MediaQuery.Number

set_option autoImplicit false

/- The shortest decimal that stands for a double. A decimal stands for a double when it lies among
the reals that round to it. Decimals with a given last place form a grid, and the coarsest grid that
meets those reals gives the fewest digits; of two such decimals the nearer one is taken. -/
namespace MediaQuery

/-- A decimal numeral without sign: `digits * 10 ^ exponent`. -/
structure Decimal where
  digits : Nat
  exponent : Int
deriving DecidableEq, Repr

namespace Decimal

/-- Which of two equally near decimals is taken. -/
inductive Tie where
  | up
  | even
deriving DecidableEq, Repr

/-- Compares `a * 10 ^ i` with `n * 2 ^ j` exactly. -/
def compareScaled (a : Nat) (i : Int) (n : Nat) (j : Int) : Ordering :=
  compare (a * Nat.pow 10 i.toNat * Nat.pow 2 (-j).toNat)
    (n * Nat.pow 2 j.toNat * Nat.pow 10 (-i).toNat)

/-- Whether a decimal lies among the reals that round to a finite double. They reach half way to
the neighbours on both sides, and take in the two ends iff the significand is even. -/
def standsFor (d : Decimal) (x : Number.Scaled) : Bool :=
  let low := if x.narrowBelow then 4 * x.significand - 1 else 4 * x.significand - 2
  let high := 4 * x.significand + 2
  let closed := x.significand % 2 == 0
  let fromLow := compareScaled d.digits d.exponent low (x.exponent - 2)
  let fromHigh := compareScaled d.digits d.exponent high (x.exponent - 2)
  (fromLow == .gt || (closed && fromLow == .eq)) && (fromHigh == .lt || (closed && fromHigh == .eq))

/-- The largest multiple of `10 ^ k` that is not above the double, in units of `10 ^ k`. -/
def gridFloor (x : Number.Scaled) (k : Int) : Nat :=
  x.significand * Nat.pow 2 x.exponent.toNat * Nat.pow 10 (-k).toNat /
    (Nat.pow 10 k.toNat * Nat.pow 2 (-x.exponent).toNat)

def nearerPoint (tie : Tie) (x : Number.Scaled) (k : Int) : Nat :=
  let d := gridFloor x k
  match compareScaled (2 * d + 1) k (2 * x.significand) x.exponent with
  | .lt => d + 1
  | .gt => d
  | .eq => match tie with
    | .up => d + 1
    | .even => if d % 2 = 0 then d else d + 1

/-- The point of a grid that stands for the double, if there is one. -/
def onGrid (tie : Tie) (x : Number.Scaled) (k : Int) : Option Decimal :=
  let d := gridFloor x k
  match standsFor ⟨d, k⟩ x, standsFor ⟨d + 1, k⟩ x with
  | true, true => some ⟨nearerPoint tie x k, k⟩
  | true, false => some ⟨d, k⟩
  | false, true => some ⟨d + 1, k⟩
  | false, false => none

/-- A power of ten above the double: the least one or the one after it. -/
def scaleAbove (x : Number.Scaled) : Int :=
  ((x.significand.log2 : Int) + x.exponent + 1) * 30103 / 100000 + 1

/-- The exact decimal of a double; finite doubles are all decimals. -/
def exact (x : Number.Scaled) : Decimal :=
  ⟨x.significand * Nat.pow 2 x.exponent.toNat * Nat.pow 5 (-x.exponent).toNat,
    -((-x.exponent).toNat : Int)⟩

/-- The decimal with the fewest digits that stands for a finite double other than zero. The
grids are tried from coarse to fine; the exact decimal is left for the case that none is met. -/
def shortest (tie : Tie) (x : Number.Scaled) : Decimal :=
  ((List.range 22).findSome? fun (i : Nat) => onGrid tie x (scaleAbove x - i)).getD (exact x)

end Decimal

end MediaQuery
