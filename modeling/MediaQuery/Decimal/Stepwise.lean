import MediaQuery.Decimal.Numeral

set_option autoImplicit false

/- A quick way to read numerals, a step at a time. The digits that a word of 64 bits can hold are
rounded to a double, and the double is multiplied or divided by a power of ten; each step rounds on
its own. The result may lie next to the nearest double, and what overflows on the way is out of
reach even where the nearest double is finite. -/
namespace MediaQuery.Decimal

/-- Appends digits to a number as long as it fits a word of 64 bits. Gives the number and the
digits that are left. -/
def appendDigits : Nat → List Char → Nat × List Char
  | n, [] => (n, [])
  | n, c :: cs =>
    if 10 * n + (c.toNat - 48) < UInt64.size then appendDigits (10 * n + (c.toNat - 48)) cs
    else (n, c :: cs)

/-- The largest power of ten that is a double. -/
def topPower : Nat := 308

def powerOfTen (power : Nat) : Float := toFloat ⟨1, power⟩

/-- A double divided by a power of ten, in steps no larger than the largest power that is a
double. Two such steps leave nothing of a number that fits a word. -/
def dividedBy (x : Float) (power : Nat) : Float :=
  if power ≤ topPower then x / powerOfTen power
  else if power ≤ 2 * topPower then x / powerOfTen topPower / powerOfTen (power - topPower)
  else 0

def multipliedBy? (x : Float) (power : Nat) : Option Float :=
  if Number.isZero x then some x
  else if power ≤ topPower then
    if Number.isFinite (x * powerOfTen power) then some (x * powerOfTen power) else none
  else none

def stepwise? (d : Decimal) : Option Float :=
  if d.exponent < 0 then some (dividedBy (toFloat ⟨d.digits, 0⟩) d.exponent.natAbs)
  else multipliedBy? (toFloat ⟨d.digits, 0⟩) d.exponent.natAbs

namespace Numeral

/-- The part of a numeral that fits a word. Digits left over from the whole part count as zeros;
those left over from the fraction are dropped. -/
def wordPart (n : Numeral) : Decimal :=
  let (whole, leftOver) := appendDigits 0 n.whole
  let fraction := n.fraction.getD []
  let (digits, dropped) := appendDigits whole fraction
  ⟨digits, (n.power.map Power.value).getD 0 + leftOver.length + dropped.length - fraction.length⟩

/-- The double of a numeral read step by step; a minus is kept also on zero. -/
def stepwise? (n : Numeral) : Option Float :=
  n.wordPart.stepwise?.map fun x => if n.sign = ['-'] then -x else x

end Numeral

end MediaQuery.Decimal
