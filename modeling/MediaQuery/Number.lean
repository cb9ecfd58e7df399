set_option autoImplicit false

/- The order and the basic tests on doubles, read off their bits. The magnitude bits of a double
grow with its distance from zero, so a signed magnitude (`rank`) orders all doubles that are
numbers; the two zeros share rank 0. Anything that is not a number is on a level with everything. -/
namespace MediaQuery.Number

def magnitude (x : Float) : Nat := x.toBits.toNat % 0x8000000000000000

/-- Whether the sign bit is set, also on zero and on what is not a number. -/
def signBit (x : Float) : Bool := decide (0x8000000000000000 ≤ x.toBits.toNat)

/-- The magnitude bits of an infinity; all larger ones belong to no number. -/
def infiniteMagnitude : Nat := 0x7FF0000000000000

def isNaN (x : Float) : Bool := decide (infiniteMagnitude < magnitude x)

def isFinite (x : Float) : Bool := decide (magnitude x < infiniteMagnitude)

/-- The place of a double among all doubles that are numbers. -/
def rank (x : Float) : Int := if signBit x then -(magnitude x : Int) else magnitude x

/-- Orders numbers by value; what is not a number compares equal to everything. -/
def order (x y : Float) : Ordering :=
  if isNaN x || isNaN y then .eq else compare (rank x) (rank y)

/-- Numeric equality: the two zeros are equal, what is not a number differs from itself. -/
def same (x y : Float) : Bool := !isNaN x && !isNaN y && rank x == rank y

def below (x y : Float) : Bool := !isNaN x && !isNaN y && decide (rank x < rank y)

def isZero (x : Float) : Bool := magnitude x == 0

def isNegative (x : Float) : Bool := !isNaN x && decide (rank x < 0)

def isNonNegative (x : Float) : Bool := !isNaN x && decide (0 ≤ rank x)

def infinity : Float := Float.ofBits 0x7FF0000000000000

def negInfinity : Float := Float.ofBits 0xFFF0000000000000

def nan : Float := Float.ofBits 0x7FF8000000000000

/-- The smaller number; the other one if either is not a number, the first on a tie. -/
def least (x y : Float) : Float :=
  if isNaN x then y else if below y x then y else x

def greatest (x y : Float) : Float :=
  if isNaN x then y else if below x y then y else x

/-- A finite magnitude as `significand * 2 ^ exponent`. -/
structure Scaled where
  significand : Nat
  exponent : Int
  /-- The next double below is half as far away as the next one above. -/
  narrowBelow : Bool

def scaled (x : Float) : Scaled :=
  let field : Nat := magnitude x / 0x10000000000000
  let fraction : Nat := magnitude x % 0x10000000000000
  if field = 0 then ⟨fraction, -1074, false⟩
  else ⟨0x10000000000000 + fraction, (field : Int) - 1075, fraction == 0 && decide (1 < field)⟩

/-- The magnitude of a finite double, with its fraction cut off. -/
def Scaled.floor (s : Scaled) : Nat :=
  s.significand * Nat.pow 2 s.exponent.toNat / Nat.pow 2 (-s.exponent).toNat

/-- The magnitude of a finite double to the nearest whole number, a half going up. -/
def Scaled.nearest (s : Scaled) : Nat :=
  (2 * s.significand * Nat.pow 2 s.exponent.toNat / Nat.pow 2 (-s.exponent).toNat + 1) / 2

def Scaled.isWhole (s : Scaled) : Bool :=
  s.significand % Nat.pow 2 (-s.exponent).toNat == 0

def isWhole (x : Float) : Bool := isFinite x && (scaled x).isWhole

def withSignOf (x magnitude : Float) : Float := if signBit x then -magnitude else magnitude

/-- The nearest whole double, halves going away from zero; the sign is kept even on zero. -/
def roundHalfAway (x : Float) : Float :=
  if isWhole x || !isFinite x then x
  else withSignOf x (Float.ofScientific (scaled x).nearest false 0)

def wordMax : Int := 0x7FFFFFFFFFFFFFFF

def wordMin : Int := -0x8000000000000000

/-- The whole part of a double, held within the signed words of 64 bits; 0 for no number. -/
def toWord (x : Float) : Int :=
  if isNaN x then 0
  else if !isFinite x then (if signBit x then wordMin else wordMax)
  else
    let whole : Int := (scaled x).floor
    max wordMin (min wordMax (if signBit x then -whole else whole))

theorem rank_zero : rank 0 = 0 := by decide

theorem order_self (x : Float) : order x x = .eq := by
  unfold order; split
  · rfl
  · exact Std.ReflCmp.compare_self

theorem order_swap (x y : Float) : (order x y).swap = order y x := by
  unfold order
  rw [Bool.or_comm]
  split
  · rfl
  · exact (@Std.OrientedCmp.eq_swap Int compare _ (rank y) (rank x)).symm

end MediaQuery.Number
