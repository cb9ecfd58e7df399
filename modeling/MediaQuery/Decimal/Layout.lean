import MediaQuery.Decimal.Shortest

set_option autoImplicit false

namespace MediaQuery.Decimal

/-- The choices that a way of writing numbers makes. -/
structure Layout where
  /-- The powers of ten of the leading digit between which no power is written. -/
  plainFrom : Option Int
  plainTo : Option Int
  /-- Whole numbers end in a point and a zero. -/
  pointZero : Bool
  tie : Tie
deriving Repr

/-- Numbers inside queries and messages: all digits are written out, and no point follows a whole
number. -/
def Layout.prose : Layout where
  plainFrom := none
  plainTo := none
  pointZero := false
  tie := .up

/-- Numbers in data files: the leading digit has a power from -5 to 15, or the power is written;
a whole number keeps a fraction, so that it reads back as a fractional number. -/
def Layout.data : Layout where
  plainFrom := some (-5)
  plainTo := some 15
  pointZero := true
  tie := .even

def naturalDigits (n : Nat) : List Char := Nat.toDigits 10 n

/-- The characters of an integer in base ten, with a sign in front only below zero. -/
def integerDigits (i : Int) : List Char :=
  if i < 0 then '-' :: naturalDigits i.natAbs else naturalDigits i.natAbs

def plain (pointZero : Bool) (d : Decimal) : List Char :=
  let digits := naturalDigits d.digits
  if 0 ≤ d.exponent then
    digits ++ List.replicate d.exponent.toNat '0' ++ (if pointZero then ['.', '0'] else [])
  else
    let places := (-d.exponent).toNat
    if places < digits.length then
      digits.take (digits.length - places) ++ '.' :: digits.drop (digits.length - places)
    else
      '0' :: '.' :: List.replicate (places - digits.length) '0' ++ digits

/-- Writes a decimal as one digit, the others as a fraction, and a signed power of ten. -/
def powered (d : Decimal) : List Char :=
  let digits := naturalDigits d.digits
  let power := d.exponent + (digits.length : Int) - 1
  let fraction := if digits.length ≤ 1 then [] else '.' :: digits.drop 1
  digits.take 1 ++ fraction ++ 'e' :: (if power < 0 then [] else ['+']) ++ integerDigits power

/-- Whether the leading digit has a power of ten that the layout leaves unwritten. -/
def Layout.isPlain (layout : Layout) (d : Decimal) : Bool :=
  let power := d.exponent + ((naturalDigits d.digits).length : Int) - 1
  layout.plainFrom.all (fun low => decide (low ≤ power)) &&
    layout.plainTo.all (fun high => decide (power ≤ high))

def Layout.write (layout : Layout) (d : Decimal) : List Char :=
  if layout.isPlain d then plain layout.pointZero d else powered d

/-- Writes a finite double by its shortest decimal; zero is written as a whole number. -/
def Layout.finite (layout : Layout) (x : Float) : List Char :=
  let digits :=
    if Number.isZero x then plain layout.pointZero ⟨0, 0⟩
    else layout.write (shortest layout.tie (Number.scaled x))
  if Number.signBit x then '-' :: digits else digits

def proseText (x : Float) : String :=
  if Number.isNaN x then "NaN"
  else if Number.isFinite x then String.ofList (Layout.prose.finite x)
  else if Number.signBit x then "-inf" else "inf"

end MediaQuery.Decimal
