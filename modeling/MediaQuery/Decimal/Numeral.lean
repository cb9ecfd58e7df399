import MediaQuery.Decimal.Shortest

set_option autoImplicit false

namespace MediaQuery.Decimal

def isDigit (c : Char) : Bool := decide (48 ≤ c.toNat) && decide (c.toNat ≤ 57)

def digitsValue (cs : List Char) : Nat := cs.foldl (fun n c => 10 * n + (c.toNat - 48)) 0

/-- The double nearest to a decimal. The two outer cases are out of the reach of doubles: the
first is above them all, the second nearer to zero than to the least of them. -/
def toFloat (d : Decimal) : Float :=
  if d.digits = 0 then 0
  else if 400 < d.exponent then Number.infinity
  else if d.exponent + (d.digits.log2 : Int) < -400 then 0
  else Float.ofScientific d.digits (decide (d.exponent < 0)) d.exponent.natAbs

/-- The power of ten at the end of a numeral: the letter that marks it, its sign and its digits. -/
structure Power where
  mark : Char
  sign : List Char
  digits : List Char

namespace Power

def chars (p : Power) : List Char := p.mark :: (p.sign ++ p.digits)

def value (p : Power) : Int :=
  if p.sign = ['-'] then -(digitsValue p.digits : Int) else digitsValue p.digits

end Power

structure Numeral where
  sign : List Char
  whole : List Char
  fraction : Option (List Char)
  power : Option Power

namespace Numeral

def fractionChars (fraction : Option (List Char)) : List Char :=
  match fraction with
  | some digits => '.' :: digits
  | none => []

def chars (n : Numeral) : List Char :=
  n.sign ++ (n.whole ++ (fractionChars n.fraction ++ (n.power.map Power.chars).getD []))

def isInteger (n : Numeral) : Bool := n.fraction.isNone && n.power.isNone

def isAscii (n : Numeral) : Bool :=
  n.whole.all isDigit && (n.fraction.getD []).all isDigit &&
    ((n.power.map Power.digits).getD []).all isDigit

def magnitude (n : Numeral) : Decimal :=
  ⟨digitsValue (n.whole ++ n.fraction.getD []),
    (n.power.map Power.value).getD 0 - (n.fraction.getD []).length⟩

/-- The double nearest to a numeral; a minus is kept also on zero. -/
def toFloat (n : Numeral) : Float :=
  if n.sign = ['-'] then -n.magnitude.toFloat else n.magnitude.toFloat

end Numeral

def splitSign : List Char → List Char × List Char
  | '-' :: cs => (['-'], cs)
  | '+' :: cs => (['+'], cs)
  | cs => ([], cs)

def splitDigits (isDigit : Char → Bool) (cs : List Char) : List Char × List Char :=
  (cs.takeWhile isDigit, cs.dropWhile isDigit)

/-- Splits a point and the digits behind it off a text; a point without digits stays. -/
def splitFraction (isDigit : Char → Bool) : List Char → Option (List Char) × List Char
  | '.' :: cs =>
    let (digits, rest) := splitDigits isDigit cs
    if digits.isEmpty then (none, '.' :: cs) else (some digits, rest)
  | cs => (none, cs)

/-- Splits a power of ten off a text; a mark without digits stays. -/
def splitPower (isDigit : Char → Bool) : List Char → Option Power × List Char
  | [] => (none, [])
  | c :: cs =>
    if c = 'e' ∨ c = 'E' then
      let (sign, signed) := splitSign cs
      let (digits, rest) := splitDigits isDigit signed
      if digits.isEmpty then (none, c :: cs) else (some ⟨c, sign, digits⟩, rest)
    else (none, c :: cs)

/-- Splits the longest numeral off a text: an optional sign, digits with an optional fraction or a
fraction alone, and an optional power of ten. -/
def splitNumeral? (isDigit : Char → Bool) (cs : List Char) : Option (Numeral × List Char) :=
  let (sign, signed) := splitSign cs
  let (whole, afterWhole) := splitDigits isDigit signed
  let (fraction, afterFraction) := splitFraction isDigit afterWhole
  let (power, rest) := splitPower isDigit afterFraction
  if whole.isEmpty && fraction.isNone then none
  else some (⟨sign, whole, fraction, power⟩, rest)

theorem splitSign_append (cs : List Char) : (splitSign cs).1 ++ (splitSign cs).2 = cs := by
  unfold splitSign; split <;> rfl

theorem splitDigits_append (isDigit : Char → Bool) (cs : List Char) :
    (splitDigits isDigit cs).1 ++ (splitDigits isDigit cs).2 = cs :=
  List.takeWhile_append_dropWhile

theorem splitFraction_append (isDigit : Char → Bool) (cs : List Char) :
    Numeral.fractionChars (splitFraction isDigit cs).1 ++ (splitFraction isDigit cs).2 = cs := by
  unfold splitFraction
  split
  · dsimp only
    split
    · rfl
    · simp [Numeral.fractionChars, splitDigits, List.takeWhile_append_dropWhile]
  · rfl

theorem splitPower_append (isDigit : Char → Bool) (cs : List Char) :
    ((splitPower isDigit cs).1.map Power.chars).getD [] ++ (splitPower isDigit cs).2 = cs := by
  cases cs with
  | nil => rfl
  | cons c cs =>
    simp only [splitPower]
    split
    · split
      · rfl
      · simp only [Option.map_some, Option.getD_some, Power.chars, List.cons_append,
          List.append_assoc, splitDigits_append, splitSign_append]
    · rfl

/-- A numeral and the text behind it make up the text that was split. -/
theorem splitNumeral?_append (isDigit : Char → Bool) (cs rest : List Char) (n : Numeral)
    (h : splitNumeral? isDigit cs = some (n, rest)) : n.chars ++ rest = cs := by
  simp only [splitNumeral?] at h
  split at h
  · simp at h
  · simp only [Option.some.injEq, Prod.mk.injEq] at h
    obtain ⟨rfl, rfl⟩ := h
    simp only [Numeral.chars, List.append_assoc, splitPower_append, splitFraction_append,
      splitDigits_append, splitSign_append]

end MediaQuery.Decimal
