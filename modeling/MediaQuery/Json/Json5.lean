import MediaQuery.Json.Reader
import MediaQuery.Text.Scripts

set_option autoImplicit false

/- Reading JSON5 text: JSON with comments, commas behind the last item, keys without quotes, single
quotes, and more ways to write numbers. A text may be well formed and yet hold numbers, strings or
keys that stand for nothing; these are garbled. -/
namespace MediaQuery.Json5

/-- Characters that end a line. -/
def isLineEnd (c : Char) : Bool :=
  c == '\n' || c == '\r' || c.toNat == 0x2028 || c.toNat == 0x2029

def isJson5Blank (c : Char) : Bool :=
  let n := c.toNat
  n == 9 || n == 11 || n == 12 || n == 0x20 || n == 0xA0 || n == 0xFEFF || n == 0x1680 ||
    (decide (0x2000 ≤ n) && decide (n ≤ 0x200A)) || n == 0x202F || n == 0x205F || n == 0x3000 ||
    isLineEnd c

/-- The text behind a comment whose opening mark is gone. -/
def closeComment? : List Char → Option (List Char)
  | '*' :: '/' :: rest => some rest
  | _ :: rest => closeComment? rest
  | [] => none

/-- Drops blanks and comments at the front of a text; a comment without an end stays. -/
def skipGaps : Nat → List Char → List Char
  | 0, cs => cs
  | fuel + 1, cs =>
    match cs.dropWhile isJson5Blank with
    | '/' :: '/' :: rest => skipGaps fuel (rest.dropWhile fun c => !isLineEnd c)
    | '/' :: '*' :: rest => match closeComment? rest with
      | some behind => skipGaps fuel behind
      | none => '/' :: '*' :: rest
    | rest => rest

def skip (cs : List Char) : List Char := skipGaps (cs.length + 1) cs

/-- The character that a one letter escape stands for; digits, `x` and `u` are no such escapes. -/
def escaped? (c : Char) : Option Char :=
  if c = 'b' then some (Char.ofNat 8)
  else if c = 'f' then some (Char.ofNat 12)
  else if c = 'n' then some '\n'
  else if c = 'r' then some '\r'
  else if c = 't' then some '\t'
  else if c = 'v' then some (Char.ofNat 11)
  else if Decimal.isDigit c || c = 'x' || c = 'u' || isLineEnd c then none
  else some c

/-- The escape at the front of a text whose backslash is gone. An escaped end of a line stands for
nothing. -/
def unescape? : List Char → Option (Option Json.StringPart × List Char)
  | '\r' :: '\n' :: rest => some (none, rest)
  | '0' :: rest => some (some (.char (Char.ofNat 0)), rest)
  | 'x' :: a :: b :: rest => do
    let a ← Json.hexValue? a
    let b ← Json.hexValue? b
    return (some (.char (Char.ofNat (16 * a + b))), rest)
  | 'u' :: rest => (Json.unescape? ('u' :: rest)).map fun (part, rest) => (some part, rest)
  | c :: rest =>
    if isLineEnd c then some (none, rest)
    else (escaped? c).map fun c => (some (.char c), rest)
  | [] => none

def stringParts? (quote : Char) : Nat → List Char → Option (List Json.StringPart × List Char)
  | 0, _ => none
  | _, [] => none
  | fuel + 1, c :: rest =>
    if c = quote then some ([], rest)
    else if c = '\\' then do
      let (part, rest) ← unescape? rest
      let (parts, rest) ← stringParts? quote fuel rest
      return (part.toList ++ parts, rest)
    else if isLineEnd c then none
    else do
      let (parts, rest) ← stringParts? quote fuel rest
      return (.char c :: parts, rest)

def ofParts? (parts : List Json.StringPart) : Option String :=
  (Json.partsText? parts).map String.ofList

/-- A string behind its opening quote; its text is missing if it is garbled. -/
def string? (quote : Char) (cs : List Char) : Option (Option String × List Char) :=
  (stringParts? quote (cs.length + 1) cs).map fun (parts, rest) => (ofParts? parts, rest)

/-- A string as a value. -/
def ofText (text : Option String) : Json :=
  match text with
  | some text => .string text
  | none => .garbled

/-- A member of an object. One with a garbled key has no name and a garbled value, so that it is
refused wherever it is looked at. -/
def ofMember (key : Option String) (value : Json) : String × Json :=
  match key with
  | some key => (key, value)
  | none => ("", .garbled)

def isKeyStart (c : Char) : Bool := c == '$' || c == '_' || Text.isScriptLetter c

def isKeyPart (c : Char) : Bool :=
  isKeyStart c || Text.isDecimal c || Text.isScriptMark c || Text.isConnector c ||
    c.toNat == 0x200C || c.toNat == 0x200D

/-- The parts of a key without quotes; an escape may stand for any of its characters. -/
def keyParts? (accepts : Char → Bool) : Nat → List Char → Option (List Json.StringPart × List Char)
  | 0, _ => none
  | fuel + 1, '\\' :: 'u' :: rest => do
    let (part, rest) ← Json.unescape? ('u' :: rest)
    let (parts, rest) ← keyParts? isKeyPart fuel rest
    return (part :: parts, rest)
  | fuel + 1, c :: rest =>
    if accepts c then do
      let (parts, rest) ← keyParts? isKeyPart fuel rest
      return (.char c :: parts, rest)
    else some ([], c :: rest)
  | _ + 1, [] => some ([], [])

/-- A key, with or without quotes; it is missing if it is garbled. -/
def key? : List Char → Option (Option String × List Char)
  | '"' :: rest => string? '"' rest
  | '\'' :: rest => string? '\'' rest
  | cs => do
    let (parts, rest) ← keyParts? isKeyStart (cs.length + 1) cs
    if parts.isEmpty then none else some (ofParts? parts, rest)

def hexNumber? (cs : List Char) : Option Nat :=
  cs.foldlM (fun n c => (Json.hexValue? c).map (16 * n + ·)) 0

/-- The number that a numeral stands for. One without a fraction and a power is an integer of any
size; all have to be within the reach of doubles. -/
def ofNumeral (n : Decimal.Numeral) : Json :=
  let magnitude : Int := Decimal.digitsValue n.whole
  if !Number.isFinite n.toFloat then .garbled
  else if !n.isInteger then .fraction n.toFloat
  else if n.sign != ['-'] then .integer magnitude
  else if magnitude == 0 then .minusZero
  else .integer (-magnitude)

/-- Splits a point and the digits behind it off a text; digits in front of it make those behind it
optional. -/
def splitFraction (whole cs : List Char) : Option (List Char) × List Char :=
  match cs with
  | '.' :: rest =>
    let (digits, behind) := Decimal.splitDigits Decimal.isDigit rest
    if whole.isEmpty && digits.isEmpty then (none, cs) else (some digits, behind)
  | cs => (none, cs)

/-- A decimal number behind its sign. No zero stands in front of other digits. -/
def decimal? (sign cs : List Char) : Option (Json × List Char) :=
  let (whole, afterWhole) := match cs with
    | '0' :: rest => (['0'], rest)
    | cs => Decimal.splitDigits Decimal.isDigit cs
  let (fraction, afterFraction) := splitFraction whole afterWhole
  let (power, rest) := Decimal.splitPower Decimal.isDigit afterFraction
  if whole.isEmpty && fraction.isNone then none
  else some (ofNumeral ⟨sign, whole, fraction, power⟩, rest)

/-- A number to base 16 behind its mark. It has no sign and fits a word of 32 bits. -/
def hexadecimal? (sign cs : List Char) : Option (Json × List Char) := do
  let digits := cs.takeWhile fun c => (Json.hexValue? c).isSome
  let value ← hexNumber? digits
  if digits.isEmpty then none
  else if !sign.isEmpty || decide (UInt32.size ≤ value) then
    some (.garbled, cs.drop digits.length)
  else some (.integer value, cs.drop digits.length)

/-- A word for a number without digits. It has no plus. -/
def ofWord (sign : List Char) (value : Float) : Json :=
  if sign = ['+'] then .garbled else if sign = ['-'] then .fraction (-value) else .fraction value

def number? (cs : List Char) : Option (Json × List Char) :=
  let (sign, rest) := Decimal.splitSign cs
  match Text.dropStart? "Infinity".toList rest, Text.dropStart? "NaN".toList rest with
  | some behind, _ => some (ofWord sign Number.infinity, behind)
  | none, some behind => some (ofWord sign Number.nan, behind)
  | none, none => match rest with
    | '0' :: 'x' :: digits => hexadecimal? sign digits
    | '0' :: 'X' :: digits => hexadecimal? sign digits
    | rest => decimal? sign rest

mutual

def value? : Nat → List Char → Option (Json × List Char)
  | 0, _ => none
  | fuel + 1, cs =>
    match skip cs with
    | '"' :: rest => (string? '"' rest).map fun (text, rest) => (ofText text, rest)
    | '\'' :: rest => (string? '\'' rest).map fun (text, rest) => (ofText text, rest)
    | '[' :: rest => do
      let (items, rest) ← items? fuel true rest
      return (.array items, rest)
    | '\x7b' :: rest => do
      let (members, rest) ← members? fuel true rest
      return (.object members, rest)
    | 'n' :: rest => (Text.dropStart? ['u', 'l', 'l'] rest).map fun rest => (.null, rest)
    | 't' :: rest => (Text.dropStart? ['r', 'u', 'e'] rest).map fun rest => (.bool true, rest)
    | 'f' :: rest =>
      (Text.dropStart? ['a', 'l', 's', 'e'] rest).map fun rest => (.bool false, rest)
    | cs => number? cs

/-- The items of an array up to its closing bracket, which may stand behind a comma. -/
def items? : Nat → Bool → List Char → Option (List Json × List Char)
  | 0, _, _ => none
  | fuel + 1, mayEnd, cs =>
    match skip cs, mayEnd with
    | ']' :: rest, true => some ([], rest)
    | cs, _ => do
      let (item, rest) ← value? fuel cs
      match skip rest with
      | ']' :: rest => return ([item], rest)
      | ',' :: rest =>
        let (items, rest) ← items? fuel true rest
        return (item :: items, rest)
      | _ => none

/-- The members of an object up to its closing brace, which may stand behind a comma. -/
def members? : Nat → Bool → List Char → Option (List (String × Json) × List Char)
  | 0, _, _ => none
  | fuel + 1, mayEnd, cs =>
    match skip cs, mayEnd with
    | '\x7d' :: rest, true => some ([], rest)
    | cs, _ => do
      let (key, rest) ← key? cs
      match skip rest with
      | ':' :: rest =>
        let (value, rest) ← value? fuel rest
        match skip rest with
        | '\x7d' :: rest => return ([ofMember key value], rest)
        | ',' :: rest =>
          let (members, rest) ← members? fuel true rest
          return (ofMember key value :: members, rest)
        | _ => none
      | _ => none

end

def read? (source : String) : Option Json := do
  let cs := source.toList
  let (value, rest) ← value? (2 * cs.length + 2) cs
  if (skip rest).isEmpty then some value else none

end MediaQuery.Json5
