import MediaQuery.Decimal.Stepwise
import MediaQuery.Json.Value
import MediaQuery.Text.Slice

set_option autoImplicit false

namespace MediaQuery.Json

def isJsonBlank (c : Char) : Bool := c == ' ' || c == '\t' || c == '\n' || c == '\r'

def skip (cs : List Char) : List Char := cs.dropWhile isJsonBlank

def hexValue? (c : Char) : Option Nat :=
  let n := c.toNat
  if 48 ≤ n ∧ n ≤ 57 then some (n - 48)
  else if 97 ≤ n ∧ n ≤ 102 then some (n - 87)
  else if 65 ≤ n ∧ n ≤ 70 then some (n - 55)
  else none

/-- The value of four digits to base 16 at the front of a text. -/
def hexUnit? : List Char → Option (Nat × List Char)
  | a :: b :: c :: d :: rest => do
    let a ← hexValue? a
    let b ← hexValue? b
    let c ← hexValue? c
    let d ← hexValue? d
    return (4096 * a + 256 * b + 16 * c + d, rest)
  | _ => none

/-- Units that begin a pair. -/
def isLeading (unit : Nat) : Bool := decide (0xD800 ≤ unit) && decide (unit < 0xDC00)

/-- Units that end a pair. -/
def isTrailing (unit : Nat) : Bool := decide (0xDC00 ≤ unit) && decide (unit < 0xE000)

def pairChar (leading trailing : Nat) : Char :=
  Char.ofNat (0x10000 + (leading - 0xD800) * 1024 + (trailing - 0xDC00))

def escaped? : Char → Option Char
  | '"' => some '"'
  | '\\' => some '\\'
  | '/' => some '/'
  | 'b' => some (Char.ofNat 8)
  | 'f' => some (Char.ofNat 12)
  | 'n' => some '\n'
  | 'r' => some '\r'
  | 't' => some '\t'
  | _ => none

/-- One character of a string, or the second part of a pair that has no first. -/
inductive StringPart where
  | char (c : Char)
  | unpaired

def unescape? : List Char → Option (StringPart × List Char)
  | 'u' :: rest => do
    let (unit, rest) ← hexUnit? rest
    if isLeading unit then
      match rest with
      | '\\' :: 'u' :: behind => match hexUnit? behind with
        | some (next, behind) =>
          if isTrailing next then return (.char (pairChar unit next), behind)
          else return (.unpaired, rest)
        | none => none
      | _ => return (.unpaired, rest)
    else if isTrailing unit then return (.unpaired, rest)
    else return (.char (Char.ofNat unit), rest)
  | c :: rest => (escaped? c).map fun c => (.char c, rest)
  | [] => none

def stringParts : Nat → List Char → Option (List StringPart × List Char)
  | _, [] => none
  | 0, _ => none
  | fuel + 1, c :: rest =>
    if c = '"' then some ([], rest)
    else if c = '\\' then do
      let (part, rest) ← unescape? rest
      let (parts, rest) ← stringParts fuel rest
      return (part :: parts, rest)
    else if c.toNat < 32 then none
    else do
      let (parts, rest) ← stringParts fuel rest
      return (.char c :: parts, rest)

def partsText? : List StringPart → Option (List Char)
  | [] => some []
  | .char c :: parts => (partsText? parts).map (c :: ·)
  | .unpaired :: _ => none

def stringBody? (cs : List Char) : Option (Option String × List Char) := do
  let (parts, rest) ← stringParts cs.length cs
  return ((partsText? parts).map String.ofList, rest)

/-- The number that a numeral stands for. Zero with a minus and integers beyond the words of 64
bits are doubles, and doubles are read step by step. -/
def ofNumeral (n : Decimal.Numeral) : Json :=
  let magnitude : Int := Decimal.digitsValue n.whole
  let value := if n.sign.isEmpty then magnitude else -magnitude
  if n.isInteger && isWord value && !(value == 0 && !n.sign.isEmpty) then .integer value
  else match n.stepwise? with
    | some x => .fraction x
    | none => .garbled

/-- A number at the front of a text. It begins with a digit or a minus, has no zero in front of
other digits, and digits on both sides of its point. -/
def number? (cs : List Char) : Option (Json × List Char) := do
  let (n, rest) ← Decimal.splitNumeral? Decimal.isDigit cs
  let closed := match rest with
    | c :: _ => c != '.' && c != 'e' && c != 'E'
    | [] => true
  let leads := match n.whole with
    | [] => false
    | '0' :: _ :: _ => false
    | _ => true
  if closed && leads && n.sign != ['+'] then some (ofNumeral n, rest) else none

/-- An object, unless one of its keys is garbled. -/
def ofMembers (members : List (Option String × Json)) : Json :=
  match members.mapM fun m => m.1.map fun key => (key, m.2) with
  | some members => .object members
  | none => .garbled

mutual

def value? : Nat → List Char → Option (Json × List Char)
  | 0, _ => none
  | fuel + 1, cs =>
    match skip cs with
    | '"' :: rest => do
      let (text, rest) ← stringBody? rest
      return ((text.map Json.string).getD .garbled, rest)
    | '[' :: rest => do
      let (items, rest) ← items? fuel true rest
      return (.array items, rest)
    | '\x7b' :: rest => do
      let (members, rest) ← members? fuel true rest
      return (ofMembers members, rest)
    | 'n' :: rest => (Text.dropStart? ['u', 'l', 'l'] rest).map fun rest => (.null, rest)
    | 't' :: rest => (Text.dropStart? ['r', 'u', 'e'] rest).map fun rest => (.bool true, rest)
    | 'f' :: rest => (Text.dropStart? ['a', 'l', 's', 'e'] rest).map fun rest => (.bool false, rest)
    | cs => number? cs

/-- The items of an array up to its closing bracket; only the `first` may be missing. -/
def items? : Nat → Bool → List Char → Option (List Json × List Char)
  | 0, _, _ => none
  | fuel + 1, first, cs =>
    match skip cs, first with
    | ']' :: rest, true => some ([], rest)
    | cs, _ => do
      let (item, rest) ← value? fuel cs
      match skip rest with
      | ']' :: rest => return ([item], rest)
      | ',' :: rest =>
        let (items, rest) ← items? fuel false rest
        return (item :: items, rest)
      | _ => none

def members? : Nat → Bool → List Char → Option (List (Option String × Json) × List Char)
  | 0, _, _ => none
  | fuel + 1, first, cs =>
    match skip cs, first with
    | '\x7d' :: rest, true => some ([], rest)
    | '"' :: rest, _ => do
      let (key, rest) ← stringBody? rest
      match skip rest with
      | ':' :: rest =>
        let (value, rest) ← value? fuel rest
        match skip rest with
        | '\x7d' :: rest => return ([(key, value)], rest)
        | ',' :: rest =>
          let (members, rest) ← members? fuel false rest
          return ((key, value) :: members, rest)
        | _ => none
      | _ => none
    | _, _ => none

end

def read? (source : String) : Option Json := do
  let cs := source.toList
  let (value, rest) ← value? (2 * cs.length + 2) cs
  if (skip rest).isEmpty then some value else none

end MediaQuery.Json
