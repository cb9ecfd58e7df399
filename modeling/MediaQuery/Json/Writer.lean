import MediaQuery.Decimal.Layout
import MediaQuery.Json.Value

set_option autoImplicit false

namespace MediaQuery.Json

def hexDigit (n : Nat) : Char := if n < 10 then Char.ofNat (48 + n) else Char.ofNat (87 + n)

/-- A character inside a string: quote, backslash and control characters are escaped. -/
def escape (c : Char) : List Char :=
  if c = '"' then ['\\', '"']
  else if c = '\\' then ['\\', '\\']
  else if c.toNat = 8 then ['\\', 'b']
  else if c.toNat = 9 then ['\\', 't']
  else if c.toNat = 10 then ['\\', 'n']
  else if c.toNat = 12 then ['\\', 'f']
  else if c.toNat = 13 then ['\\', 'r']
  else if c.toNat < 32 then
    ['\\', 'u', '0', '0', hexDigit (c.toNat / 16), hexDigit (c.toNat % 16)]
  else [c]

def quote (cs : List Char) : List Char := '"' :: (cs.flatMap escape ++ ['"'])

/-- A value that is neither an array nor an object. What stands for no number is null. -/
def scalarChars : Json → List Char
  | .bool true => ['t', 'r', 'u', 'e']
  | .bool false => ['f', 'a', 'l', 's', 'e']
  | .integer value => Decimal.integerDigits value
  | .minusZero => ['-', '0']
  | .fraction value =>
    if Number.isFinite value then Decimal.Layout.data.finite value else ['n', 'u', 'l', 'l']
  | .string text => quote text.toList
  | _ => ['n', 'u', 'l', 'l']

/-- The start of a line at some level. -/
def newline (level : Nat) : List Char := '\n' :: List.replicate (2 * level) ' '

mutual

/-- A value whose first line stands at some level. -/
def prettyAt (level : Nat) : Json → List Char
  | .array [] => ['[', ']']
  | .array (item :: items) =>
    '[' :: (newline (level + 1) ++ (prettyAt (level + 1) item ++
      (prettyItems (level + 1) items ++ (newline level ++ [']']))))
  | .object [] => ['\x7b', '\x7d']
  | .object ((key, value) :: members) =>
    '\x7b' :: (newline (level + 1) ++ (quote key.toList ++ (':' :: ' ' ::
      (prettyAt (level + 1) value ++
        (prettyMembers (level + 1) members ++ (newline level ++ ['\x7d']))))))
  | .null => ['n', 'u', 'l', 'l']
  | .bool value => scalarChars (.bool value)
  | .integer value => scalarChars (.integer value)
  | .minusZero => scalarChars .minusZero
  | .fraction value => scalarChars (.fraction value)
  | .string text => scalarChars (.string text)
  | .garbled => scalarChars .garbled

/-- The further items of an array, each behind a comma and on a line of its own. -/
def prettyItems (level : Nat) : List Json → List Char
  | [] => []
  | item :: items => ',' :: (newline level ++ (prettyAt level item ++ prettyItems level items))

def prettyMembers (level : Nat) : List (String × Json) → List Char
  | [] => []
  | (key, value) :: members =>
    ',' :: (newline level ++ (quote key.toList ++ (':' :: ' ' ::
      (prettyAt level value ++ prettyMembers level members))))

end

def pretty (value : Json) : String := String.ofList (prettyAt 0 value)

mutual

/-- A value without any blanks, written in front of some text. -/
def compactChars (value : Json) (rest : List Char) : List Char :=
  match value with
  | .array [] => '[' :: ']' :: rest
  | .array (item :: items) => '[' :: compactChars item (compactItems items (']' :: rest))
  | .object [] => '\x7b' :: '\x7d' :: rest
  | .object ((key, value) :: members) =>
    '\x7b' :: (quote key.toList ++
      (':' :: compactChars value (compactMembers members ('\x7d' :: rest))))
  | .null => scalarChars .null ++ rest
  | .bool value => scalarChars (.bool value) ++ rest
  | .integer value => scalarChars (.integer value) ++ rest
  | .minusZero => scalarChars .minusZero ++ rest
  | .fraction value => scalarChars (.fraction value) ++ rest
  | .string text => scalarChars (.string text) ++ rest
  | .garbled => scalarChars .garbled ++ rest

def compactItems (items : List Json) (rest : List Char) : List Char :=
  match items with
  | [] => rest
  | item :: items => ',' :: compactChars item (compactItems items rest)

def compactMembers (members : List (String × Json)) (rest : List Char) : List Char :=
  match members with
  | [] => rest
  | (key, value) :: members =>
    ',' :: (quote key.toList ++ (':' :: compactChars value (compactMembers members rest)))

end

def compact (value : Json) : String := String.ofList (compactChars value [])

end MediaQuery.Json
