import MediaQuery.Number

set_option autoImplicit false

namespace MediaQuery

/-- A JSON value. -/
inductive Json where
  | null
  | bool (value : Bool)
  /-- A number that is written as an integer. -/
  | integer (value : Int)
  /-- Zero that is written as an integer with a minus: as a double it keeps the sign. -/
  | minusZero
  /-- Any other number. -/
  | fraction (value : Float)
  | string (text : String)
  /-- A string or number that is well formed and yet stands for no text and no double. It may be
  skipped, but not used. -/
  | garbled
  | array (items : List Json)
  | object (members : List (String × Json))
deriving Inhabited

namespace Json

/-- Whether a number fits a signed word of 64 bits. -/
def isWord (value : Int) : Bool :=
  decide (Number.wordMin ≤ value) && decide (value ≤ Number.wordMax)

mutual

/-- A value as it is held where nothing tells what it is for: integers have to fit a word, and
nothing may be garbled. -/
def held? : Json → Option Json
  | .null => some .null
  | .bool value => some (.bool value)
  | .integer value => if isWord value then some (.integer value) else none
  | .minusZero => some (.integer 0)
  | .fraction value => some (.fraction value)
  | .string text => some (.string text)
  | .garbled => none
  | .array items => (heldItems? items).map .array
  | .object members => (heldMembers? members).map .object

def heldItems? : List Json → Option (List Json)
  | [] => some []
  | item :: items => do
    let item ← held? item
    let items ← heldItems? items
    return item :: items

def heldMembers? : List (String × Json) → Option (List (String × Json))
  | [] => some []
  | (key, value) :: members => do
    let value ← held? value
    let members ← heldMembers? members
    return (key, value) :: members

end

/-- The values that an object gives for a key, in order. -/
def valuesAt (key : String) (members : List (String × Json)) : List Json :=
  (members.filter fun m => m.1 == key).map Prod.snd

def last? (key : String) (members : List (String × Json)) : Option Json :=
  (valuesAt key members).getLast?

/-- The member of an object under a key, the last one if there are several. -/
def get? (key : String) : Json → Option Json
  | .object members => last? key members
  | _ => none

end Json

end MediaQuery
