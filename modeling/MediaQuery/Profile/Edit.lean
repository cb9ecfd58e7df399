import MediaQuery.Profile.Form
import MediaQuery.Text.Characters

set_option autoImplicit false

namespace MediaQuery

/-- Why a profile was not read, written or changed. -/
inductive ProfileError where
  | unknownKey (key : String)
  | notKleene (value : String)
  | invalidValue (key value : String)
  | device (error : DeviceError)
  | unreadable (file : String)
  | unwritable (file : String)
  | malformed (file : String)
  | invalidDevice (file : String) (error : DeviceError)
  | missing (file : String)
  | unverifiable (file : String)

namespace ProfileError

def message : ProfileError → String
  | .unknownKey key => "Unknown key: " ++ key
  | .notKleene value => "Invalid value: " ++ value ++ " (use true, false or unknown)"
  | .invalidValue key value => "Invalid value for " ++ key ++ ": " ++ value
  | .device error => error.message
  | .unreadable file => "Failed to read profile file: " ++ file
  | .unwritable file => "Failed to write profile file: " ++ file
  | .malformed file => "Failed to parse profile file: " ++ file
  | .invalidDevice file _ => "Invalid environment in profile: " ++ file
  | .missing file => "profile file not found: " ++ file
  | .unverifiable file => "failed to read profile file: " ++ file

def cause? : ProfileError → Option DeviceError
  | .device error | .invalidDevice _ error => some error
  | _ => none

end ProfileError

/-- A truth value from one of the words for it, in any case. -/
def Kleene.ofWord? (word : String) : Option Kleene :=
  match String.ofList (word.toList.map Text.lowerToAscii) with
  | "true" | "yes" | "1" | "on" => some .yes
  | "false" | "no" | "0" | "off" => some .no
  | "unknown" | "?" => some .unknown
  | _ => none

namespace Json

def natural? (cs : List Char) : Option Nat :=
  let digits := match cs with
    | '+' :: rest => rest
    | cs => cs
  let value := Decimal.digitsValue digits
  if !digits.isEmpty && digits.all Decimal.isDigit && decide (value < UInt64.size) then some value
  else none

/-- A decimal number: digits with an optional point among, in front of or behind them, and an
optional power of ten. -/
def decimal? (cs : List Char) : Option Float :=
  let (sign, unsigned) := Decimal.splitSign cs
  let (whole, afterWhole) := Decimal.splitDigits Decimal.isDigit unsigned
  let (places, afterPlaces) := match afterWhole with
    | '.' :: rest => Decimal.splitDigits Decimal.isDigit rest
    | rest => ([], rest)
  let (power, rest) := Decimal.splitPower Decimal.isDigit afterPlaces
  if (whole.isEmpty && places.isEmpty) || !rest.isEmpty then none
  else some (Decimal.Numeral.toFloat ⟨sign, whole, some places, power⟩)

/-- Whether a text is a word for infinity or for what is not a number, with or without a sign. -/
def isNotFinite (cs : List Char) : Bool :=
  let word := String.ofList (Text.lowerAll (Decimal.splitSign cs).2)
  word == "inf" || word == "infinity" || word == "nan"

/-- The value that a text on its own stands for: a number, a truth value, or else itself. A number
that is not finite is null. -/
def ofScalar (text : String) : Json :=
  let cs := text.toList
  match natural? cs, decimal? cs with
  | some n, _ => .integer n
  | none, some x => JsonForm.toJson x
  | none, none =>
    if isNotFinite cs then .null
    else match text with
    | "true" => .bool true
    | "false" => .bool false
    | _ => .string text

/-- The members of an object with another value under a key that it has. -/
def replace? (key : String) (value : Json) (members : List (String × Json)) :
    Option (List (String × Json)) :=
  if members.any (fun m => m.1 == key) then
    some (members.map fun m => if m.1 = key then (key, value) else m)
  else none

end Json

namespace Profile

/-- The parts of a profile that are set through their JSON form. -/
inductive Section where
  | units
  | environment
deriving DecidableEq, Repr

def Section.text : Section → String
  | .units => "units"
  | .environment => "environment"

def sectionMembers (p : Profile) : Section → List (String × Json)
  | .units => JsonField.writeAll Metrics.fields p.units
  | .environment => JsonField.writeAll Device.fields p.environment

/-- The JSON form of a profile with other members in one of its parts. -/
def withSection (p : Profile) (part : Section) (members : List (String × Json)) : Json :=
  .object ((JsonField.writeAll Profile.fields p).map fun m =>
    if m.1 = part.text then (m.1, .object members) else m)

/-- Sets a field of a part to the value that a text stands for. -/
def setField (p : Profile) (part : Section) (field key value : String) :
    Except ProfileError Profile :=
  match Json.replace? field (Json.ofScalar value) (p.sectionMembers part) with
  | none => .error (.unknownKey key)
  | some members => match JsonForm.ofJson? .tight (p.withSection part members) with
    | none => .error (.invalidValue key value)
    | some (q : Profile) => match q.environment.validate with
      | .ok () => .ok q
      | .error e => .error (.device e)

def readKleene (value : String) : Except ProfileError Kleene :=
  match Kleene.ofWord? value with
  | some k => .ok k
  | none => .error (.notKleene value)

def splitKey? (key : String) : Option (Section × String) :=
  match Text.dropStart? "units.".toList key.toList,
      Text.dropStart? "environment.".toList key.toList with
  | some field, _ => some (.units, String.ofList field)
  | none, some field => some (.environment, String.ofList field)
  | none, none => none

def set (p : Profile) (key value : String) : Except ProfileError Profile :=
  match key with
  | "solver.isMediaTypeScreen" =>
    (readKleene value).map fun k => { p with solver := { p.solver with isMediaTypeScreen := k } }
  | "solver.isLegacyBrowser" =>
    (readKleene value).map fun k => { p with solver := { p.solver with isLegacyBrowser := k } }
  | key => match splitKey? key with
    | some (part, field) => p.setField part field key value
    | none => .error (.unknownKey key)

end Profile

end MediaQuery
