import MediaQuery.Json.Value

set_option autoImplicit false

namespace MediaQuery

/-- How closely values have to fit the places that they are read into. -/
inductive Fit where
  /-- A count is an integer within its word, and nothing is left over where something is read. What
  is passed over is not looked at. -/
  | tight
  /-- Any number is cut to a count, and what is left over is not looked at. What is passed over has
  to be sound. -/
  | loose
deriving DecidableEq, Repr

/-- Types with a JSON form. -/
class JsonForm (α : Type) where
  toJson : α → Json
  ofJson? : Fit → Json → Option α

/-- A field of a record: how it is written, if at all, and how it is set to what was read. -/
structure JsonField (ρ : Type) where
  name : String
  write? : ρ → Option Json
  read? : Fit → Json → ρ → Option ρ

/-- A part of a record: its value, how it is replaced, and the values that are not written. -/
structure Slot (ρ : Type) where
  name : String
  Part : Type
  form : JsonForm Part
  get : ρ → Part
  set : ρ → Part → ρ
  hides : Part → Bool

namespace Slot

variable {ρ : Type}

def of {α : Type} [form : JsonForm α] (name : String) (get : ρ → α) (set : ρ → α → ρ) :
    Slot ρ where
  name := name
  Part := α
  form := form
  get := get
  set := set
  hides _ := false

def field (s : Slot ρ) : JsonField ρ where
  name := s.name
  write? r := if s.hides (s.get r) then none else some (s.form.toJson (s.get r))
  read? fit j r := (s.form.ofJson? fit j).map (s.set r)

end Slot

namespace JsonField

variable {ρ : Type}

def writeAll (fields : List (JsonField ρ)) (r : ρ) : List (String × Json) :=
  fields.filterMap fun f => (f.write? r).map (f.name, ·)

/-- Sets a field to the member of its name; there may be only one. -/
def readOne? (fit : Fit) (members : List (String × Json)) (r : ρ) (f : JsonField ρ) : Option ρ :=
  match Json.valuesAt f.name members with
  | [] => some r
  | [j] => f.read? fit j r
  | _ => none

def readAll? (fit : Fit) (fields : List (JsonField ρ)) (members : List (String × Json)) (r : ρ) :
    Option ρ :=
  fields.foldlM (readOne? fit members) r

end JsonField

namespace Json

/-- The members of a record with some fields. -/
def recordMembers? (fit : Fit) (names : List String) : Json → Option (List (String × Json))
  | .object members => some members
  | .array items =>
    if fit = .loose ∨ items.length ≤ names.length then some (names.zip items) else none
  | _ => none

/-- Whether the members that have no field may be passed over. -/
def canPassOver (fit : Fit) (names : List String) (members : List (String × Json)) : Bool :=
  match fit with
  | .tight => true
  | .loose => members.all fun m => names.contains m.1 || (held? m.2).isSome

def ofRecord {ρ : Type} (fields : List (JsonField ρ)) (r : ρ) : Json :=
  .object (JsonField.writeAll fields r)

/-- A record with the fields of a JSON value in place of those of a default. -/
def toRecord? {ρ : Type} (fields : List (JsonField ρ)) (default : ρ) (fit : Fit) (j : Json) :
    Option ρ :=
  let names := fields.map JsonField.name
  (recordMembers? fit names j).bind fun members =>
    if canPassOver fit names members then JsonField.readAll? fit fields members default else none

def sole? (key : String) (members : List (String × Json)) : Option (Option Json) :=
  match valuesAt key members with
  | [] => some none
  | [j] => some (some j)
  | _ => none

end Json

instance : JsonForm Bool where
  toJson := .bool
  ofJson?
    | _, .bool b => some b
    | _, _ => none

instance : JsonForm String where
  toJson := .string
  ofJson?
    | _, .string s => some s
    | _, _ => none

/-- What is no finite number has no form of its own and is written as null. -/
instance : JsonForm Float where
  toJson x := if Number.isFinite x then .fraction x else .null
  ofJson?
    | _, .integer i =>
      let magnitude := Float.ofScientific i.natAbs false 0
      some (if i < 0 then -magnitude else magnitude)
    | _, .minusZero => some (-0.0)
    | _, .fraction x => some x
    | _, _ => none

def countOf (i : Int) : UInt32 := UInt32.ofNat (min i.toNat (UInt32.size - 1))

/-- A double without its fraction, held within the counts; 0 for no number. -/
def countOfFloat (x : Float) : UInt32 := countOf (Number.toWord x)

instance : JsonForm UInt32 where
  toJson n := .integer n.toNat
  ofJson?
    | .tight, .integer i =>
      if 0 ≤ i ∧ i.toNat < UInt32.size then some (UInt32.ofNat i.toNat) else none
    | .loose, .integer i => some (countOf i)
    | .loose, .minusZero => some 0
    | .loose, .fraction x => some (countOfFloat x)
    | _, _ => none

instance {α : Type} [JsonForm α] : JsonForm (List α) where
  toJson xs := .array (xs.map JsonForm.toJson)
  ofJson?
    | fit, .array items => items.mapM (JsonForm.ofJson? fit)
    | _, _ => none

end MediaQuery
