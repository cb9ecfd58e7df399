import MediaQuery.Clause.Simplify
import MediaQuery.Json.Value

set_option autoImplicit false

namespace MediaQuery

/-- A number that need not be finite. -/
def Json.ofNumber (x : Float) : Json :=
  if Number.isFinite x then .fraction x
  else if Number.isNaN x then .string "NaN"
  else if Number.signBit x then .string "-Infinity"
  else .string "Infinity"

def Json.ofTexts (texts : List String) : Json := .array (texts.map .string)

def Ratio.toJson (r : Ratio) : Json :=
  .array [Json.ofNumber r.numerator, Json.ofNumber r.denominator]

/-- The two ends between the flags that tell whether they belong to the interval. -/
def Interval.toJson {α : Type} (endpoint : α → Json) (i : Interval α) : Json :=
  .array [.bool i.minInclusive, endpoint i.min, endpoint i.max, .bool i.maxInclusive]

def MediaTag.text : MediaTag → String
  | .all => "all"
  | .screen => "screen"
  | .print => "print"
  | .notScreen => "not-screen"
  | .notPrint => "not-print"

/-- A word as a string, an integer as a number. -/
def DiscreteValue.toJson : DiscreteValue → Json
  | .keyword name => .string name
  | .integer value => .integer value

/-- A constraint: a truth value, a value, a flag for each band of colours, or an interval. -/
def Constraint.toJson : Constraint → Json
  | .always => .bool true
  | .never => .bool false
  | .discrete value => value.toJson
  | .gamut mask => .array [.bool mask.belowSrgb, .bool mask.srgb, .bool mask.p3, .bool mask.rec2020]
  | .number interval => interval.toJson Json.ofNumber
  | .ratio interval => interval.toJson Ratio.toJson

/-- A clause; the tag and what was not understood stand in front if they are there. -/
def Clause.toJson (c : Clause) : Json :=
  let tag := c.tag.toList.map fun tag => ("media-type", Json.string tag.text)
  let invalid := if c.isInvalid then [("invalid-features", Json.ofTexts c.invalid)] else []
  .object (tag ++ invalid ++ c.tests.entries.map fun e => (e.1, e.2.toJson))

def Outcome.members (o : Outcome) : List (String × Json) :=
  [("simplePerms", .array (o.clauses.map Clause.toJson)),
   ("invalidFeatures", Json.ofTexts o.invalid),
   ("falseFeatures", Json.ofTexts o.falsified)]

def Outcome.toJson (o : Outcome) : Json := .object o.members

end MediaQuery
