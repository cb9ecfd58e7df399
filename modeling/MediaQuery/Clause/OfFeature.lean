import MediaQuery.Clause.Algebra
import MediaQuery.Units

set_option autoImplicit false

namespace MediaQuery

def GamutBand.ofName? : String → Option GamutBand
  | "srgb" => some .srgb
  | "p3" => some .p3
  | "rec2020" => some .rec2020
  | _ => none

/-- The values that a limit admits. -/
def Limit.interval {α : Type} [Endpoint α] : Option Limit → α → Interval α
  | some .min, value => .atLeast value true
  | some .max, value => .atMost value true
  | none, value => .exact value

/-- The values that a comparison with a value on its right admits. -/
def Comparison.interval {α : Type} [Endpoint α] : Comparison → α → Interval α
  | .lt, value => .atMost value false
  | .le, value => .atMost value true
  | .gt, value => .atLeast value false
  | .ge, value => .atLeast value true
  | .eq, value => .exact value

def Interval.restrict? {α : Type} [Endpoint α] (interval : Interval α) :
    Option (Comparison × α) → Option (Interval α)
  | some (op, value) => interval.inter? (op.interval value)
  | none => some interval

/-- The values between the sides of a comparison; the left side is read from the right. -/
def Interval.between? {α : Type} [Endpoint α] (left : Option (α × Comparison))
    (right : Option (Comparison × α)) : Option (Interval α) :=
  (Interval.unbounded.restrict? (left.map fun (value, op) => (op.flip, value))).bind
    fun interval => interval.restrict? right

namespace FeatureSpec

/-- The number that a value stands for, in the unit of the feature. -/
def number? (spec : FeatureSpec) (m : Metrics) (value : Value) : Option Float :=
  let quantity := Quantity.ofValue m value
  match spec.kind with
  | .numeric .length => quantity.length?
  | .numeric .integer => quantity.integer?
  | .numeric .resolution => quantity.resolutionValue?
  | .pixelRatio => quantity.number?
  | _ => none

/-- What the bare name of a feature asks for: that its value is not zero, none or the least. -/
def ofBoolean (spec : FeatureSpec) : List Constraint :=
  match spec.kind with
  | .discrete values =>
    if values.any DiscreteValue.isFalsy then
      (values.filter fun value => !value.isFalsy).map .discrete
    else [.always]
  | .gamut => [.gamut (.covering .srgb)]
  | .orientation => [.always]
  | .numeric _ | .pixelRatio => ((Interval.exact 0).complement numberDomain).map .number
  | .ratio => ((Interval.exact Endpoint.zero).complement ratioDomain).map .ratio

def ofPlain? (spec : FeatureSpec) (m : Metrics) (limit : Option Limit) (value : Value) :
    Option Constraint :=
  match spec.kind with
  | .discrete _ => (spec.discreteValue? value.ident? value.integer?).map fun found =>
    if spec.isUniversal found then .always else .discrete found
  | .gamut => (value.ident?.bind GamutBand.ofName?).map fun band => .gamut (.covering band)
  | .orientation => match value.ident? with
    | some "portrait" => some (.ratio ⟨true, Endpoint.zero, ⟨1, 1⟩, true⟩)
    | some "landscape" => some (.ratio (.atLeast ⟨1, 1⟩ false))
    | _ => none
  | .numeric _ | .pixelRatio => (spec.number? m value).map fun x => .number (Limit.interval limit x)
  | .ratio => (Quantity.ofValue m value).ratio?.map fun r => .ratio (Limit.interval limit r)

/-- Converts the values of both sides; none, if one of them has no meaning. -/
def sides? {α : Type} (read : Value → Option α) (left : Option (Value × Comparison))
    (right : Option (Comparison × Value)) :
    Option (Option (α × Comparison) × Option (Comparison × α)) := do
  let left ← match left with
    | some (value, op) => (read value).map fun x => some (x, op)
    | none => some none
  let right ← match right with
    | some (op, value) => (read value).map fun x => some (op, x)
    | none => some none
  return (left, right)

def ofRange? (spec : FeatureSpec) (m : Metrics) (left : Option (Value × Comparison))
    (right : Option (Comparison × Value)) : Option Constraint :=
  match spec.kind with
  | .numeric _ | .pixelRatio => (sides? (spec.number? m) left right).map fun (left, right) =>
    .ofNumbers? (Interval.between? left right)
  | .ratio =>
    (sides? (fun value => (Quantity.ofValue m value).ratio?) left right).map fun (left, right) =>
      .ofRatios? (Interval.between? left right)
  | .discrete _ | .gamut | .orientation => none

end FeatureSpec

namespace Feature

/-- The feature of the device that a test asks for, and the constraints of which one has to hold.
Only a name with a value may carry a limit. -/
def constraints? (m : Metrics) (f : Feature) : Option (String × List Constraint) := do
  let (limit, spec) ← FeatureTable.resolve? f.name
  let constraints ← match f, limit with
    | .boolean _, none => some spec.ofBoolean
    | .plain _ value, limit => (spec.ofPlain? m limit value).map fun c => [c]
    | .range _ left right, none => (spec.ofRange? m left right).map fun c => [c]
    | _, some _ => none
  return (spec.key, constraints)

def clauses (m : Metrics) (f : Feature) : List Clause :=
  match f.constraints? m with
  | some (key, constraints) => constraints.map (Clause.single key)
  | none => [Clause.unreadable f.name]

/-- Whether a test has no meaning. -/
def isUnreadable (m : Metrics) (f : Feature) : Bool := (f.constraints? m).isNone

end Feature

end MediaQuery
