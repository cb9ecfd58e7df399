import MediaQuery.FeatureTable
import MediaQuery.KeyMap

set_option autoImplicit false

namespace MediaQuery

/-- The kind of number that a feature is compared with. -/
inductive RangeKind where
  | integer
  | number
  | length
  | resolution
  | ratio
deriving DecidableEq, Repr

/-- What is known of a feature. -/
inductive Knowledge where
  /-- One of some words. With `canBeFalse` the bare name may fail though no word is falsy. -/
  | discrete (values : List String) (canBeFalse : Bool)
  /-- A number; the extra values are words that it may be compared with. -/
  | range (kind : RangeKind) (canBeZero canBeNegative : Bool) (extraValues : List String)
deriving DecidableEq, Repr

namespace Knowledge

def isRange : Knowledge → Bool
  | .range .. => true
  | .discrete .. => false

/-- Whether the bare name of the feature may fail. -/
def canBeFalsy : Knowledge → Bool
  | .discrete values canBeFalse =>
    canBeFalse || values.any fun v => v == "none" || v == "no-preference" || v == "0"
  | .range _ canBeZero _ _ => canBeZero

/-- The features whose numbers are never zero. -/
def neverZero : List String :=
  ["device-width", "device-height", "resolution", "-webkit-device-pixel-ratio",
   "horizontal-viewport-segments", "vertical-viewport-segments"]

/-- What is known of a feature of the table. -/
def ofSpec (spec : FeatureSpec) : Knowledge :=
  let canBeZero := !neverZero.contains spec.name
  match spec.kind with
  | .discrete values => .discrete (values.map DiscreteValue.text) false
  | .gamut => .discrete ["srgb", "p3", "rec2020"] true
  | .orientation => .discrete ["portrait", "landscape"] false
  | .numeric .length => .range .length canBeZero false []
  | .numeric .integer => .range .integer canBeZero false []
  | .numeric .resolution => .range .resolution canBeZero false ["infinite"]
  | .ratio => .range .ratio canBeZero false []
  | .pixelRatio => .range .number canBeZero false []

/-- What is known of all features of the table. -/
def builtIn : KeyMap Knowledge :=
  KeyMap.ofList (FeatureTable.all.map fun spec => (spec.name, ofSpec spec))

end Knowledge

end MediaQuery
