import MediaQuery.Text.Distance
import MediaQuery.Text.Slice

set_option autoImplicit false

namespace MediaQuery

inductive DiscreteValue where
  | keyword (name : String)
  | integer (value : Int)
deriving DecidableEq, Repr

namespace DiscreteValue

/-- The values that stand for the absence of what a feature names. -/
def isFalsy : DiscreteValue → Bool
  | .keyword name => name == "none" || name == "no-preference"
  | .integer value => value == 0

def text : DiscreteValue → String
  | .keyword name => name
  | .integer value => toString value

end DiscreteValue

inductive NumericKind where
  | length
  | integer
  /-- Dots per px, or `infinite`. -/
  | resolution
deriving DecidableEq, Repr

inductive FeatureKind where
  | discrete (values : List DiscreteValue)
  /-- Bands of colours, each of which contains the ones before it. -/
  | gamut
  | numeric (kind : NumericKind)
  | ratio
  /-- Portrait or landscape, which says on which side of 1 the aspect ratio lies. -/
  | orientation
  /-- A plain number that is the resolution in dots per px. -/
  | pixelRatio
deriving DecidableEq, Repr

structure FeatureSpec where
  name : String
  kind : FeatureKind

/-- Which bound a name asks for by its first part. -/
inductive Limit where
  | min
  | max
deriving DecidableEq, Repr

namespace FeatureSpec

/-- The feature that the device is asked for. -/
def key (spec : FeatureSpec) : String :=
  match spec.kind with
  | .orientation => "aspect-ratio"
  | .pixelRatio => "resolution"
  | _ => spec.name

def isRange (spec : FeatureSpec) : Bool :=
  match spec.kind with
  | .numeric _ | .ratio | .pixelRatio => true
  | _ => false

/-- A value that every device satisfies. -/
def isUniversal (spec : FeatureSpec) (value : DiscreteValue) : Bool :=
  (spec.name == "dynamic-range" || spec.name == "video-dynamic-range") &&
    value == .keyword "standard"

/-- The legal value that a written word or integer names. -/
def discreteValue? (spec : FeatureSpec) (ident : Option String) (integer : Option Int) :
    Option DiscreteValue :=
  match spec.kind with
  | .discrete values => values.find? fun
    | .keyword name => ident == some name
    | .integer value => integer == some value
  | _ => none

def valueNames (spec : FeatureSpec) : List String :=
  match spec.kind with
  | .discrete values => values.map DiscreteValue.text
  | .gamut => ["srgb", "p3", "rec2020"]
  | .orientation => ["portrait", "landscape"]
  | _ => []

end FeatureSpec

namespace FeatureTable

/-- A discrete feature whose values are all words. -/
def words (name : String) (values : List String) : FeatureSpec :=
  ⟨name, .discrete (values.map .keyword)⟩

/-- A length. -/
def length (name : String) : FeatureSpec := ⟨name, .numeric .length⟩

def count (name : String) : FeatureSpec := ⟨name, .numeric .integer⟩

def all : List FeatureSpec :=
  [length "width",
   length "height",
   length "device-width",
   length "device-height",
   ⟨"aspect-ratio", .ratio⟩,
   ⟨"device-aspect-ratio", .ratio⟩,
   ⟨"orientation", .orientation⟩,
   ⟨"resolution", .numeric .resolution⟩,
   ⟨"-webkit-device-pixel-ratio", .pixelRatio⟩,
   count "color",
   count "color-index",
   count "monochrome",
   count "horizontal-viewport-segments",
   count "vertical-viewport-segments",
   ⟨"color-gamut", .gamut⟩,
   ⟨"video-color-gamut", .gamut⟩,
   ⟨"grid", .discrete [.integer 0, .integer 1]⟩,
   words "any-hover" ["none", "hover"],
   words "hover" ["none", "hover"],
   words "any-pointer" ["none", "coarse", "fine"],
   words "pointer" ["none", "coarse", "fine"],
   words "update" ["none", "slow", "fast"],
   words "overflow-block" ["none", "scroll", "paged"],
   words "overflow-inline" ["none", "scroll"],
   words "scan" ["interlace", "progressive"],
   words "environment-blending" ["opaque", "additive", "subtractive"],
   words "display-mode" ["fullscreen", "standalone", "minimal-ui", "browser",
     "picture-in-picture", "window-controls-overlay"],
   words "dynamic-range" ["standard", "high"],
   words "video-dynamic-range" ["standard", "high"],
   words "forced-colors" ["none", "active"],
   words "inverted-colors" ["none", "inverted"],
   words "nav-controls" ["none", "back"],
   words "prefers-color-scheme" ["light", "dark"],
   words "prefers-contrast" ["no-preference", "less", "more", "custom"],
   words "prefers-reduced-data" ["no-preference", "reduce"],
   words "prefers-reduced-motion" ["no-preference", "reduce"],
   words "prefers-reduced-transparency" ["no-preference", "reduce"],
   words "scripting" ["none", "initial-only", "enabled"]]

def lookup? (name : String) : Option FeatureSpec := all.find? fun spec => spec.name == name

/-- Splits the word for a limit off a name; a vendor's mark in front of it stays on the name. -/
def splitLimit? (name : String) : Option (Limit × String) :=
  let after := fun (start : String) => Text.dropStart? start.toList name.toList
  match after "min-", after "max-", after "-webkit-min-", after "-webkit-max-" with
  | some rest, _, _, _ => some (.min, String.ofList rest)
  | none, some rest, _, _ => some (.max, String.ofList rest)
  | none, none, some rest, _ => some (.min, "-webkit-" ++ String.ofList rest)
  | none, none, none, some rest => some (.max, "-webkit-" ++ String.ofList rest)
  | none, none, none, none => none

/-- The feature that a written name stands for. A limit is only split off a name that is not
itself known, and only where a range remains. -/
def resolve? (name : String) : Option (Option Limit × FeatureSpec) :=
  match lookup? name with
  | some spec => some (none, spec)
  | none => do
    let (limit, base) ← splitLimit? name
    let spec ← lookup? base
    if spec.isRange then some (some limit, spec) else none

/-- The greatest distance at which a name counts as misspelt. -/
def misspeltUpTo : Nat := 3

/-- The known name nearest to a written one, the first of several, if it is near enough. -/
def suggest? (name : String) : Option String :=
  let near := all.filterMap fun spec =>
    let distance := Text.editDistance name.toList spec.name.toList
    if distance ≤ misspeltUpTo then some (distance, spec.name) else none
  let nearest := near.foldl (fun best next => match best with
    | none => some next
    | some best => some (if next.1 < best.1 then next else best)) none
  nearest.map Prod.snd

theorem lookup?_name {name : String} {spec : FeatureSpec} (h : lookup? name = some spec) :
    spec.name = name := by
  have := List.find?_some h
  simpa using this

theorem lookup?_mem {name : String} {spec : FeatureSpec} (h : lookup? name = some spec) :
    spec ∈ all := List.mem_of_find?_eq_some h

end FeatureTable

end MediaQuery
