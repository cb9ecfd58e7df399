import MediaQuery.Json.Reader
import MediaQuery.Json.Record
import MediaQuery.Profile.Basic

set_option autoImplicit false

namespace MediaQuery

/-- A keyword as a string, or as the only key of an object whose value is null; in a loose fit, as
the first key of any object. -/
def Keyword.ofJson? {α : Type} [Keyword α] : Fit → Json → Option α
  | _, .string s => Keyword.ofText? s
  | .tight, .object [(s, .null)] => Keyword.ofText? s
  | .loose, .object ((s, _) :: _) => Keyword.ofText? s
  | _, _ => none

instance {α : Type} [Keyword α] : JsonForm α where
  toJson a := .string (Keyword.text a)
  ofJson? := Keyword.ofJson?

instance : Keyword Kleene where
  all := [.yes, .no, .unknown]
  text := Kleene.text

instance : Keyword RangeKind where
  all := [.integer, .number, .length, .resolution, .ratio]
  text
    | .integer => "integer"
    | .number => "number"
    | .length => "length"
    | .resolution => "resolution"
    | .ratio => "ratio"

/-- A count, or else the keyword for having none. Which of the two it is shows only in the value
itself, so it has to fit tightly in either format. -/
def Json.countOr? (keyword : String) (j : Json) : Option (Option UInt32) := do
  let j ← held? j
  match (JsonForm.ofJson? .tight j : Option UInt32) with
  | some count => some (some count)
  | none => match j with
    | .string s | .object [(s, .null)] => if s = keyword then some none else none
    | _ => none

instance : JsonForm Monochrome where
  toJson
    | .bits count => JsonForm.toJson count
    | .colored => .string "not-monochrome"
  ofJson? _ j := (Json.countOr? "not-monochrome" j).map fun
    | some count => .bits count
    | none => .colored

instance : JsonForm ColorIndex where
  toJson
    | .entries count => JsonForm.toJson count
    | .none => .string "none"
  ofJson? _ j := (Json.countOr? "none" j).map fun
    | some count => .entries count
    | none => .none

def Device.slots : List (Slot Device) :=
  [.of "mediaType" Device.mediaType fun d x => { d with mediaType := x },
   .of "anyHover" Device.anyHover fun d x => { d with anyHover := x },
   .of "hover" Device.hover fun d x => { d with hover := x },
   .of "anyPointer" Device.anyPointer fun d x => { d with anyPointer := x },
   .of "pointer" Device.pointer fun d x => { d with pointer := x },
   .of "colorGamut" Device.colorGamut fun d x => { d with colorGamut := x },
   .of "videoColorGamut" Device.videoColorGamut fun d x => { d with videoColorGamut := x },
   .of "grid" Device.grid fun d x => { d with grid := x },
   .of "update" Device.update fun d x => { d with update := x },
   .of "overflowBlock" Device.overflowBlock fun d x => { d with overflowBlock := x },
   .of "overflowInline" Device.overflowInline fun d x => { d with overflowInline := x },
   .of "scan" Device.scan fun d x => { d with scan := x },
   .of "environmentBlending" Device.environmentBlending
     fun d x => { d with environmentBlending := x },
   .of "displayMode" Device.displayMode fun d x => { d with displayMode := x },
   .of "dynamicRange" Device.dynamicRange fun d x => { d with dynamicRange := x },
   .of "videoDynamicRange" Device.videoDynamicRange fun d x => { d with videoDynamicRange := x },
   .of "forcedColors" Device.forcedColors fun d x => { d with forcedColors := x },
   .of "invertedColors" Device.invertedColors fun d x => { d with invertedColors := x },
   .of "navControls" Device.navControls fun d x => { d with navControls := x },
   .of "prefersColorScheme" Device.prefersColorScheme fun d x => { d with prefersColorScheme := x },
   .of "prefersContrast" Device.prefersContrast fun d x => { d with prefersContrast := x },
   .of "prefersReducedData" Device.prefersReducedData fun d x => { d with prefersReducedData := x },
   .of "prefersReducedMotion" Device.prefersReducedMotion
     fun d x => { d with prefersReducedMotion := x },
   .of "prefersReducedTransparency" Device.prefersReducedTransparency
     fun d x => { d with prefersReducedTransparency := x },
   .of "scripting" Device.scripting fun d x => { d with scripting := x },
   .of "widthPx" Device.widthPx fun d x => { d with widthPx := x },
   .of "heightPx" Device.heightPx fun d x => { d with heightPx := x },
   .of "deviceWidthPx" Device.deviceWidthPx fun d x => { d with deviceWidthPx := x },
   .of "deviceHeightPx" Device.deviceHeightPx fun d x => { d with deviceHeightPx := x },
   .of "dppx" Device.dppx fun d x => { d with dppx := x },
   .of "monochromeBits" Device.monochromeBits fun d x => { d with monochromeBits := x },
   .of "colorBits" Device.colorBits fun d x => { d with colorBits := x },
   .of "colorIndex" Device.colorIndex fun d x => { d with colorIndex := x },
   .of "horizontalViewportSegments" Device.horizontalViewportSegments
     fun d x => { d with horizontalViewportSegments := x },
   .of "verticalViewportSegments" Device.verticalViewportSegments
     fun d x => { d with verticalViewportSegments := x }]

def Device.fields : List (JsonField Device) := Device.slots.map Slot.field

instance : JsonForm Device where
  toJson := Json.ofRecord Device.fields
  ofJson? := Json.toRecord? Device.fields {}

def Metrics.slots : List (Slot Metrics) :=
  [.of "widthPx" Metrics.widthPx fun m x => { m with widthPx := x },
   .of "heightPx" Metrics.heightPx fun m x => { m with heightPx := x },
   .of "emPx" Metrics.emPx fun m x => { m with emPx := x },
   .of "remPx" Metrics.remPx fun m x => { m with remPx := x },
   .of "exPx" Metrics.exPx fun m x => { m with exPx := x },
   .of "chPx" Metrics.chPx fun m x => { m with chPx := x },
   .of "capPx" Metrics.capPx fun m x => { m with capPx := x },
   .of "icPx" Metrics.icPx fun m x => { m with icPx := x },
   .of "lhPx" Metrics.lhPx fun m x => { m with lhPx := x },
   .of "rlhPx" Metrics.rlhPx fun m x => { m with rlhPx := x },
   .of "writingMode" Metrics.writingMode fun m x => { m with writingMode := x }]

def Metrics.fields : List (JsonField Metrics) := Metrics.slots.map Slot.field

instance : JsonForm Metrics where
  toJson := Json.ofRecord Metrics.fields
  ofJson? := Json.toRecord? Metrics.fields {}

namespace Knowledge

def flag? (key : String) (members : List (String × Json)) : Option Bool := do
  match ← Json.sole? key members with
  | some j => JsonForm.ofJson? .tight j
  | none => some false

def words? (j : Json) : Option (List String) := JsonForm.ofJson? .tight j

def readDiscrete? (members : List (String × Json)) : Option Knowledge := do
  let values ← (← Json.sole? "values" members).bind words?
  let canBeFalse ← flag? "canBeFalse" members
  return .discrete values canBeFalse

/-- The kind of a range. As a key, it may have an empty object for its value as well as null. -/
def kind? : Json → Option RangeKind
  | .object [(s, .object [])] => Keyword.ofText? s
  | j => Keyword.ofJson? .tight j

def readRange? (members : List (String × Json)) : Option Knowledge := do
  let kind ← (← Json.sole? "kind" members).bind kind?
  let canBeZero ← flag? "canBeZero" members
  let canBeNegative ← flag? "canBeNegative" members
  let extraValues ← match ← Json.sole? "extraValues" members with
    | some j => words? j
    | none => some []
  return .range kind canBeZero canBeNegative extraValues

def readTyped? (type : String) (rest : Json) : Option Knowledge :=
  match type with
  | "discrete" => (Json.recordMembers? .tight ["values", "canBeFalse"] rest).bind readDiscrete?
  | "range" =>
    (Json.recordMembers? .tight ["kind", "canBeZero", "canBeNegative", "extraValues"] rest).bind
      readRange?
  | _ => none

/-- Reads knowledge: the type tells which members there are, and an array begins with it. As the
type may come last, all else is held until then: it has to be sound and to fit tightly. -/
def ofJson? (j : Json) : Option Knowledge := do
  match ← j.held? with
  | .object members =>
    match ← Json.sole? "type" members with
    | some (.string type) => readTyped? type (.object (members.filter fun m => m.1 != "type"))
    | _ => none
  | .array (.string type :: items) => readTyped? type (.array items)
  | _ => none

def toJson : Knowledge → Json
  | .discrete values canBeFalse => .object
    [("type", .string "discrete"), ("values", JsonForm.toJson values),
     ("canBeFalse", .bool canBeFalse)]
  | .range kind canBeZero canBeNegative extraValues => .object
    [("type", .string "range"), ("kind", .string (Keyword.text kind)),
     ("canBeZero", .bool canBeZero), ("canBeNegative", .bool canBeNegative),
     ("extraValues", JsonForm.toJson extraValues)]

end Knowledge

instance : JsonForm Knowledge where
  toJson := Knowledge.toJson
  ofJson? _ := Knowledge.ofJson?

/-- A map is an object; of several members with one key the last one counts. -/
instance {α : Type} [JsonForm α] : JsonForm (KeyMap α) where
  toJson m := .object (m.entries.map fun e => (e.1, JsonForm.toJson e.2))
  ofJson?
    | fit, .object members =>
      (members.mapM fun m => (JsonForm.ofJson? fit m.2).map (m.1, ·)).map KeyMap.ofList
    | _, _ => none

/-- The parts of solver settings; an empty map of features is not written. -/
def SolverSettings.slots : List (Slot SolverSettings) :=
  [.of "isMediaTypeScreen" SolverSettings.isMediaTypeScreen fun s x =>
     { s with isMediaTypeScreen := x },
   .of "isLegacyBrowser" SolverSettings.isLegacyBrowser fun s x => { s with isLegacyBrowser := x },
   { Slot.of "features" SolverSettings.features fun s x => { s with features := x } with
     hides := KeyMap.isEmpty }]

def SolverSettings.fields : List (JsonField SolverSettings) := SolverSettings.slots.map Slot.field

instance : JsonForm SolverSettings where
  toJson := Json.ofRecord SolverSettings.fields
  ofJson? := Json.toRecord? SolverSettings.fields {}

def Profile.slots : List (Slot Profile) :=
  [.of "units" Profile.units fun p x => { p with units := x },
   .of "environment" Profile.environment fun p x => { p with environment := x },
   .of "solver" Profile.solver fun p x => { p with solver := x }]

def Profile.fields : List (JsonField Profile) := Profile.slots.map Slot.field

instance : JsonForm Profile where
  toJson := Json.ofRecord Profile.fields
  ofJson? := Json.toRecord? Profile.fields {}

/-- Why a text does not describe a device. -/
inductive DeviceTextError where
  /-- The text is no JSON value, or not one of a device. -/
  | malformed
  | invalid (error : DeviceError)

/-- Reads a device from a JSON text and refuses numbers that no device has. -/
def Device.ofText (source : String) : Except DeviceTextError Device :=
  match (Json.read? source).bind (JsonForm.ofJson? .tight) with
  | none => .error .malformed
  | some (d : Device) => match d.validate with
    | .ok () => .ok d
    | .error e => .error (.invalid e)

end MediaQuery
