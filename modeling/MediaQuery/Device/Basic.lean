import MediaQuery.Decimal.Layout
import MediaQuery.Device.Keyword

set_option autoImplicit false

namespace MediaQuery

/-- The bits of each pixel of a device without colours. -/
inductive Monochrome where
  | bits (count : UInt32)
  /-- The device has colours. -/
  | colored
deriving DecidableEq, Repr

inductive ColorIndex where
  | entries (count : UInt32)
  /-- The device has no such table. -/
  | none
deriving DecidableEq, Repr

/-- A device. Lengths are in px; `width` and `height` are those of the viewport. -/
structure Device where
  mediaType : Medium := .screen
  anyHover : Hover := .hover
  hover : Hover := .hover
  anyPointer : Pointer := .fine
  pointer : Pointer := .fine
  colorGamut : GamutBand := .srgb
  videoColorGamut : GamutBand := .srgb
  grid : Bool := false
  update : Update := .fast
  overflowBlock : OverflowBlock := .scroll
  overflowInline : OverflowInline := .scroll
  scan : Scan := .progressive
  environmentBlending : Blending := .solid
  displayMode : DisplayMode := .browser
  dynamicRange : DynamicRange := .standard
  videoDynamicRange : DynamicRange := .standard
  forcedColors : ForcedColors := .none
  invertedColors : InvertedColors := .none
  navControls : NavControls := .back
  prefersColorScheme : ColorScheme := .light
  prefersContrast : Contrast := .noPreference
  prefersReducedData : Reduce := .noPreference
  prefersReducedMotion : Reduce := .noPreference
  prefersReducedTransparency : Reduce := .noPreference
  scripting : Scripting := .enabled
  widthPx : Float := 1920
  heightPx : Float := 1080
  deviceWidthPx : Float := 1920
  deviceHeightPx : Float := 1080
  /-- The dots of the device per px. -/
  dppx : Float := 1
  monochromeBits : Monochrome := .colored
  /-- The bits of each component of a colour. -/
  colorBits : UInt32 := 8
  colorIndex : ColorIndex := .none
  horizontalViewportSegments : UInt32 := 1
  verticalViewportSegments : UInt32 := 1

/-- What is wrong with a number that describes a device. -/
inductive DeviceFault where
  | notFinite
  | negative
  | notPositive
deriving DecidableEq, Repr

/-- A number that no device has. -/
structure DeviceError where
  field : String
  value : Float
  fault : DeviceFault

def DeviceError.message (e : DeviceError) : String :=
  "invalid environment field '" ++ e.field ++ "': " ++ Decimal.proseText e.value ++
    match e.fault with
    | .notFinite => " is not finite"
    | .negative => " is negative"
    | .notPositive => " is not a positive number"

namespace Device

/-- Lengths are finite and not negative. -/
def checkLength (field : String) (value : Float) : Except DeviceError Unit :=
  if !Number.isFinite value then .error ⟨field, value, .notFinite⟩
  else if Number.isNegative value then .error ⟨field, value, .negative⟩
  else .ok ()

/-- The dots per px are positive, and may be infinite. -/
def checkDensity (field : String) (value : Float) : Except DeviceError Unit :=
  if Number.isNaN value || decide (Number.rank value ≤ 0) then
    .error ⟨field, value, .notPositive⟩
  else .ok ()

/-- Refuses numbers that no device has. -/
def validate (d : Device) : Except DeviceError Unit := do
  checkLength "widthPx" d.widthPx
  checkLength "heightPx" d.heightPx
  checkLength "deviceWidthPx" d.deviceWidthPx
  checkLength "deviceHeightPx" d.deviceHeightPx
  checkDensity "dppx" d.dppx

def keyword? (d : Device) : String → Option String
  | "any-hover" => some (Keyword.text d.anyHover)
  | "hover" => some (Keyword.text d.hover)
  | "any-pointer" => some (Keyword.text d.anyPointer)
  | "pointer" => some (Keyword.text d.pointer)
  | "update" => some (Keyword.text d.update)
  | "overflow-block" => some (Keyword.text d.overflowBlock)
  | "overflow-inline" => some (Keyword.text d.overflowInline)
  | "scan" => some (Keyword.text d.scan)
  | "environment-blending" => some (Keyword.text d.environmentBlending)
  | "display-mode" => some (Keyword.text d.displayMode)
  | "dynamic-range" => some (Keyword.text d.dynamicRange)
  | "video-dynamic-range" => some (Keyword.text d.videoDynamicRange)
  | "forced-colors" => some (Keyword.text d.forcedColors)
  | "inverted-colors" => some (Keyword.text d.invertedColors)
  | "nav-controls" => some (Keyword.text d.navControls)
  | "prefers-color-scheme" => some (Keyword.text d.prefersColorScheme)
  | "prefers-contrast" => some (Keyword.text d.prefersContrast)
  | "prefers-reduced-data" => some (Keyword.text d.prefersReducedData)
  | "prefers-reduced-motion" => some (Keyword.text d.prefersReducedMotion)
  | "prefers-reduced-transparency" => some (Keyword.text d.prefersReducedTransparency)
  | "scripting" => some (Keyword.text d.scripting)
  | _ => none

def ofCount (count : UInt32) : Float := Float.ofScientific count.toNat false 0

/-- The bits of a device without colours; zero, if it has colours. -/
def monochromeNumber : Monochrome → Float
  | .bits count => ofCount count
  | .colored => 0

def colorIndexNumber : ColorIndex → Float
  | .entries count => ofCount count
  | .none => 0

/-- The number of a feature that has one, in its canonical unit. -/
def number? (d : Device) : String → Option Float
  | "width" => some d.widthPx
  | "height" => some d.heightPx
  | "device-width" => some d.deviceWidthPx
  | "device-height" => some d.deviceHeightPx
  | "resolution" => some d.dppx
  | "color" => some (ofCount d.colorBits)
  | "color-index" => some (colorIndexNumber d.colorIndex)
  | "monochrome" => some (monochromeNumber d.monochromeBits)
  | "horizontal-viewport-segments" => some (ofCount d.horizontalViewportSegments)
  | "vertical-viewport-segments" => some (ofCount d.verticalViewportSegments)
  | _ => none

def gamut? (d : Device) : String → Option GamutBand
  | "color-gamut" => some d.colorGamut
  | "video-color-gamut" => some d.videoColorGamut
  | _ => none

def ratio? (d : Device) : String → Option Ratio
  | "aspect-ratio" => some ⟨d.widthPx, d.heightPx⟩
  | "device-aspect-ratio" => some ⟨d.deviceWidthPx, d.deviceHeightPx⟩
  | _ => none

end Device

end MediaQuery
