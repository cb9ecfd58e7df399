import MediaQuery.Gamut
import MediaQuery.Units

set_option autoImplicit false

namespace MediaQuery

/-- Types whose values are keywords. -/
class Keyword (α : Type) where
  /-- Every value. -/
  all : List α
  /-- The spelling of a value. -/
  text : α → String

def Keyword.ofText? {α : Type} [Keyword α] (s : String) : Option α :=
  (Keyword.all : List α).find? fun a => Keyword.text a == s

inductive Medium where
  | screen
  | print
deriving DecidableEq, Repr

instance : Keyword Medium where
  all := [.screen, .print]
  text
    | .screen => "screen"
    | .print => "print"

inductive Hover where
  | none
  | hover
deriving DecidableEq, Repr

instance : Keyword Hover where
  all := [.none, .hover]
  text
    | .none => "none"
    | .hover => "hover"

inductive Pointer where
  | none
  | coarse
  | fine
deriving DecidableEq, Repr

instance : Keyword Pointer where
  all := [.none, .coarse, .fine]
  text
    | .none => "none"
    | .coarse => "coarse"
    | .fine => "fine"

/-- How fast a device can change what it shows. -/
inductive Update where
  | none
  | slow
  | fast
deriving DecidableEq, Repr

instance : Keyword Update where
  all := [.none, .slow, .fast]
  text
    | .none => "none"
    | .slow => "slow"
    | .fast => "fast"

/-- What happens to content beyond the end of a page. -/
inductive OverflowBlock where
  | none
  | scroll
  | paged
deriving DecidableEq, Repr

instance : Keyword OverflowBlock where
  all := [.none, .scroll, .paged]
  text
    | .none => "none"
    | .scroll => "scroll"
    | .paged => "paged"

/-- What happens to content beyond the end of a line. -/
inductive OverflowInline where
  | none
  | scroll
deriving DecidableEq, Repr

instance : Keyword OverflowInline where
  all := [.none, .scroll]
  text
    | .none => "none"
    | .scroll => "scroll"

inductive Scan where
  | interlace
  | progressive
deriving DecidableEq, Repr

instance : Keyword Scan where
  all := [.interlace, .progressive]
  text
    | .interlace => "interlace"
    | .progressive => "progressive"

/-- How a display mixes with what is behind it. -/
inductive Blending where
  | solid
  | additive
  | subtractive
deriving DecidableEq, Repr

instance : Keyword Blending where
  all := [.solid, .additive, .subtractive]
  text
    | .solid => "opaque"
    | .additive => "additive"
    | .subtractive => "subtractive"

inductive DisplayMode where
  | fullscreen
  | standalone
  | minimalUi
  | browser
  | pictureInPicture
  | windowControlsOverlay
deriving DecidableEq, Repr

instance : Keyword DisplayMode where
  all := [.fullscreen, .standalone, .minimalUi, .browser, .pictureInPicture, .windowControlsOverlay]
  text
    | .fullscreen => "fullscreen"
    | .standalone => "standalone"
    | .minimalUi => "minimal-ui"
    | .browser => "browser"
    | .pictureInPicture => "picture-in-picture"
    | .windowControlsOverlay => "window-controls-overlay"

/-- The span from the darkest to the brightest colour. -/
inductive DynamicRange where
  | standard
  | high
deriving DecidableEq, Repr

instance : Keyword DynamicRange where
  all := [.standard, .high]
  text
    | .standard => "standard"
    | .high => "high"

inductive ForcedColors where
  | none
  | active
deriving DecidableEq, Repr

instance : Keyword ForcedColors where
  all := [.none, .active]
  text
    | .none => "none"
    | .active => "active"

inductive InvertedColors where
  | none
  | inverted
deriving DecidableEq, Repr

instance : Keyword InvertedColors where
  all := [.none, .inverted]
  text
    | .none => "none"
    | .inverted => "inverted"

inductive NavControls where
  | none
  | back
deriving DecidableEq, Repr

instance : Keyword NavControls where
  all := [.none, .back]
  text
    | .none => "none"
    | .back => "back"

inductive ColorScheme where
  | light
  | dark
deriving DecidableEq, Repr

instance : Keyword ColorScheme where
  all := [.light, .dark]
  text
    | .light => "light"
    | .dark => "dark"

inductive Contrast where
  | noPreference
  | less
  | more
  | custom
deriving DecidableEq, Repr

instance : Keyword Contrast where
  all := [.noPreference, .less, .more, .custom]
  text
    | .noPreference => "no-preference"
    | .less => "less"
    | .more => "more"
    | .custom => "custom"

/-- Whether the user prefers less of something. -/
inductive Reduce where
  | noPreference
  | reduce
deriving DecidableEq, Repr

instance : Keyword Reduce where
  all := [.noPreference, .reduce]
  text
    | .noPreference => "no-preference"
    | .reduce => "reduce"

inductive Scripting where
  | none
  | initialOnly
  | enabled
deriving DecidableEq, Repr

instance : Keyword Scripting where
  all := [.none, .initialOnly, .enabled]
  text
    | .none => "none"
    | .initialOnly => "initial-only"
    | .enabled => "enabled"

instance : Keyword GamutBand where
  all := [.belowSrgb, .srgb, .p3, .rec2020]
  text
    | .belowSrgb => "not-srgb"
    | .srgb => "srgb"
    | .p3 => "p3"
    | .rec2020 => "rec2020"

instance : Keyword WritingMode where
  all := [.horizontalTb, .verticalLr, .verticalRl, .sidewaysLr, .sidewaysRl]
  text
    | .horizontalTb => "horizontal-tb"
    | .verticalLr => "vertical-lr"
    | .verticalRl => "vertical-rl"
    | .sidewaysLr => "sideways-lr"
    | .sidewaysRl => "sideways-rl"

end MediaQuery
