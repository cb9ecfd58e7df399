import MediaQuery.Query.Printer
import MediaQuery.Ratio

set_option autoImplicit false

namespace MediaQuery

/-- The direction of text on a page. -/
inductive WritingMode where
  | horizontalTb
  | verticalLr
  | verticalRl
  | sidewaysLr
  | sidewaysRl
deriving DecidableEq, Repr

/-- Whether lines of text run from top to bottom. -/
def WritingMode.isVertical : WritingMode → Bool
  | .horizontalTb => false
  | _ => true

/-- The lengths in px that relative units refer to. -/
structure Metrics where
  widthPx : Float := 1920
  heightPx : Float := 1080
  emPx : Float := 16
  remPx : Float := 16
  exPx : Float := 8
  chPx : Float := 8
  capPx : Float := 11
  icPx : Float := 16
  lhPx : Float := 19.2
  rlhPx : Float := 19.2
  writingMode : WritingMode := .horizontalTb

namespace Metrics

/-- The size of the viewport along a line of text. -/
def inlinePx (m : Metrics) : Float := if m.writingMode.isVertical then m.heightPx else m.widthPx

def blockPx (m : Metrics) : Float := if m.writingMode.isVertical then m.widthPx else m.heightPx

def pxPerInch : Float := 96

def pxPerCm : Float := pxPerInch / 2.54

def lengthUnit? (m : Metrics) : String → Option Float
  | "px" => some 1
  | "cm" => some pxPerCm
  | "mm" => some (pxPerCm / 10)
  | "q" => some (pxPerCm / 40)
  | "in" => some pxPerInch
  | "pc" => some (pxPerInch / 6)
  | "pt" => some (pxPerInch / 72)
  | "em" => some m.emPx
  | "rem" => some m.remPx
  | "ex" => some m.exPx
  | "ch" => some m.chPx
  | "cap" => some m.capPx
  | "ic" => some m.icPx
  | "lh" => some m.lhPx
  | "rlh" => some m.rlhPx
  | "vw" | "svw" | "lvw" | "dvw" => some (m.widthPx / 100)
  | "vh" | "svh" | "lvh" | "dvh" => some (m.heightPx / 100)
  | "vi" | "svi" | "lvi" | "dvi" => some (m.inlinePx / 100)
  | "vb" | "svb" | "lvb" | "dvb" => some (m.blockPx / 100)
  | "vmin" | "svmin" | "lvmin" | "dvmin" => some (Number.least m.widthPx m.heightPx / 100)
  | "vmax" | "svmax" | "lvmax" | "dvmax" => some (Number.greatest m.widthPx m.heightPx / 100)
  | _ => none

end Metrics

/-- A value in its canonical unit. -/
inductive Quantity where
  | number (value : Float) (integer : Bool)
  | length (px : Float)
  | time (ms : Float)
  | frequency (hz : Float)
  | resolution (dppx : Float)
  | ratio (value : Ratio)
  /-- The word `infinite`. -/
  | infinite
  /-- Any other word, or a number whose unit has no meaning, as it is written. -/
  | ident (name : String)

namespace Quantity

/-- A number rounded to three places. -/
def roundThousandth (x : Float) : Float := Number.roundHalfAway (x * 1000) / 1000

/-- A resolution in dots per px; those given for an inch or a centimetre are rounded. -/
def resolution? (value : Float) : String → Option Float
  | "dppx" | "x" => some value
  | "dpi" => some (roundThousandth (value * (1 / 96)))
  | "dpcm" => some (roundThousandth (value * (2.54 / 96)))
  | _ => none

/-- A number with a unit in the canonical unit of its kind. -/
def ofDimension (m : Metrics) (value : Float) (unit : String) : Quantity :=
  match m.lengthUnit? unit with
  | some px => .length (value * px)
  | none => match resolution? value unit with
    | some dppx => .resolution dppx
    | none => match unit with
      | "ms" => .time value
      | "s" => .time (value * 1000)
      | "hz" => .frequency value
      | "khz" => .frequency (value * 1000)
      | _ => .ident (Decimal.proseText value ++ unit)

def ofValue (m : Metrics) : Value → Quantity
  | .number value integer => .number value integer
  | .dimension value unit => ofDimension m value unit
  | .ratio numerator denominator => .ratio ⟨numerator, denominator⟩
  | .ident "infinite" => .infinite
  | .ident name => .ident name

/-- A length in px; the number zero needs no unit. -/
def length? : Quantity → Option Float
  | .length px => some px
  | .number value _ => if Number.isZero value then some 0 else none
  | _ => none

def integer? : Quantity → Option Float
  | .number value true => some value
  | _ => none

def number? : Quantity → Option Float
  | .number value _ => some value
  | _ => none

def resolutionValue? : Quantity → Option Float
  | .resolution dppx => some dppx
  | .infinite => some Number.infinity
  | _ => none

/-- A ratio without a part below zero; a number is a ratio over one. -/
def ratio? (q : Quantity) : Option Ratio :=
  let legal := fun (r : Ratio) =>
    if Number.isNonNegative r.numerator && Number.isNonNegative r.denominator then some r else none
  match q with
  | .ratio r => legal r
  | .number value _ => legal ⟨value, 1⟩
  | _ => none

end Quantity

end MediaQuery
