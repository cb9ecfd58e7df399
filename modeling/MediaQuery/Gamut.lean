set_option autoImplicit false

namespace MediaQuery

/-- The widest gamut that a device covers. -/
inductive GamutBand where
  | belowSrgb
  | srgb
  | p3
  | rec2020
deriving DecidableEq, Repr

def GamutBand.index : GamutBand → Nat
  | .belowSrgb => 0
  | .srgb => 1
  | .p3 => 2
  | .rec2020 => 3

/-- A set of bands. -/
structure GamutMask where
  belowSrgb : Bool
  srgb : Bool
  p3 : Bool
  rec2020 : Bool
deriving DecidableEq, Repr

namespace GamutMask

/-- The bands that cover a gamut: it and all wider ones. -/
def covering : GamutBand → GamutMask
  | .belowSrgb => ⟨true, true, true, true⟩
  | .srgb => ⟨false, true, true, true⟩
  | .p3 => ⟨false, false, true, true⟩
  | .rec2020 => ⟨false, false, false, true⟩

def contains (m : GamutMask) : GamutBand → Bool
  | .belowSrgb => m.belowSrgb
  | .srgb => m.srgb
  | .p3 => m.p3
  | .rec2020 => m.rec2020

def inter (a b : GamutMask) : GamutMask :=
  ⟨a.belowSrgb && b.belowSrgb, a.srgb && b.srgb, a.p3 && b.p3, a.rec2020 && b.rec2020⟩

def complement (m : GamutMask) : GamutMask := ⟨!m.belowSrgb, !m.srgb, !m.p3, !m.rec2020⟩

def isEmpty (m : GamutMask) : Bool := !m.belowSrgb && !m.srgb && !m.p3 && !m.rec2020

def isFull (m : GamutMask) : Bool := m.belowSrgb && m.srgb && m.p3 && m.rec2020

theorem contains_inter (a b : GamutMask) (g : GamutBand) :
    (a.inter b).contains g = (a.contains g && b.contains g) := by
  cases g <;> rfl

theorem contains_complement (m : GamutMask) (g : GamutBand) :
    m.complement.contains g = !m.contains g := by
  cases g <;> rfl

theorem contains_covering (g h : GamutBand) :
    (covering g).contains h = decide (g.index ≤ h.index) := by
  cases g <;> cases h <;> rfl

end GamutMask

end MediaQuery
