import MediaQuery.FeatureTable
import MediaQuery.Gamut
import MediaQuery.KeyMap
import MediaQuery.Ratio

set_option autoImplicit false

namespace MediaQuery

/-- The media for which a clause holds. -/
inductive MediaTag where
  | all
  | screen
  | print
  | notScreen
  | notPrint
deriving DecidableEq, Repr

/-- What a clause asks of one feature. -/
inductive Constraint where
  /-- Nothing. -/
  | always
  /-- What no device satisfies. -/
  | never
  | discrete (value : DiscreteValue)
  | gamut (mask : GamutMask)
  | number (interval : Interval Float)
  | ratio (interval : Interval Ratio)

namespace Constraint

/-- Equality field by field, with numbers compared by value. -/
def same : Constraint → Constraint → Bool
  | .always, .always => true
  | .never, .never => true
  | .discrete x, .discrete y => x == y
  | .gamut x, .gamut y => x == y
  | .number x, .number y => x.beq Number.same y
  | .ratio x, .ratio y => x.beq Ratio.same y
  | _, _ => false

def isNever : Constraint → Bool
  | .never => true
  | _ => false

end Constraint

/-- A conjunction of constraints. A clause with an entry in `invalid` was not understood as a
whole and holds on no device. -/
structure Clause where
  tag : Option MediaTag
  /-- The names and texts that were not understood. -/
  invalid : List String
  tests : KeyMap Constraint

namespace Clause

/-- The clause that holds on every device. -/
def top : Clause := ⟨none, [], KeyMap.empty⟩

instance : Inhabited Clause := ⟨top⟩

def single (key : String) (constraint : Constraint) : Clause :=
  ⟨none, [], KeyMap.single key constraint⟩

/-- A clause for what was not understood. -/
def unreadable (text : String) : Clause := ⟨none, [text], KeyMap.empty⟩

def tagged (c : Clause) (tag : MediaTag) : Clause := { c with tag := some tag }

/-- Whether part of the clause was not understood. -/
def isInvalid (c : Clause) : Bool := !c.invalid.isEmpty

def same (a b : Clause) : Bool :=
  a.tag == b.tag && a.invalid == b.invalid && a.tests.same Constraint.same b.tests

end Clause

end MediaQuery
