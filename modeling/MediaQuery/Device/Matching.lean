import MediaQuery.Clause.Simplify
import MediaQuery.Device.Basic

set_option autoImplicit false

namespace MediaQuery

def MediaTag.holds : MediaTag → Medium → Bool
  | .all, _ => true
  | .screen, medium => medium == .screen
  | .print, medium => medium == .print
  | .notScreen, medium => medium != .screen
  | .notPrint, medium => medium != .print

/-- Whether a device satisfies a constraint on a feature. A device that lacks the feature in the
kind of the constraint does not. -/
def Constraint.holds (d : Device) (key : String) : Constraint → Bool
  | .always => true
  | .never => false
  | .discrete (.keyword expected) => (d.keyword? key).any (· == expected)
  | .discrete (.integer expected) => key == "grid" && (if d.grid then 1 else 0) == expected
  | .gamut mask => (d.gamut? key).any mask.contains
  | .number interval => (d.number? key).any interval.contains
  | .ratio interval => (d.ratio? key).any interval.contains

/-- Whether a device satisfies a clause. -/
def Clause.holds (d : Device) (c : Clause) : Bool :=
  !c.isInvalid && c.tag.all (·.holds d.mediaType) &&
    c.tests.entries.all fun (key, constraint) => constraint.holds d key

def Clause.anyHolds (d : Device) (cs : List Clause) : Bool := cs.any (Clause.holds d)

/-- Whether a device matches a compiled query. A device with numbers that no device has is an
error, not a mismatch. -/
def Outcome.matches (o : Outcome) (d : Device) : Except DeviceError Bool := do
  d.validate
  return Clause.anyHolds d o.clauses

end MediaQuery
