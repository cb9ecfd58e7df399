import MediaQuery.Solver.Basic

set_option autoImplicit false

namespace MediaQuery

/-- What a profile says to the solver. -/
structure SolverSettings where
  isMediaTypeScreen : Kleene := .unknown
  isLegacyBrowser : Kleene := .no
  /-- What is known beyond the features of the table, or other than they have it. -/
  features : KeyMap Knowledge := KeyMap.empty

/-- The metrics, the device and the solver settings of a user. -/
structure Profile where
  units : Metrics := {}
  environment : Device := {}
  solver : SolverSettings := {}

namespace Profile

/-- A solver that goes by the settings alone. -/
def settingsConfig (p : Profile) : SolverConfig :=
  SolverConfig.withKnown
    { isScreen := p.solver.isMediaTypeScreen
      isLegacy := p.solver.isLegacyBrowser
      metrics := p.units }
    p.solver.features

def deviceConfig (p : Profile) : SolverConfig :=
  SolverConfig.withKnown
    { SolverConfig.ofDevice p.environment p.units with isLegacy := p.solver.isLegacyBrowser }
    p.solver.features

end Profile

end MediaQuery
