import MediaQuery.Profile.Basic

set_option autoImplicit false

namespace MediaQuery

def FeatureKind.text : FeatureKind → String
  | .discrete _ => "discrete"
  | .gamut => "gamut"
  | .numeric _ => "range"
  | .ratio => "ratio"
  | .orientation => "orientation"
  | .pixelRatio => "pixel-ratio"

namespace Knowledge

/-- That a feature is of another kind than the knowledge about it. -/
def kindProblem (spec : FeatureSpec) : String :=
  "'" ++ spec.name ++ "' is a " ++ spec.kind.text ++ " feature"

/-- The first word that is no value of a feature. -/
def valueProblem? (spec : FeatureSpec) (values : List String) : Option String :=
  (values.find? fun v => !spec.valueNames.contains v).map fun v =>
    "unknown value '" ++ v ++ "': valid values are " ++ ", ".intercalate spec.valueNames

/-- What is wrong with the knowledge about a feature. -/
def problem? (name : String) (k : Knowledge) : Option String :=
  match k, FeatureTable.lookup? name with
  | .discrete [] _, _ => some "discrete feature needs at least one value"
  | .discrete _ _, none => none
  | .discrete values _, some spec =>
    if spec.isRange then some (kindProblem spec) else valueProblem? spec values
  | .range .., some spec => if spec.isRange then none else some (kindProblem spec)
  | .range .., none => none

end Knowledge

namespace Metrics

def lengths (m : Metrics) : List (String × Float) :=
  [("widthPx", m.widthPx), ("heightPx", m.heightPx), ("emPx", m.emPx), ("remPx", m.remPx),
   ("exPx", m.exPx), ("chPx", m.chPx), ("capPx", m.capPx), ("icPx", m.icPx), ("lhPx", m.lhPx),
   ("rlhPx", m.rlhPx)]

def problems (m : Metrics) : List String :=
  m.lengths.filterMap fun (name, x) =>
    if !Number.isFinite x || Number.isNegative x then
      some ("units." ++ name ++ ": " ++ Decimal.proseText x ++ " is not a non-negative number")
    else none

end Metrics

namespace Profile

def deviceProblems (p : Profile) : List String :=
  match p.environment.validate with
  | .ok () => []
  | .error e => ["environment: " ++ e.message]

/-- What is wrong with what is known of features, in the order of their names. -/
def knowledgeProblems (p : Profile) : List String :=
  p.solver.features.entries.filterMap fun (name, k) =>
    (k.problem? name).map fun problem => "solver.features." ++ name ++ ": " ++ problem

def problems (p : Profile) : List String :=
  p.deviceProblems ++ p.units.problems ++ p.knowledgeProblems

end Profile

end MediaQuery
