import MediaQuery.Compile
import MediaQuery.Device.Basic
import MediaQuery.Kleene
import MediaQuery.Query.Printer

set_option autoImplicit false

namespace MediaQuery

/-- A remark beside an answer. -/
inductive Notice where
  /-- A test without a meaning, and the known name that may be meant. -/
  | unreadableFeature (feature : Feature) (suggestion : Option String)
  | unreadableText (text : String)
  | compiled (list : QueryList) (clauses raw invalid falsified : Nat)
  | solved (list : QueryList) (verdict : Kleene)
  | undecided (feature : Feature) (error : DeviceError)
  | loaded (file : String)

namespace Notice

/-- How much a notice matters. -/
inductive Level where
  | warn
  | debug
deriving DecidableEq, Repr

/-- Only what was done as it should be is of the lower level. -/
def level : Notice → Level
  | .unreadableFeature .. | .unreadableText _ | .undecided .. => .warn
  | .compiled .. | .solved .. | .loaded _ => .debug

def text : Notice → String
  | .unreadableFeature feature (some name) =>
    "invalid media feature " ++ feature.text ++ " (did you mean '" ++ name ++ "'?)"
  | .unreadableFeature feature none => "invalid media feature " ++ feature.text
  | .unreadableText text => "unrecognised media condition " ++ text
  | .compiled list clauses raw invalid falsified =>
    "compiled '" ++ list.text ++ "' to " ++ toString clauses ++ " clause(s) (" ++ toString raw ++
      " raw, " ++ toString invalid ++ " invalid, " ++ toString falsified ++ " false)"
  | .solved list verdict => "solved '" ++ list.text ++ "' as " ++ verdict.text
  | .undecided feature error => "cannot decide " ++ feature.text ++ ": " ++ error.message
  | .loaded file => "loaded profile from " ++ file

end Notice

/-- The notices of compiling a feature. A name is only suggested for one that is not known. -/
def Feature.notices (m : Metrics) (f : Feature) : List Notice :=
  if f.isUnreadable m then
    let suggestion := if (FeatureTable.resolve? f.name).isNone then
        (FeatureTable.suggest? f.name).filter (· ≠ f.name)
      else none
    [.unreadableFeature f suggestion]
  else []

mutual

def InParens.notices (m : Metrics) : InParens → List Notice
  | .condition condition => condition.notices m
  | .feature feature => feature.notices m
  | .enclosed text => [.unreadableText text]

def InParens.allNotices (m : Metrics) : List InParens → List Notice
  | [] => []
  | item :: items => item.notices m ++ InParens.allNotices m items

def Condition.notices (m : Metrics) : Condition → List Notice
  | .and items => InParens.allNotices m items
  | .or items => InParens.allNotices m items
  | .not item => item.notices m

end

/-- The notices of compiling a query; its condition is read also where its medium has no
devices. -/
def Query.notices (m : Metrics) (q : Query) : List Notice :=
  (q.condition.map (Condition.notices m)).getD []

def QueryList.clauseNotices (m : Metrics) (list : QueryList) : List Notice :=
  list.flatMap (Query.notices m)

/-- The notices of compiling a list. -/
def QueryList.notices (m : Metrics) (list : QueryList) : List Notice :=
  let outcome := list.compile m
  list.clauseNotices m ++
    [.compiled list outcome.clauses.length (list.clauses m).length outcome.invalid.length
      outcome.falsified.length]

end MediaQuery
