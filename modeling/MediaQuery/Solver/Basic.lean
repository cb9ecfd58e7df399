import MediaQuery.Device.Matching
import MediaQuery.Notice
import MediaQuery.Solver.Knowledge

set_option autoImplicit false

namespace MediaQuery

/-- Who answers for what cannot be decided. -/
structure Oracle where
  /-- The answer for a test whose verdict depends on the device. -/
  feature : Feature → Kleene
  /-- The answer for text that is no condition and no feature. -/
  enclosed : String → Kleene
  /-- What the oracle has to say beside its answer for a test. -/
  notices : Feature → List Notice := fun _ => []

namespace Oracle

def silent : Oracle := { feature := fun _ => .unknown, enclosed := fun _ => .unknown }

/-- Compiles a test and matches it against a device; text holds on no device. -/
def ofDevice (d : Device) (m : Metrics) : Oracle where
  feature := fun f => match (Outcome.ofClauses (f.clauses m)).matches d with
    | .ok verdict => Kleene.ofBool verdict
    | .error _ => .unknown
  enclosed := fun _ => .no
  notices := fun f => f.notices m ++ match d.validate with
    | .ok () => []
    | .error error => [.undecided f error]

end Oracle

/-- What a solver knows and whom it asks. -/
structure SolverConfig where
  known : KeyMap Knowledge := Knowledge.builtIn
  isScreen : Kleene := .unknown
  /-- Whether queries with `only` in front of the medium are ignored. -/
  isLegacy : Kleene := .no
  metrics : Metrics := {}
  oracle : Oracle := Oracle.silent

namespace SolverConfig

def ofDevice (d : Device) (m : Metrics) : SolverConfig :=
  { isScreen := Kleene.ofBool (d.mediaType == .screen)
    metrics := m
    oracle := Oracle.ofDevice d m }

def withKnown (c : SolverConfig) (more : KeyMap Knowledge) : SolverConfig :=
  { c with known := c.known.merge (fun _ new => new) more }

end SolverConfig

/-- What becomes of a test: its verdict, or a test for the oracle. -/
inductive Demand where
  | decided (verdict : Kleene)
  | ask (feature : Feature)

/-- Something that the oracle is asked. -/
inductive Question where
  | feature (feature : Feature)
  | enclosed (text : String)

def Oracle.answer (o : Oracle) : Question → Kleene
  | .feature f => o.feature f
  | .enclosed text => o.enclosed text

namespace Demand

def verdict (o : Oracle) : Demand → Kleene
  | .decided verdict => verdict
  | .ask feature => o.feature feature

def question? : Demand → Option Question
  | .decided _ => none
  | .ask feature => some (.feature feature)

end Demand

/-- The verdict on a comparison of a number from zero on with a value, where it is the same for
all such numbers. Zero itself is among them only if it is possible. -/
def Comparison.decide? (op : Comparison) (canBeZero : Bool) (value : Float) : Option Kleene :=
  let below := Number.isNegative value || (Number.isZero value && !canBeZero)
  let atMostZero := Number.isNegative value || Number.isZero value
  let infinite := Number.same value Number.infinity
  match op with
  | .eq => if below then some .no else none
  | .gt => if below then some .yes else if infinite then some .no else none
  | .ge => if atMostZero then some .yes else none
  | .lt => if atMostZero then some .no else none
  | .le => if below then some .no else if infinite then some .yes else none

/-- The number that a value stands for in the unit of a feature; a word stands for one only if it
is among the extra values, and except for `infinite` it is not known which. -/
def Value.inRange? (m : Metrics) (kind : RangeKind) (extraValues : List String)
    (value : Value) : Option Float :=
  match value with
  | .ident name =>
    if extraValues.contains name then
      some (if name = "infinite" then Number.infinity else Number.nan)
    else none
  | value =>
    let quantity := Quantity.ofValue m value
    match kind with
    | .integer => quantity.integer?
    | .number => quantity.number?
    | .length => quantity.length?
    | .resolution => match quantity with
      | .resolution dppx => some dppx
      | _ => none
    | .ratio => match quantity with
      | .number x _ => some x
      | .ratio _ => quantity.ratio?.map Ratio.quotient
      | _ => none

/-- The text of a value that may be among those of a discrete feature. -/
def Value.discreteText? : Value → Option String
  | .ident name => some name
  | value => value.integer?.map toString

def Limit.comparison : Limit → Comparison
  | .min => .ge
  | .max => .le

namespace Feature

/-- What becomes of the comparison of a feature with a value; `asked` is the test that is put to
the oracle. -/
def compareDemand (m : Metrics) (knowledge : Knowledge) (asked : Feature) (op : Comparison)
    (value : Value) : Demand :=
  match knowledge with
  | .discrete .. => .decided .no
  | .range kind canBeZero canBeNegative extraValues =>
    match value.inRange? m kind extraValues with
    | none => .decided .no
    | some x =>
      if Number.isNaN x || canBeNegative then .ask asked
      else match op.decide? canBeZero x with
        | some verdict => .decided verdict
        | none => .ask asked

def knownDemands (m : Metrics) (knowledge : Knowledge) (f : Feature) : List Demand :=
  match f, knowledge with
  | .boolean _, _ => if knowledge.canBeFalsy then [.ask f] else [.decided .yes]
  | .plain _ value, .discrete values _ =>
    if value.discreteText?.any values.contains then [.ask f] else [.decided .no]
  | .plain _ value, .range .. => [compareDemand m knowledge f .eq value]
  | .range _ none none, _ => [.decided .no]
  | .range name none (some (op, value)), _ =>
    [compareDemand m knowledge (compare name op value) op value]
  | .range name (some (value, op)) none, _ =>
    [compareDemand m knowledge (compare name op.flip value) op.flip value]
  | .range name (some (low, lowOp)) (some (highOp, high)), .range .. =>
    [compareDemand m knowledge (compare name lowOp.flip low) lowOp.flip low,
     compareDemand m knowledge (compare name highOp high) highOp high]
  | .range _ (some _) (some _), .discrete .. => [.decided .no]

/-- What becomes of a test of a feature of which nothing is known: a limit and a value are the
comparison of the feature without the limit, if that one is known to have numbers. -/
def unknownDemands (known : KeyMap Knowledge) (m : Metrics) : Feature → List Demand
  | .plain name value =>
    match FeatureTable.splitLimit? name with
    | some (limit, base) => match known.get? base with
      | some (.range kind canBeZero canBeNegative extraValues) =>
        [compareDemand m (.range kind canBeZero canBeNegative extraValues)
          (compare base limit.comparison value) limit.comparison value]
      | _ => [.decided .no]
    | none => [.decided .no]
  | _ => [.decided .no]

/-- What becomes of a test: one demand, or two that both have to hold. -/
def demands (known : KeyMap Knowledge) (m : Metrics) (f : Feature) : List Demand :=
  match known.get? f.name with
  | some knowledge => f.knownDemands m knowledge
  | none => f.unknownDemands known m

def verdict (c : SolverConfig) (f : Feature) : Kleene :=
  Kleene.all ((f.demands c.known c.metrics).map (Demand.verdict c.oracle))

def questions (c : SolverConfig) (f : Feature) : List Question :=
  (f.demands c.known c.metrics).filterMap Demand.question?

end Feature

mutual

def InParens.verdict (c : SolverConfig) : InParens → Kleene
  | .condition condition => condition.verdict c
  | .feature feature => feature.verdict c
  | .enclosed text => c.oracle.enclosed text

def InParens.allVerdict (c : SolverConfig) : List InParens → Kleene
  | [] => .yes
  | item :: items => (item.verdict c).and (InParens.allVerdict c items)

def InParens.anyVerdict (c : SolverConfig) : List InParens → Kleene
  | [] => .no
  | item :: items => (item.verdict c).or (InParens.anyVerdict c items)

def Condition.verdict (c : SolverConfig) : Condition → Kleene
  | .and items => InParens.allVerdict c items
  | .or items => InParens.anyVerdict c items
  | .not item => (item.verdict c).not

end

mutual

def InParens.questions (c : SolverConfig) : InParens → List Question
  | .condition condition => condition.questions c
  | .feature feature => feature.questions c
  | .enclosed text => [.enclosed text]

/-- The questions that some items lead to. Every item is looked at, whatever the verdict. -/
def InParens.allQuestions (c : SolverConfig) : List InParens → List Question
  | [] => []
  | item :: items => item.questions c ++ InParens.allQuestions c items

def Condition.questions (c : SolverConfig) : Condition → List Question
  | .and items => InParens.allQuestions c items
  | .or items => InParens.allQuestions c items
  | .not item => item.questions c

end

def MediaType.verdict (isScreen : Kleene) : MediaType → Kleene
  | .all => .yes
  | .screen => isScreen
  | .print => isScreen.not
  | .other _ => .no

namespace Query

def verdict (c : SolverConfig) (q : Query) : Kleene :=
  let condition := (q.condition.map (Condition.verdict c)).getD .yes
  let both := (q.mediaType.verdict c.isScreen).and condition
  match q.qualifier with
  | some .not => both.not
  | some .only => both.and c.isLegacy.not
  | none => both

/-- The questions that a query leads to. Its condition is looked at whatever its medium is. -/
def questions (c : SolverConfig) (q : Query) : List Question :=
  (q.condition.map (Condition.questions c)).getD []

end Query

namespace QueryList

def verdict (c : SolverConfig) (list : QueryList) : Kleene :=
  Kleene.any (list.map (Query.verdict c))

/-- The questions that a list leads to. After the first query that holds, no other is looked
at. -/
def questions (c : SolverConfig) : QueryList → List Question
  | [] => []
  | q :: qs => q.questions c ++ if q.verdict c = .yes then [] else questions c qs

end QueryList

def Question.notices (o : Oracle) : Question → List Notice
  | .feature f => o.notices f
  | .enclosed _ => []

def QueryList.solveNotices (c : SolverConfig) (list : QueryList) : List Notice :=
  (list.questions c).flatMap (Question.notices c.oracle) ++ [.solved list (list.verdict c)]

end MediaQuery
