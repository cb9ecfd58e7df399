import MediaQuery.Clause.OfFeature
import MediaQuery.Clause.Simplify
import MediaQuery.Query.Tree

set_option autoImplicit false

namespace MediaQuery

mutual

/-- The clauses of an item. Text that is no condition and no feature is not understood. -/
def InParens.clauses (m : Metrics) : InParens → List Clause
  | .condition condition => condition.clauses m
  | .feature feature => feature.clauses m
  | .enclosed text => [Clause.unreadable text]

/-- The clauses of all items together, in a product that begins with `done`. -/
def InParens.allClauses (m : Metrics) (done : List Clause) : List InParens → List Clause
  | [] => done
  | item :: items => InParens.allClauses m (Clause.product done (item.clauses m)) items

def InParens.anyClauses (m : Metrics) : List InParens → List Clause
  | [] => []
  | item :: items => item.clauses m ++ InParens.anyClauses m items

/-- The clauses of a condition. -/
def Condition.clauses (m : Metrics) : Condition → List Clause
  | .and items => InParens.allClauses m [Clause.top] items
  | .or items => InParens.anyClauses m items
  | .not item => Clause.negateAll (item.clauses m)

end

/-- The tag of a medium; no clause holds for a medium that no device has. -/
def MediaType.tag? : MediaType → Option MediaTag
  | .all => some .all
  | .screen => some .screen
  | .print => some .print
  | .other _ => none

def MediaType.negated : MediaType → List Clause
  | .all => []
  | .screen => [Clause.top.tagged .notScreen]
  | .print => [Clause.top.tagged .notPrint]
  | .other _ => [Clause.top]

namespace Query

/-- The clauses of a query. A negated query holds outside of its medium, or where its condition
fails. -/
def clauses (m : Metrics) (q : Query) : List Clause :=
  let condition := q.condition.map (Condition.clauses m)
  match q.qualifier with
  | some .not =>
    q.mediaType.negated ++
      ((condition.map Clause.negateAll).getD []).map fun c => c.tagged .all
  | _ => match q.mediaType.tag? with
    | some tag => (condition.getD [Clause.top]).map fun c => c.tagged tag
    | none => []

end Query

namespace QueryList

/-- The clauses of all queries, before they are simplified. -/
def clauses (m : Metrics) (list : QueryList) : List Clause := list.flatMap (Query.clauses m)

/-- Compiles a list of queries. -/
def compile (m : Metrics) (list : QueryList) : Outcome := Outcome.ofClauses (list.clauses m)

end QueryList

end MediaQuery
