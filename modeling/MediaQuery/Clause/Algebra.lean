import MediaQuery.Clause.Basic

set_option autoImplicit false

/- The Boolean operations on clauses. A list of clauses is a disjunction, so a conjunction of lists
is the product of their clauses, and a negation turns each clause into a list with one clause for
each of its constraints. -/
namespace MediaQuery

def numberDomain : Interval Float := Interval.nonNegative

def ratioDomain : Interval Ratio := Interval.nonNegative

namespace Constraint

def ofNumbers? : Option (Interval Float) → Constraint
  | some interval => .number interval
  | none => .never

def ofRatios? : Option (Interval Ratio) → Constraint
  | some interval => .ratio interval
  | none => .never

/-- What is asked by two constraints together. Constraints of different kinds contradict. -/
def inter : Constraint → Constraint → Constraint
  | .never, _ => .never
  | _, .never => .never
  | .always, b => b
  | a, .always => a
  | .discrete x, .discrete y => if x = y then .discrete x else .never
  | .gamut x, .gamut y => .gamut (x.inter y)
  | .number x, .number y => ofNumbers? (x.inter? y)
  | .ratio x, .ratio y => ofRatios? (x.inter? y)
  | _, _ => .never

/-- The constraints on a feature of which one holds exactly where the given one fails; a discrete
value needs a feature whose values are known. -/
def negate (key : String) : Constraint → List Clause
  | .always => []
  | .never => [Clause.top]
  | .discrete value => match (FeatureTable.lookup? key).map FeatureSpec.kind with
    | some (.discrete values) =>
      (values.filter (· ≠ value)).map fun other => Clause.single key (.discrete other)
    | _ => [Clause.unreadable key]
  | .gamut mask => [Clause.single key (.gamut mask.complement)]
  | .number interval =>
    (interval.complement numberDomain).map fun part => Clause.single key (.number part)
  | .ratio interval =>
    (interval.complement ratioDomain).map fun part => Clause.single key (.ratio part)

/-- Whether a constraint plainly admits nothing. -/
def isContradiction : Constraint → Bool
  | .never => true
  | .gamut mask => mask.isEmpty
  | _ => false

end Constraint

namespace Clause

/-- Both clauses at once. The tag of the second one wins over that of the first. -/
def and (a b : Clause) : Clause :=
  ⟨b.tag <|> a.tag, a.invalid ++ b.invalid, a.tests.merge Constraint.inter b.tests⟩

/-- Each clause of the first list with each of the second. -/
def product (as bs : List Clause) : List Clause := as.flatMap fun a => bs.map fun b => a.and b

/-- The clauses of which one holds exactly where a clause fails. A clause that was not understood
stays so, and the tag is left out. -/
def negate (c : Clause) : List Clause :=
  if c.isInvalid then [{ top with invalid := c.invalid }]
  else if c.tests.values.any Constraint.isNever then [top]
  else c.tests.entries.flatMap fun (key, constraint) => constraint.negate key

/-- Whether some constraint plainly admits nothing. -/
def isContradiction (c : Clause) : Bool := c.tests.values.any Constraint.isContradiction

/-- Drops the clauses that contradict themselves, unless they were not understood. -/
def dropContradictions (cs : List Clause) : List Clause :=
  cs.filter fun c => c.isInvalid || !c.isContradiction

/-- The clauses of which one holds exactly where all of the given ones fail. -/
def negateAll (cs : List Clause) : List Clause :=
  cs.foldl (fun done c => dropContradictions (product done c.negate)) [top]

@[simp] theorem product_nil (as : List Clause) : product as [] = [] := by
  simp [product]

@[simp] theorem nil_product (bs : List Clause) : product [] bs = [] := rfl

theorem mem_product {as bs : List Clause} {c : Clause} :
    c ∈ product as bs ↔ ∃ a ∈ as, ∃ b ∈ bs, a.and b = c := by
  simp [product, List.mem_flatMap]

theorem isInvalid_and (a b : Clause) : (a.and b).isInvalid = (a.isInvalid || b.isInvalid) := by
  cases ha : a.invalid <;> simp [isInvalid, and, ha]

end Clause

end MediaQuery
