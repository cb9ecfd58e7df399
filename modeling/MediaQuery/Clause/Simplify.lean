import MediaQuery.Clause.Algebra

set_option autoImplicit false

namespace MediaQuery

namespace Constraint

def ofBoundedNumbers : Bounded Float → Constraint
  | .whole => .always
  | .nothing => .never
  | .part interval => .number interval

def ofBoundedRatios : Bounded Ratio → Constraint
  | .whole => .always
  | .nothing => .never
  | .part interval => .ratio interval

/-- Restricts a constraint to the domain of its feature. -/
def simplify : Constraint → Constraint
  | .number interval => ofBoundedNumbers (interval.bound numberDomain)
  | .ratio interval => ofBoundedRatios (interval.bound ratioDomain)
  | .gamut mask => if mask.isEmpty then .never else if mask.isFull then .always else .gamut mask
  | c => c

/-- Whether an intersection is there and is the same as the second interval. -/
def coversInterval {α : Type} [Endpoint α] (a b : Interval α) : Bool :=
  (a.inter? b).any fun common => common.sameAs b

/-- Whether all that the second constraint admits is admitted by the first. -/
def covers : Constraint → Constraint → Bool
  | .always, _ => true
  | _, .never => true
  | .discrete x, .discrete y => x == y
  | .gamut x, .gamut y => x.inter y == y
  | .number x, .number y => coversInterval x y
  | .ratio x, .ratio y => coversInterval x y
  | _, _ => false

end Constraint

namespace Clause

/-- Whether every device of the second clause is one of the first. -/
def covers (a b : Clause) : Bool :=
  (match a.tag with
    | none => true
    | some tag => b.tag == some tag) &&
  a.tests.entries.all fun (key, constraint) =>
    (b.tests.get? key).any fun other => constraint.covers other

/-- Whether a clause is implied by one that is kept in its place: by one in front of it, or by one
behind it that it does not imply in turn. -/
def isRedundant (before : List Clause) (c : Clause) (behind : List Clause) : Bool :=
  before.any (fun other => other.covers c) ||
    behind.any fun other => other.covers c && !c.covers other

/-- Drops the clauses that others imply; of equivalent clauses the first one stays. `before` holds
the clauses in front, kept or not. -/
def dropRedundant (before : List Clause) : List Clause → List Clause
  | [] => []
  | c :: behind =>
    if isRedundant before c behind then dropRedundant (c :: before) behind
    else c :: dropRedundant (c :: before) behind

/-- The constraints of a clause inside their domains, without those that ask for nothing. -/
def simplifyTests (tests : KeyMap Constraint) : KeyMap Constraint :=
  tests.filterMap fun _ constraint => match constraint.simplify with
    | .always => none
    | simple => some simple

def falseKeys (c : Clause) : List String :=
  (c.tests.filterMap fun _ constraint =>
    if constraint.simplify.isNever then some () else none).keys

/-- A readable clause inside the domains of its features; the tag `all` asks for nothing. -/
def simplify (c : Clause) : Clause :=
  ⟨c.tag.filter (· ≠ .all), [], simplifyTests c.tests⟩

end Clause

/-- A compiled query: clauses of which at least one has to hold, and what was left out of them. -/
structure Outcome where
  clauses : List Clause
  /-- The names and texts that were not understood, sorted. -/
  invalid : List String
  /-- The features of which the impossible was asked, sorted. -/
  falsified : List String

namespace Outcome

/-- The normal form of a disjunction of clauses. -/
def ofClauses (cs : List Clause) : Outcome :=
  let readable := cs.filter fun c => !c.isInvalid
  let possible := readable.filter fun c => c.falseKeys.isEmpty
  { clauses := Clause.dropRedundant [] (possible.map Clause.simplify)
    invalid := KeyMap.sortNames (cs.flatMap Clause.invalid)
    falsified := KeyMap.sortNames (readable.flatMap Clause.falseKeys) }

def neverMatches (o : Outcome) : Bool := o.clauses.isEmpty

def alwaysMatches (o : Outcome) : Bool :=
  o.clauses.any fun c => c.tests.isEmpty && c.tag.isNone

/-- The same clauses in any order, and the same lists beside them. -/
def same (a b : Outcome) : Bool :=
  a.invalid == b.invalid && a.falsified == b.falsified &&
    a.clauses.length == b.clauses.length &&
    a.clauses.all (fun c => b.clauses.any c.same) && b.clauses.all fun c => a.clauses.any c.same

end Outcome

end MediaQuery
