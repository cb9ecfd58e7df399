import MediaQuery.Number

set_option autoImplicit false

/- Intervals between two ends, each of which may belong to it or not, and their algebra:
intersection, restriction to a domain, complement inside a domain, and union. All of it looks at the
ends through one comparison, so ends on the same level are never told apart. -/
namespace MediaQuery

/-- Values that may be the ends of an interval. -/
class Endpoint (α : Type) where
  /-- The comparison that the algebra uses. -/
  compare : α → α → Ordering
  negInfinity : α
  infinity : α
  zero : α

instance : Endpoint Float where
  compare := Number.order
  negInfinity := Number.negInfinity
  infinity := Number.infinity
  zero := 0

/-- The values between two ends. It is empty if the ends cross, or meet and do not both belong
to it. -/
structure Interval (α : Type) where
  minInclusive : Bool
  min : α
  max : α
  maxInclusive : Bool

/-- What is left of an interval in a domain. -/
inductive Bounded (α : Type) where
  /-- The whole domain. -/
  | whole
  /-- Nothing. -/
  | nothing
  | part (interval : Interval α)

namespace Interval

variable {α : Type}

def beq (same : α → α → Bool) (a b : Interval α) : Bool :=
  a.minInclusive == b.minInclusive && same a.min b.min && same a.max b.max &&
    a.maxInclusive == b.maxInclusive

variable [Endpoint α]

/-- All values. -/
def unbounded : Interval α := ⟨true, Endpoint.negInfinity, Endpoint.infinity, true⟩

def nonNegative : Interval α := ⟨true, Endpoint.zero, Endpoint.infinity, true⟩

def exact (value : α) : Interval α := ⟨true, value, value, true⟩

/-- All values above a value, and that value if it is included. -/
def atLeast (value : α) (inclusive : Bool) : Interval α :=
  ⟨inclusive, value, Endpoint.infinity, true⟩

def atMost (value : α) (inclusive : Bool) : Interval α :=
  ⟨true, Endpoint.negInfinity, value, inclusive⟩

/-- Whether no value can lie between the ends. -/
def isEmpty (a : Interval α) : Bool :=
  match Endpoint.compare a.min a.max with
  | .gt => true
  | .eq => !(a.minInclusive && a.maxInclusive)
  | .lt => false

def aboveMin (a : Interval α) (value : α) : Bool :=
  match Endpoint.compare value a.min with
  | .gt => true
  | .eq => a.minInclusive
  | .lt => false

def belowMax (a : Interval α) (value : α) : Bool :=
  match Endpoint.compare value a.max with
  | .lt => true
  | .eq => a.maxInclusive
  | .gt => false

def contains (a : Interval α) (value : α) : Bool := a.aboveMin value && a.belowMax value

/-- Whether both ends are on the same level and belong to both intervals or to none. -/
def sameAs (a b : Interval α) : Bool :=
  a.minInclusive == b.minInclusive && a.maxInclusive == b.maxInclusive &&
    Endpoint.compare a.min b.min == .eq && Endpoint.compare a.max b.max == .eq

/-- The larger lower end; on one level it belongs to the result iff it belongs to both. -/
def lowerEnd (a b : Interval α) : Bool × α :=
  match Endpoint.compare a.min b.min with
  | .gt => (a.minInclusive, a.min)
  | .lt => (b.minInclusive, b.min)
  | .eq => (a.minInclusive && b.minInclusive, a.min)

def upperEnd (a b : Interval α) : α × Bool :=
  match Endpoint.compare a.max b.max with
  | .lt => (a.max, a.maxInclusive)
  | .gt => (b.max, b.maxInclusive)
  | .eq => (a.max, a.maxInclusive && b.maxInclusive)

def overlap (a b : Interval α) : Interval α :=
  ⟨(lowerEnd a b).1, (lowerEnd a b).2, (upperEnd a b).1, (upperEnd a b).2⟩

def inter? (a b : Interval α) : Option (Interval α) :=
  if (overlap a b).isEmpty then none else some (overlap a b)

def bound (a domain : Interval α) : Bounded α :=
  match inter? a domain with
  | none => .nothing
  | some part => if part.sameAs domain then .whole else .part part

/-- The values of a domain below an interval and those above it, as far as there are any. -/
def complement (a domain : Interval α) : List (Interval α) :=
  [⟨domain.minInclusive, domain.min, a.min, !a.minInclusive⟩,
   ⟨!a.maxInclusive, a.max, domain.max, domain.maxInclusive⟩].filterMap (inter? · domain)

/-- Two intervals by their lower ends, the one that begins first in front. -/
def inOrder (a b : Interval α) : Interval α × Interval α :=
  match Endpoint.compare a.min b.min with
  | .gt => (b, a)
  | .eq => if b.minInclusive && !a.minInclusive then (b, a) else (a, b)
  | .lt => (a, b)

/-- Whether no value lies between two intervals in order. -/
def joins (low high : Interval α) : Bool :=
  match Endpoint.compare low.max high.min with
  | .gt => true
  | .eq => low.maxInclusive || high.minInclusive
  | .lt => false

def cover (low high : Interval α) : Interval α :=
  match Endpoint.compare low.max high.max with
  | .gt => ⟨low.minInclusive, low.min, low.max, low.maxInclusive⟩
  | .lt => ⟨low.minInclusive, low.min, high.max, high.maxInclusive⟩
  | .eq => ⟨low.minInclusive, low.min, low.max, low.maxInclusive || high.maxInclusive⟩

/-- The union: one interval if the two overlap or touch, else both. -/
def union (a b : Interval α) : List (Interval α) :=
  if a.isEmpty then [b]
  else if b.isEmpty then [a]
  else
    let (low, high) := inOrder a b
    if joins low high then [cover low high] else [low, high]

theorem inter?_eq_some {a b c : Interval α} (h : inter? a b = some c) :
    c = overlap a b ∧ c.isEmpty = false := by
  unfold inter? at h
  split at h
  · simp at h
  · simp only [Option.some.injEq] at h
    subst h
    simp_all

theorem isEmpty_of_inter?_eq_none {a b : Interval α} (h : inter? a b = none) :
    (overlap a b).isEmpty = true := by
  unfold inter? at h
  split at h <;> simp_all

end Interval

end MediaQuery
