import MediaQuery.Query.Feature

set_option autoImplicit false

namespace MediaQuery

mutual

/-- What may stand in one pair of parentheses. -/
inductive InParens where
  | condition (condition : Condition)
  | feature (feature : Feature)
  /-- Balanced text that is neither a condition nor a feature, kept as it is written. -/
  | enclosed (text : String)

/-- A condition; a single pair of parentheses is a conjunction of one. -/
inductive Condition where
  | and (items : List InParens)
  | or (items : List InParens)
  | not (item : InParens)

end

/-- The word that may stand in front of a media type. -/
inductive Qualifier where
  | not
  | only
deriving DecidableEq, Repr

/-- The medium that a query asks for. -/
inductive MediaType where
  | all
  | screen
  | print
  /-- A type that no device has. -/
  | other (name : String)
deriving DecidableEq, Repr

namespace MediaType

/-- The medium that a name in lower case stands for. -/
def ofName : String → MediaType
  | "all" => .all
  | "screen" => .screen
  | "print" => .print
  | name => .other name

def text : MediaType → String
  | .all => "all"
  | .screen => "screen"
  | .print => "print"
  | .other name => name

theorem text_ofName (name : String) : (ofName name).text = name := by
  unfold ofName; split <;> rfl

end MediaType

structure Query where
  qualifier : Option Qualifier
  mediaType : MediaType
  condition : Option Condition

namespace Query

def ofType (mediaType : MediaType) : Query := ⟨none, mediaType, none⟩

def ofCondition (condition : Condition) : Query := ⟨none, .all, some condition⟩

/-- Whether a query names no medium: it has no qualifier and asks for every medium. -/
def isBare (q : Query) : Bool := q.qualifier.isNone && q.mediaType == .all

end Query

/-- Queries of which at least one has to hold. -/
abbrev QueryList := List Query

def Condition.single (item : InParens) : Condition := .and [item]

mutual

/-- Equality with numbers compared by value. -/
def InParens.same : InParens → InParens → Bool
  | .condition c, .condition d => c.same d
  | .feature f, .feature g => f.same g
  | .enclosed s, .enclosed t => s == t
  | _, _ => false

def InParens.sameAll : List InParens → List InParens → Bool
  | [], [] => true
  | x :: xs, y :: ys => x.same y && InParens.sameAll xs ys
  | _, _ => false

def Condition.same : Condition → Condition → Bool
  | .and xs, .and ys => InParens.sameAll xs ys
  | .or xs, .or ys => InParens.sameAll xs ys
  | .not x, .not y => x.same y
  | _, _ => false

end

def Query.same (p q : Query) : Bool :=
  p.qualifier == q.qualifier && p.mediaType == q.mediaType &&
    match p.condition, q.condition with
    | some c, some d => c.same d
    | none, none => true
    | _, _ => false

def QueryList.same : QueryList → QueryList → Bool
  | [], [] => true
  | p :: ps, q :: qs => p.same q && QueryList.same ps qs
  | _, _ => false

end MediaQuery
