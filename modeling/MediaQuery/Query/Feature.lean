import MediaQuery.Number

set_option autoImplicit false

namespace MediaQuery

inductive Comparison where
  | lt
  | le
  | gt
  | ge
  | eq
deriving DecidableEq, Repr

namespace Comparison

def text : Comparison → String
  | .lt => "<"
  | .le => "<="
  | .gt => ">"
  | .ge => ">="
  | .eq => "="

def ofText? : String → Option Comparison
  | "<" => some .lt
  | "<=" => some .le
  | ">" => some .gt
  | ">=" => some .ge
  | "=" => some .eq
  | _ => none

/-- The operator that holds when the two sides change places. -/
def flip : Comparison → Comparison
  | .lt => .gt
  | .le => .ge
  | .gt => .lt
  | .ge => .le
  | .eq => .eq

def isLess : Comparison → Bool
  | .lt | .le => true
  | _ => false

def isGreater : Comparison → Bool
  | .gt | .ge => true
  | _ => false

def accepts : Comparison → Ordering → Bool
  | .lt, o => o == .lt
  | .le, o => o != .gt
  | .gt, o => o == .gt
  | .ge, o => o != .lt
  | .eq, o => o == .eq

theorem ofText?_text (op : Comparison) : ofText? op.text = some op := by cases op <;> rfl

theorem flip_flip (op : Comparison) : op.flip.flip = op := by cases op <;> rfl

theorem accepts_flip (op : Comparison) (o : Ordering) : op.flip.accepts o = op.accepts o.swap := by
  cases op <;> cases o <;> rfl

end Comparison

inductive Value where
  /-- A plain number; `integer` is false when it is written with a fraction or a power. -/
  | number (value : Float) (integer : Bool)
  /-- A number with a unit. -/
  | dimension (value : Float) (unit : String)
  /-- Two numbers with a slash between them. -/
  | ratio (numerator denominator : Float)
  /-- A name in lower case. -/
  | ident (name : String)

namespace Value

/-- A number that counts as an integer iff it is whole. -/
def ofNumber (value : Float) : Value := .number value (Number.isWhole value)

def ident? : Value → Option String
  | .ident name => some name
  | _ => none

/-- The whole part of a number that is written as an integer, within a signed word. -/
def integer? : Value → Option Int
  | .number value true => some (Number.toWord value)
  | _ => none

/-- Equality with numbers compared by value. -/
def same : Value → Value → Bool
  | .number x i, .number y j => Number.same x y && i == j
  | .dimension x u, .dimension y v => Number.same x y && u == v
  | .ratio a b, .ratio c d => Number.same a c && Number.same b d
  | .ident x, .ident y => x == y
  | _, _ => false

end Value

inductive Feature where
  /-- The name alone. -/
  | boolean (name : String)
  /-- A name and a value behind a colon; the name may begin with `min-` or `max-`. -/
  | plain (name : String) (value : Value)
  /-- A name compared with a value on one side or on both. -/
  | range (name : String) (left : Option (Value × Comparison))
      (right : Option (Comparison × Value))

namespace Feature

def name : Feature → String
  | .boolean name | .plain name _ | .range name _ _ => name

def compare (name : String) (op : Comparison) (value : Value) : Feature :=
  .range name none (some (op, value))

def same : Feature → Feature → Bool
  | .boolean x, .boolean y => x == y
  | .plain x v, .plain y w => x == y && v.same w
  | .range x l r, .range y m s =>
    x == y &&
      (match l, m with
        | some (v, op), some (w, op') => v.same w && op == op'
        | none, none => true
        | _, _ => false) &&
      (match r, s with
        | some (op, v), some (op', w) => op == op' && v.same w
        | none, none => true
        | _, _ => false)
  | _, _ => false

end Feature

end MediaQuery
