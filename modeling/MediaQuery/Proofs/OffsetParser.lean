import MediaQuery.Proofs.Partner
import MediaQuery.Proofs.Parser

set_option autoImplicit false

namespace MediaQuery

namespace ByOffset

open Access

section Tests

/-- The positions of the operators among some tokens, the first of which stands at `i`. -/
def operators (i : Nat) : List Token → List Nat
  | [] => []
  | t :: ts => if t.comparison?.isSome then i :: operators (i + 1) ts else operators (i + 1) ts

/-- A test with one or two operators. -/
def rangeTest (ts : List Token) : Access (Option Feature) :=
  match operators 0 ts with
  | [i] => do
    let o ← find ts[i]?
    match o.comparison? with
    | none => return none
    | some op => do
      let before ← part ts 0 i
      let behind ← part ts (i + 1) ts.length
      match Feature.soleName? before with
      | some name => return (Value.ofTokens? behind).map (.compare name op)
      | none => return do
        let name ← Feature.soleName? behind
        let value ← Value.ofTokens? before
        return .range name (some (value, op)) none
  | [i, j] => do
    let o ← find ts[i]?
    let p ← find ts[j]?
    match o.comparison?, p.comparison? with
    | some low, some high =>
      if Feature.sameDirection low high then do
        let middle ← part ts (i + 1) j
        let before ← part ts 0 i
        let behind ← part ts (j + 1) ts.length
        return do
          let name ← Feature.soleName? middle
          let left ← Value.ofTokens? before
          let right ← Value.ofTokens? behind
          return .range name (some (left, low)) (some (high, right))
      else return none
    | _, _ => return none
  | _ => return none

def test (ts : List Token) : Access (Option Feature) :=
  match ts with
  | [t] => return t.ident?.map .boolean
  | t :: u :: rest => match u.kind with
    | .colon => return do
      let name ← t.ident?
      let value ← Value.ofTokens? rest
      return .plain name value
    | _ => rangeTest (t :: u :: rest)
  | [] => rangeTest []

variable {before ts : List Token} {o : Token} {op : Comparison}

theorem operators_of_quiet (quiet : ∀ t ∈ before, t.comparison? = none) (i : Nat) :
    operators i (before ++ ts) = operators (i + before.length) ts := by
  induction before generalizing i with
  | nil => rfl
  | cons t before ih =>
    rw [List.forall_mem_cons] at quiet
    have none : ¬t.comparison?.isSome = true := by simp [quiet.1]
    rw [List.cons_append, operators, if_neg none, ih quiet.2, List.length_cons, Nat.add_assoc,
      Nat.add_comm 1]

theorem operators_at (quiet : ∀ t ∈ before, t.comparison? = none)
    (compares : o.comparison? = some op) (i : Nat) :
    operators i (before ++ o :: ts) =
      (i + before.length) :: operators (i + before.length + 1) ts := by
  have some : o.comparison?.isSome = true := by rw [compares]; rfl
  rw [operators_of_quiet quiet, operators, if_pos some]

theorem operators_eq_nil (quiet : ∀ t ∈ ts, t.comparison? = none) (i : Nat) :
    operators i ts = [] := by
  rw [← List.append_nil ts, operators_of_quiet quiet, operators]

theorem parts_at (before behind : List Token) (o : Token) :
    (before ++ o :: behind)[before.length]? = some o ∧
      part (before ++ o :: behind) 0 before.length = pure before ∧
      part (before ++ o :: behind) (before.length + 1) (before ++ o :: behind).length =
        pure behind := by
  refine ⟨by simp, ?_, ?_⟩
  · have front := part_append [] before (o :: behind)
    rwa [List.nil_append, List.length_nil, Nat.zero_add] at front
  · have rest := part_append (before ++ [o]) behind []
    simpa [Nat.add_assoc, Nat.add_comm 1] using rest

theorem parts_at_second (before middle behind : List Token) (o p : Token) :
    (before ++ o :: (middle ++ p :: behind))[before.length + 1 + middle.length]? = some p ∧
      part (before ++ o :: (middle ++ p :: behind)) (before.length + 1)
        (before.length + 1 + middle.length) = pure middle ∧
      part (before ++ o :: (middle ++ p :: behind)) (before.length + 1 + middle.length + 1)
        (before ++ o :: (middle ++ p :: behind)).length = pure behind := by
  have whole : before ++ o :: (middle ++ p :: behind) = (before ++ o :: middle) ++ p :: behind := by
    simp
  have place : (before ++ o :: middle).length = before.length + 1 + middle.length := by
    rw [List.length_append, List.length_cons]
    omega
  obtain ⟨there, -, last⟩ := parts_at (before ++ o :: middle) behind p
  rw [← whole, place] at there last
  have inner := part_append (before ++ [o]) middle (p :: behind)
  rw [List.append_assoc, List.singleton_append, List.length_append, List.length_singleton] at inner
  exact ⟨there, inner, last⟩

/-- Reading between operators by position is reading what they divide. -/
theorem rangeTest_eq (ts : List Token) :
    rangeTest ts = pure (Feature.ofDivided? (Feature.divide ts)) := by
  cases divided : Feature.divide ts with
  | mk before parts =>
    cases parts with
    | nil =>
      obtain ⟨rfl, quiet⟩ := Feature.quiet_of_divide divided
      rw [rangeTest, operators_eq_nil quiet]
      rfl
    | cons first parts =>
      obtain ⟨low, middle⟩ := first
      obtain ⟨o, us, compares, rfl, rest, quiet⟩ := Feature.exists_of_divide divided
      obtain ⟨here, front, behind⟩ := parts_at before us o
      rw [rangeTest, operators_at quiet compares]
      cases parts with
      | nil =>
        obtain ⟨rfl, quietMiddle⟩ := Feature.quiet_of_divide rest
        rw [operators_eq_nil quietMiddle]
        simp only [Nat.zero_add, here, find_some, pure_bind, compares, front, behind]
        rw [Feature.ofDivided?]
        cases Feature.soleName? before <;> rfl
      | cons second parts =>
        obtain ⟨high, last⟩ := second
        obtain ⟨p, vs, comparesNext, rfl, rest, quietMiddle⟩ := Feature.exists_of_divide rest
        rw [operators_at quietMiddle comparesNext]
        cases parts with
        | nil =>
          obtain ⟨rfl, quietLast⟩ := Feature.quiet_of_divide rest
          obtain ⟨there, inner, last⟩ := parts_at_second before middle vs o p
          rw [operators_eq_nil quietLast]
          simp only [Nat.zero_add, here, there, find_some, pure_bind, compares, comparesNext,
            inner, front, last]
          rw [Feature.ofDivided?]
          split <;> rfl
        | cons third parts =>
          obtain ⟨op, last⟩ := third
          obtain ⟨q, ws, comparesLast, rfl, -, quietLast⟩ := Feature.exists_of_divide rest
          rw [operators_at quietLast comparesLast]
          rfl

theorem test_eq (ts : List Token) : test ts = pure (Feature.ofTokens? ts) := by
  match ts with
  | [] => rfl
  | [t] => rfl
  | t :: u :: rest =>
    cases kind : u.kind with
    | colon => simp only [test, Feature.ofTokens?, kind]
    | _ =>
      simp only [test, Feature.ofTokens?, kind]
      exact rangeTest_eq _

end Tests

section Items

variable (source : List Char) (ts : List Token)

/-- Where a fault at a position is reported: at the token there, else behind the last token, else
at the end of the text. -/
def offset (pos : Nat) : Nat :=
  ((ts[pos]?.map Token.start).or (ts.getLast?.map Token.stop)).getD (Text.byteSize source)

def fault {α : Type} (pos : Nat) (fault : ParseFault) : Access α :=
  throw ⟨fault, offset source ts pos⟩

def identAt? (pos : Nat) : Option String := ts[pos]?.bind Token.ident?

def following (item : Nat → Access (InParens × Nat)) (allowOr : Bool) (joiner : Option Connective)
    (pos : Nat) : Access (Option Connective × List InParens × Nat) :=
  match (identAt? ts pos).bind Connective.ofName? with
  | none => return (joiner, [], pos)
  | some word =>
    if word = .or ∧ allowOr = false then fault source ts pos .orAfterType
    else if joiner.any (· ≠ word) then fault source ts pos .mixedConnectives
    else do
      let (x, next) ← item (pos + 1)
      if pos < next ∧ next ≤ ts.length then do
        let (joiner, xs, stop) ← following item allowOr (some word) next
        return (joiner, x :: xs, stop)
      else astray
termination_by ts.length - pos

def condition (item : Nat → Access (InParens × Nat)) (allowOr : Bool) (pos : Nat) :
    Access (Condition × Nat) :=
  if identAt? ts pos = some "not" then do
    let (x, next) ← item (pos + 1)
    return (.not x, next)
  else do
    let (x, next) ← item pos
    let (joiner, xs, stop) ← following source ts item allowOr none next
    return (Connective.join joiner (x :: xs), stop)

end Items

/-- What stands between parentheses: a condition if one was read to the end of the tokens there,
else a test, else what is written. -/
def ofInside (inside : List Token) (asWritten : InParens) (read : Access (Condition × Nat)) :
    Access InParens := do
  let whole := match ← find read.run with
    | .ok (inner, stop) => if inside.length ≤ stop then some inner else none
    | .error _ => none
  match whole with
  | some inner => return .condition inner
  | none => do
    let found ← test inside
    return (found.map .feature).getD asWritten

/-- Reads the item at a position. The tokens inside of its parentheses are read on their own. -/
def inParens (source : List Char) (ts : List Token) (pos : Nat) : Access (InParens × Nat) :=
  match ts[pos]? with
  | none => fault source ts pos .expectedOpen
  | some opener =>
    if opener.isOpening = false then fault source ts pos .expectedOpen
    else do
      let close ← matchingParen ts pos
      let closer ← find ts[close]?
      let text ← find (Text.slice? source opener.start closer.stop)
      let asWritten := InParens.enclosed (String.ofList text)
      match opener.kind with
      | .function _ => return (asWritten, close + 1)
      | _ => do
        let inside ← part ts (pos + 1) close
        if inside.length < ts.length then do
          let x ← ofInside inside asWritten
            (condition source inside (inParens source inside) true 0)
          return (x, close + 1)
        else astray
termination_by ts.length

def expectEnd (source : List Char) (ts : List Token) (pos : Nat) : Access Unit :=
  if ts.length ≤ pos then return () else fault source ts pos .trailingInput

/-- Reads a media type, and the condition behind it if more follows. -/
def typed (source : List Char) (ts : List Token) (qualifier : Option Qualifier) (pos : Nat) :
    Access (Query × Nat) :=
  match identAt? ts pos with
  | none => fault source ts pos .expectedType
  | some name =>
    if name ∈ MediaType.reserved then fault source ts pos (.reservedType name)
    else if ts.length ≤ pos + 1 then return (⟨qualifier, MediaType.ofName name, none⟩, pos + 1)
    else if identAt? ts (pos + 1) = some "and" then do
      let (inner, stop) ← condition source ts (inParens source ts) false (pos + 2)
      return (⟨qualifier, MediaType.ofName name, some inner⟩, stop)
    else fault source ts (pos + 1) .expectedAnd

def untyped (source : List Char) (ts : List Token) (pos : Nat) : Access (Query × Nat) := do
  let (inner, stop) ← condition source ts (inParens source ts) true pos
  return (.ofCondition inner, stop)

def query (source : List Char) (ts : List Token) (pos : Nat) : Access (Query × Nat) :=
  match ts[pos]? with
  | none => fault source ts pos .expectedTypeOrCondition
  | some first =>
    if first.isOpening then untyped source ts pos
    else match first.ident? with
    | none => fault source ts pos .expectedTypeOrCondition
    | some word =>
      if word = "not" ∧ ts[pos + 1]?.any Token.isOpening then untyped source ts pos
      else match Qualifier.ofName? word with
      | some qualifier => typed source ts (some qualifier) (pos + 1)
      | none => typed source ts none pos

/-- Divides tokens at the commas that are in no parentheses, from the token at `i` on. Each part
comes with the position of its first token. -/
def splitFrom (size : Nat) (ts : List Token) (depth start i : Nat) :
    List Token → Access (List (Nat × List Token))
  | [] =>
    if start = ts.length then throw ⟨.emptyQuery, size⟩
    else do
      let last ← part ts start ts.length
      return [(start, last)]
  | t :: rest =>
    if t.isOpening then splitFrom size ts (depth + 1) start (i + 1) rest
    else if t.isClosing then splitFrom size ts (depth - 1) start (i + 1) rest
    else if t.isComma ∧ depth = 0 then
      if i = start then throw ⟨.emptyQuery, t.start⟩
      else do
        let first ← part ts start i
        let others ← splitFrom size ts depth (i + 1) (i + 1) rest
        return (start, first) :: others
    else splitFrom size ts depth start (i + 1) rest

/-- Divides tokens whose parentheses match at their outer commas. -/
def split (size : Nat) (ts : List Token) : Access (List (Nat × List Token)) := do
  let _ ← ofExcept (pairs ts)
  splitFrom size ts 0 0 0 ts

def wholeQuery (source : List Char) (ts : List Token) : Access Query := do
  let (q, stop) ← query source ts 0
  expectEnd source ts stop
  return q

def list (source : List Char) (ts : List Token) : Access QueryList := do
  if ts.isEmpty then return [Query.ofType .all]
  let parts ← split (Text.byteSize source) ts
  parts.mapM fun (_, part) => wholeQuery source part

def wholeCondition (source : List Char) (ts : List Token) : Access Condition := do
  let _ ← ofExcept (pairs ts)
  let (inner, stop) ← condition source ts (inParens source ts) true 0
  expectEnd source ts stop
  return inner

end ByOffset

end MediaQuery
