import MediaQuery.Query.Group
import MediaQuery.Query.Lexer
import MediaQuery.Query.Tree

set_option autoImplicit false

/- Reading queries. Every pair of parentheses is read on its own, from the inside out: as a
condition if all of it is one, else as a feature, else as text that is kept as it is written. What
is left is a flat sequence of tokens and items, which commas divide into queries. -/
namespace MediaQuery

def Value.ofTokens? : List Token → Option Value
  | [t] => match t.kind with
    | .number value integer => some (.number value integer)
    | .dimension value unit => some (.dimension value unit)
    | .ident name => some (.ident name)
    | _ => none
  | [n, s, d] => match n.kind, s.kind, d.kind with
    | .number numerator _, .slash, .number denominator _ => some (.ratio numerator denominator)
    | _, _, _ => none
  | _ => none

namespace Feature

/-- Divides tokens at their operators: what stands in front of the first operator, and each
operator with what follows it. -/
def divide : List Token → List Token × List (Comparison × List Token)
  | [] => ([], [])
  | t :: ts =>
    let (first, parts) := divide ts
    match t.comparison? with
    | some op => ([], (op, first) :: parts)
    | none => (t :: first, parts)

def soleName? : List Token → Option String
  | [t] => t.ident?
  | _ => none

/-- Whether two operators point the same way, so that the name lies between the two values. -/
def sameDirection (a b : Comparison) : Bool :=
  (a.isLess && b.isLess) || (a.isGreater && b.isGreater)

/-- A feature with one or two operators. A name in front of a single operator takes the value
behind it; only otherwise is the name looked for behind. -/
def ofDivided? : List Token × List (Comparison × List Token) → Option Feature
  | (before, [(op, behind)]) =>
    match soleName? before with
    | some name => (Value.ofTokens? behind).map (compare name op)
    | none => do
      let name ← soleName? behind
      let value ← Value.ofTokens? before
      return .range name (some (value, op)) none
  | (before, [(low, middle), (high, behind)]) =>
    if sameDirection low high then do
      let name ← soleName? middle
      let left ← Value.ofTokens? before
      let right ← Value.ofTokens? behind
      return .range name (some (left, low)) (some (high, right))
    else none
  | _ => none

def ofTokens? : List Token → Option Feature
  | [t] => t.ident?.map .boolean
  | t :: u :: rest => match u.kind with
    | .colon => do
      let name ← t.ident?
      let value ← Value.ofTokens? rest
      return .plain name value
    | _ => ofDivided? (divide (t :: u :: rest))
  | [] => none

end Feature

/-- A token outside of parentheses, or an item with the offsets of its parentheses. -/
inductive Piece where
  | token (token : Token)
  | item (start stop : Nat) (item : InParens)

namespace Piece

def start : Piece → Nat
  | .token t => t.start
  | .item start _ _ => start

def stop : Piece → Nat
  | .token t => t.stop
  | .item _ stop _ => stop

def ident? : Piece → Option String
  | .token t => t.ident?
  | .item .. => none

def isComma : Piece → Bool
  | .token t => t.isComma
  | .item .. => false

def isItem : Piece → Bool
  | .token _ => false
  | .item .. => true

/-- The tokens of some pieces, if there is no item among them. -/
def tokens? : List Piece → Option (List Token)
  | [] => some []
  | .token t :: pieces => (tokens? pieces).map (t :: ·)
  | .item .. :: _ => none

/-- Where a fault found in front of the given pieces is reported; `stop` stands for their end. -/
def offset (stop : Nat) : List Piece → Nat
  | [] => stop
  | piece :: _ => piece.start

/-- The offset behind the last of some pieces, or `default` if there are none. -/
def lastStop (default : Nat) (pieces : List Piece) : Nat :=
  (pieces.getLast?.map Piece.stop).getD default

end Piece

/-- The words that join items. -/
inductive Connective where
  | and
  | or
deriving DecidableEq, Repr

def Connective.ofName? : String → Option Connective
  | "and" => some .and
  | "or" => some .or
  | _ => none

/-- The condition that joins items; a single item is a conjunction. -/
def Connective.join : Option Connective → List InParens → Condition
  | some .or, items => .or items
  | _, items => .and items

def InParens.ofPieces (stop : Nat) : List Piece → Except ParseError (InParens × List Piece)
  | .item _ _ item :: rest => .ok (item, rest)
  | pieces => .error ⟨.expectedOpen, Piece.offset stop pieces⟩

namespace Condition

/-- Reads the further items of a condition, each behind the same connective. -/
def following (stop : Nat) (allowOr : Bool) (joiner : Option Connective) :
    List Piece → Except ParseError (Option Connective × List InParens × List Piece)
  | [] => .ok (joiner, [], [])
  | piece :: rest =>
    match piece.ident?.bind Connective.ofName? with
    | none => .ok (joiner, [], piece :: rest)
    | some word =>
      if word = .or ∧ allowOr = false then .error ⟨.orAfterType, piece.start⟩
      else if joiner.any (· ≠ word) then .error ⟨.mixedConnectives, piece.start⟩
      else match rest with
        | .item _ _ item :: rest => do
          let (joiner, items, rest) ← following stop allowOr (some word) rest
          return (joiner, item :: items, rest)
        | _ => .error ⟨.expectedOpen, Piece.offset stop rest⟩

/-- Reads a condition from the front of some pieces. -/
def ofPieces (stop : Nat) (allowOr : Bool) (pieces : List Piece) :
    Except ParseError (Condition × List Piece) :=
  match pieces with
  | piece :: rest =>
    if piece.ident? = some "not" then do
      let (item, rest) ← InParens.ofPieces stop rest
      return (.not item, rest)
    else do
      let (item, rest) ← InParens.ofPieces stop (piece :: rest)
      let (joiner, items, rest) ← following stop allowOr none rest
      return (Connective.join joiner (item :: items), rest)
  | [] => .error ⟨.expectedOpen, stop⟩

def ofAllPieces? (pieces : List Piece) : Option Condition :=
  match ofPieces 0 true pieces with
  | .ok (condition, []) => some condition
  | _ => none

end Condition

/-- Reads a pair of parentheses whose inside is read already. -/
def InParens.ofInside (source : List Char) (opener closer : Token) (inside : List Piece) :
    InParens :=
  let asWritten := fun (_ : Unit) =>
    InParens.enclosed (String.ofList (Text.slice source opener.start closer.stop))
  match opener.kind with
  | .function _ => asWritten ()
  | _ => match Condition.ofAllPieces? inside with
    | some inner => .condition inner
    | none => match (Piece.tokens? inside).bind Feature.ofTokens? with
      | some test => .feature test
      | none => asWritten ()

mutual

def Group.piece (source : List Char) : Group → Piece
  | .token t => .token t
  | .parens opener inside closer =>
    .item opener.start closer.stop
      (InParens.ofInside source opener closer (Group.pieces source inside))

def Group.pieces (source : List Char) : List Group → List Piece
  | [] => []
  | g :: gs => g.piece source :: Group.pieces source gs

end

/-- Refuses pieces that are left over. -/
def Piece.expectEnd (stop : Nat) : List Piece → Except ParseError Unit
  | [] => .ok ()
  | piece :: rest => .error ⟨.trailingInput, Piece.offset stop (piece :: rest)⟩

/-- The words that name no media type. -/
def MediaType.reserved : List String := ["not", "only", "and", "or", "layer"]

def Qualifier.ofName? : String → Option Qualifier
  | "not" => some .not
  | "only" => some .only
  | _ => none

namespace Query

/-- Reads a media type, and the condition behind it if more follows. -/
def ofTyped (stop : Nat) (qualifier : Option Qualifier) (pieces : List Piece) :
    Except ParseError (Query × List Piece) :=
  match pieces with
  | [] => .error ⟨.expectedType, stop⟩
  | piece :: rest =>
    match piece.ident? with
    | none => .error ⟨.expectedType, piece.start⟩
    | some name =>
      if name ∈ MediaType.reserved then .error ⟨.reservedType name, piece.start⟩
      else match rest with
        | [] => .ok (⟨qualifier, MediaType.ofName name, none⟩, [])
        | word :: behind =>
          if word.ident? = some "and" then do
            let (condition, rest) ← Condition.ofPieces stop false behind
            return (⟨qualifier, MediaType.ofName name, some condition⟩, rest)
          else .error ⟨.expectedAnd, word.start⟩

def ofUntyped (stop : Nat) (pieces : List Piece) : Except ParseError (Query × List Piece) := do
  let (condition, rest) ← Condition.ofPieces stop true pieces
  return (ofCondition condition, rest)

/-- Reads a query from the front of some pieces. It is a condition alone if it begins with an
item, or with `not` and an item. -/
def ofPieces (stop : Nat) (pieces : List Piece) : Except ParseError (Query × List Piece) :=
  match pieces with
  | .item start last item :: rest => ofUntyped stop (.item start last item :: rest)
  | .token t :: rest =>
    match t.ident? with
    | none => .error ⟨.expectedTypeOrCondition, t.start⟩
    | some word =>
      if word = "not" ∧ (rest.head?.map Piece.isItem).getD false then
        ofUntyped stop (.token t :: rest)
      else match Qualifier.ofName? word with
        | some qualifier => ofTyped stop (some qualifier) rest
        | none => ofTyped stop none (.token t :: rest)
  | [] => .error ⟨.expectedTypeOrCondition, stop⟩

def ofAllPieces (stop : Nat) (pieces : List Piece) : Except ParseError Query := do
  let (query, rest) ← ofPieces stop pieces
  Piece.expectEnd stop rest
  return query

end Query

/-- Divides pieces at their commas; none of the parts may be empty. `size` is the size of the
source, where an empty last part is reported. -/
def Piece.segments (size : Nat) : List Piece → Except ParseError (List (List Piece))
  | [] => .error ⟨.emptyQuery, size⟩
  | piece :: rest =>
    if piece.isComma then .error ⟨.emptyQuery, piece.start⟩
    else
      match rest with
      | [] => .ok [[piece]]
      | next :: behind =>
        if next.isComma then do
          let parts ← Piece.segments size behind
          return [piece] :: parts
        else do
          let parts ← Piece.segments size (next :: behind)
          match parts with
          | part :: parts => return (piece :: part) :: parts
          | [] => return [[piece]]

def Piece.ofSource (source : String) : Except ParseError (List Piece) := do
  let tokens ← tokenize source
  let groups ← Group.ofTokens tokens
  return Group.pieces source.toList groups

/-- Reads a list of queries. A text without tokens is the single query `all`. -/
def QueryList.parse (source : String) : Except ParseError QueryList := do
  let pieces ← Piece.ofSource source
  if pieces.isEmpty then return [Query.ofType .all]
  let size := Text.byteSize source.toList
  let parts ← Piece.segments size pieces
  parts.mapM fun part => Query.ofAllPieces (Piece.lastStop size part) part

/-- Reads a list that consists of one query. -/
def Query.parse (source : String) : Except ParseError Query := do
  match ← QueryList.parse source with
  | [query] => return query
  | _ => .error ⟨.severalQueries, 0⟩

def Condition.parse (source : String) : Except ParseError Condition := do
  let pieces ← Piece.ofSource source
  let stop := Piece.lastStop (Text.byteSize source.toList) pieces
  let (condition, rest) ← Condition.ofPieces stop true pieces
  Piece.expectEnd stop rest
  return condition

end MediaQuery
