import MediaQuery.Decimal.Numeral
import MediaQuery.Query.ParseError
import MediaQuery.Query.Token
import MediaQuery.Text.Characters
import MediaQuery.Text.Slice

set_option autoImplicit false

/- Splitting a query into tokens. What stands at the front of a text is a gap (a blank or a
comment), a token or a fault; which one, and how far it reaches, depends on that text alone and not
on what came before it. Blanks and comments leave no token behind. -/
namespace MediaQuery

/-- What stands at the front of a text. `more` counts its characters behind the first one. -/
inductive Lexeme where
  | gap (more : Nat)
  | token (kind : TokenKind) (more : Nat)
  | fault (fault : ParseFault)

namespace Lexeme

/-- The number of characters to the end of a comment, its opening mark left out. -/
def commentSize? : List Char → Option Nat
  | '*' :: '/' :: _ => some 2
  | _ :: cs => (commentSize? cs).map (· + 1)
  | [] => none

/-- The number of characters of the identifier at the front of a text; 0 if there is none. -/
def identSize : List Char → Nat
  | '-' :: '-' :: cs => 2 + (cs.takeWhile Text.isNameChar).length
  | '-' :: c :: cs =>
    if Text.isLetter c || c == '_' then 2 + (cs.takeWhile Text.isNameChar).length else 0
  | c :: cs =>
    if Text.isLetter c || c == '_' then 1 + (cs.takeWhile Text.isNameChar).length else 0
  | [] => 0

def punctuation? : Char → Option TokenKind
  | '(' => some .opening
  | ')' => some .closing
  | ':' => some .colon
  | ',' => some .comma
  | '/' => some .slash
  | _ => none

def comparison? : Char → List Char → Option Lexeme
  | '<', '=' :: _ => some (.token (.comparison .le) 1)
  | '<', _ => some (.token (.comparison .lt) 0)
  | '>', '=' :: _ => some (.token (.comparison .ge) 1)
  | '>', _ => some (.token (.comparison .gt) 0)
  | '=', _ => some (.token (.comparison .eq) 0)
  | _, _ => none

def nameOf (cs : List Char) : String := String.ofList (Text.lowerAll cs)

/-- A number with what directly follows it: a unit or a percent sign makes it a dimension. -/
def ofNumeral (n : Decimal.Numeral) (rest : List Char) : Lexeme :=
  let size := n.chars.length
  let unitSize := identSize rest
  if !n.isAscii then .fault (.invalidNumber (String.ofList n.chars))
  else if 0 < unitSize then
    .token (.dimension n.toFloat (nameOf (rest.take unitSize))) (size + unitSize - 1)
  else if rest.head? = some '%' then .token (.dimension n.toFloat "%") size
  else .token (.number n.toFloat n.isInteger) (size - 1)

/-- An identifier with what directly follows it: an opening parenthesis makes it a function. -/
def ofIdent (size : Nat) (cs : List Char) : Lexeme :=
  let name := nameOf (cs.take size)
  if (cs.drop size).head? = some '(' then .token (.function name) size
  else .token (.ident name) (size - 1)

def read (c : Char) (cs : List Char) : Lexeme :=
  if Text.isBlank c then .gap 0
  else if c = '/' ∧ cs.head? = some '*' then
    match commentSize? (cs.drop 1) with
    | some size => .gap (1 + size)
    | none => .fault .unterminatedComment
  else match punctuation? c with
  | some kind => .token kind 0
  | none => match comparison? c cs with
    | some lexeme => lexeme
    | none => match Decimal.splitNumeral? Text.isDecimal (c :: cs) with
      | some (n, rest) => ofNumeral n rest
      | none =>
        let size := identSize (c :: cs)
        if 0 < size then ofIdent size (c :: cs) else .token (.delim c) 0

end Lexeme

def tokens (start : Nat) : List Char → Except ParseError (List Token)
  | [] => .ok []
  | c :: cs =>
    match Lexeme.read c cs with
    | .gap more => tokens (start + Text.byteSize (c :: cs.take more)) (cs.drop more)
    | .token kind more => do
      let stop := start + Text.byteSize (c :: cs.take more)
      let rest ← tokens stop (cs.drop more)
      return ⟨kind, start, stop⟩ :: rest
    | .fault fault => .error ⟨fault, start⟩
termination_by cs => cs.length
decreasing_by all_goals simp only [List.length_drop, List.length_cons]; omega

def tokenize (source : String) : Except ParseError (List Token) := tokens 0 source.toList

end MediaQuery
