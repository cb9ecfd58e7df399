set_option autoImplicit false

namespace MediaQuery

/-- What is wrong with a text that is not a query. -/
inductive ParseFault where
  | unterminatedComment
  /-- A number written with digits other than 0 to 9. -/
  | invalidNumber (text : String)
  | unexpectedClose
  | unclosedParenthesis
  | emptyQuery
  | expectedTypeOrCondition
  /-- A reserved word where a media type has to stand. -/
  | reservedType (name : String)
  | expectedType
  | expectedAnd
  | orAfterType
  | mixedConnectives
  | expectedOpen
  | trailingInput
  | severalQueries
deriving DecidableEq, Repr

def ParseFault.text : ParseFault → String
  | .unterminatedComment => "unterminated comment"
  | .invalidNumber text => "invalid number '" ++ text ++ "'"
  | .unexpectedClose => "unexpected ')'"
  | .unclosedParenthesis => "unclosed parenthesis"
  | .emptyQuery => "empty media query"
  | .expectedTypeOrCondition => "expected a media type or condition"
  | .reservedType name => "'" ++ name ++ "' is not a valid media type"
  | .expectedType => "expected a media type"
  | .expectedAnd => "expected 'and' after media type"
  | .orAfterType => "'or' is not allowed after a media type"
  | .mixedConnectives => "cannot mix 'and' and 'or' without parentheses"
  | .expectedOpen => "expected '('"
  | .trailingInput => "unexpected trailing input"
  | .severalQueries => "expected a single media query"

/-- A fault and the byte offset at which it was found. -/
structure ParseError where
  fault : ParseFault
  position : Nat
deriving DecidableEq, Repr

def ParseError.message (e : ParseError) : String :=
  "at " ++ toString e.position ++ ": " ++ e.fault.text

end MediaQuery
