import MediaQuery.Query.Feature

set_option autoImplicit false

namespace MediaQuery

/-- What a token is. Names and units are in lower case. -/
inductive TokenKind where
  | ident (name : String)
  /-- A name directly followed by an opening parenthesis, which belongs to the token. -/
  | function (name : String)
  | number (value : Float) (integer : Bool)
  | dimension (value : Float) (unit : String)
  | colon
  | comma
  | slash
  | opening
  | closing
  | comparison (op : Comparison)
  /-- Any other character. -/
  | delim (char : Char)

/-- A token and the byte offsets of its first byte and of the byte behind it. -/
structure Token where
  kind : TokenKind
  start : Nat
  stop : Nat

namespace Token

def isOpening (t : Token) : Bool :=
  match t.kind with
  | .opening | .function _ => true
  | _ => false

/-- Whether a token closes a pair of parentheses. -/
def isClosing (t : Token) : Bool :=
  match t.kind with
  | .closing => true
  | _ => false

def isComma (t : Token) : Bool :=
  match t.kind with
  | .comma => true
  | _ => false

def ident? (t : Token) : Option String :=
  match t.kind with
  | .ident name => some name
  | _ => none

def comparison? (t : Token) : Option Comparison :=
  match t.kind with
  | .comparison op => some op
  | _ => none

theorem isClosing_of_isOpening (t : Token) (h : t.isOpening = true) : t.isClosing = false := by
  unfold isOpening at h
  unfold isClosing
  split at h <;> simp_all

end Token

end MediaQuery
