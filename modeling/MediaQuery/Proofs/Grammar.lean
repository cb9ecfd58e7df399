import MediaQuery.Query.Parser

set_option autoImplicit false

/- The grammar of media queries, as relations between tokens and trees. What stands in a pair of
parentheses is a condition if it can be one, else a test if it can be one, else text; since this
asks for what cannot be derived, conditions in parentheses are defined by recursion on the number of
their tokens. -/
namespace MediaQuery

/-- Tokens whose parentheses balance. `top` says which tokens may stand outside of them. -/
inductive Balanced : (Token → Bool) → List Token → Prop where
  | nil {top : Token → Bool} : Balanced top []
  | token {top : Token → Bool} {t : Token} {ts : List Token} (noOpener : t.isOpening = false)
      (noCloser : t.isClosing = false) (allowed : top t = true) (rest : Balanced top ts) :
      Balanced top (t :: ts)
  | parens {top : Token → Bool} {opener closer : Token} {inside ts : List Token}
      (opens : opener.isOpening = true) (closes : closer.isClosing = true)
      (within : Balanced (fun _ => true) inside) (rest : Balanced top ts) :
      Balanced top (opener :: (inside ++ closer :: ts))

inductive Value.Form : List Token → Value → Prop where
  | number {t : Token} {x : Float} {integer : Bool} (kind : t.kind = .number x integer) :
      Form [t] (.number x integer)
  | dimension {t : Token} {x : Float} {unit : String} (kind : t.kind = .dimension x unit) :
      Form [t] (.dimension x unit)
  | ident {t : Token} {name : String} (kind : t.kind = .ident name) : Form [t] (.ident name)
  | ratio {n s d : Token} {x y : Float} {i j : Bool} (numerator : n.kind = .number x i)
      (slash : s.kind = .slash) (denominator : d.kind = .number y j) :
      Form [n, s, d] (.ratio x y)

inductive Feature.Form : List Token → Feature → Prop where
  | boolean {t : Token} {name : String} (named : t.ident? = some name) : Form [t] (.boolean name)
  | plain {t colon : Token} {ts : List Token} {name : String} {value : Value}
      (named : t.ident? = some name) (isColon : colon.kind = .colon)
      (written : Value.Form ts value) : Form (t :: colon :: ts) (.plain name value)
  | right {t o : Token} {ts : List Token} {name : String} {op : Comparison} {value : Value}
      (named : t.ident? = some name) (compares : o.comparison? = some op)
      (written : Value.Form ts value) : Form (t :: o :: ts) (.range name none (some (op, value)))
  | left {t o : Token} {ts : List Token} {name : String} {op : Comparison} {value : Value}
      (named : t.ident? = some name) (compares : o.comparison? = some op)
      (written : Value.Form ts value) : Form (ts ++ [o, t]) (.range name (some (value, op)) none)
  | both {t o p : Token} {ts us : List Token} {name : String} {low high : Comparison}
      {a b : Value} (named : t.ident? = some name) (comparesLow : o.comparison? = some low)
      (comparesHigh : p.comparison? = some high) (along : sameDirection low high = true)
      (writtenLow : Value.Form ts a) (writtenHigh : Value.Form us b) :
      Form (ts ++ o :: t :: p :: us) (.range name (some (a, low)) (some (high, b)))

/-- The test that tokens are read as. Where the only operator stands between two names, the test
is one of the first name. -/
def Feature.Reads (ts : List Token) (f : Feature) : Prop :=
  Feature.Form ts f ∧
    ∀ name value op, f = .range name (some (value, op)) none → value.ident? = none

/-- An item. `nested` and `test` say which conditions and tests there are inside of parentheses. -/
inductive InParens.Form (source : List Char) (nested : List Token → Condition → Prop)
    (test : List Token → Feature → Prop) : List Token → InParens → Prop where
  | function {opener closer : Token} {inside : List Token} {name : String}
      (opens : opener.kind = .function name) (closes : closer.isClosing = true)
      (balanced : Balanced (fun _ => true) inside) :
      Form source nested test (opener :: (inside ++ [closer]))
        (.enclosed (String.ofList (Text.slice source opener.start closer.stop)))
  | condition {opener closer : Token} {inside : List Token} {inner : Condition}
      (opens : opener.kind = .opening) (closes : closer.isClosing = true)
      (balanced : Balanced (fun _ => true) inside) (whole : nested inside inner) :
      Form source nested test (opener :: (inside ++ [closer])) (.condition inner)
  | feature {opener closer : Token} {inside : List Token} {f : Feature}
      (opens : opener.kind = .opening) (closes : closer.isClosing = true)
      (balanced : Balanced (fun _ => true) inside) (noCondition : ∀ inner, ¬nested inside inner)
      (whole : test inside f) :
      Form source nested test (opener :: (inside ++ [closer])) (.feature f)
  | enclosed {opener closer : Token} {inside : List Token}
      (opens : opener.kind = .opening) (closes : closer.isClosing = true)
      (balanced : Balanced (fun _ => true) inside) (noCondition : ∀ inner, ¬nested inside inner)
      (noTest : ∀ f, ¬test inside f) :
      Form source nested test (opener :: (inside ++ [closer]))
        (.enclosed (String.ofList (Text.slice source opener.start closer.stop)))

inductive InParens.Following (item : List Token → InParens → Prop) (word : String) :
    List Token → List InParens → Prop where
  | nil : Following item word [] []
  | cons {w : Token} {ts us : List Token} {x : InParens} {xs : List InParens}
      (joined : w.ident? = some word) (first : item ts x) (rest : Following item word us xs) :
      Following item word (w :: (ts ++ us)) (x :: xs)

/-- A condition of some items; a single item is a conjunction. The flag says whether `or` may join
them. -/
inductive Condition.Form (item : List Token → InParens → Prop) :
    Bool → List Token → Condition → Prop where
  | not {allowOr : Bool} {t : Token} {ts : List Token} {x : InParens}
      (word : t.ident? = some "not") (whole : item ts x) : Form item allowOr (t :: ts) (.not x)
  | and {allowOr : Bool} {ts us : List Token} {x : InParens} {xs : List InParens}
      (first : item ts x) (rest : InParens.Following item "and" us xs) :
      Form item allowOr (ts ++ us) (.and (x :: xs))
  | or {ts us : List Token} {x : InParens} {xs : List InParens}
      (first : item ts x) (rest : InParens.Following item "or" us xs) (several : xs ≠ []) :
      Form item true (ts ++ us) (.or (x :: xs))

def Condition.Derives (test : List Token → Feature → Prop) (source : List Char) (ts : List Token)
    (c : Condition) : Prop :=
  let nested := fun inside inner =>
    ∃ _ : inside.length < ts.length, Condition.Derives test source inside inner
  Condition.Form (InParens.Form source nested test) true ts c
termination_by ts.length

def InParens.Derives (test : List Token → Feature → Prop) (source : List Char) :
    List Token → InParens → Prop :=
  InParens.Form source (Condition.Derives test source) test

inductive Qualifier.Form : List Token → Option Qualifier → Prop where
  | none : Form [] none
  | some {t : Token} {word : String} {q : Qualifier} (spelt : t.ident? = some word)
      (known : Qualifier.ofName? word = some q) : Form [t] (some q)

/-- The condition that may stand behind a media type. -/
inductive Condition.Behind (item : List Token → InParens → Prop) :
    List Token → Option Condition → Prop where
  | none : Behind item [] none
  | some {w : Token} {ts : List Token} {c : Condition} (joined : w.ident? = some "and")
      (whole : Condition.Form item false ts c) : Behind item (w :: ts) (some c)

/-- Whether tokens begin like a condition: with an opening token, or with `not` and one. -/
def Query.beginsCondition : List Token → Bool
  | [] => false
  | t :: ts => t.isOpening || (t.ident? == some "not" && ts.head?.any Token.isOpening)

/-- A query: a condition alone, or a media type with what may stand around it. -/
inductive Query.Form (item : List Token → InParens → Prop) : List Token → Query → Prop where
  | condition {ts : List Token} {c : Condition} (begins : beginsCondition ts = true)
      (whole : Condition.Form item true ts c) : Form item ts (ofCondition c)
  | typed {lead ts : List Token} {t : Token} {qualifier : Option Qualifier} {name : String}
      {condition : Option Condition} (begins : beginsCondition (lead ++ t :: ts) = false)
      (qualified : Qualifier.Form lead qualifier) (named : t.ident? = some name)
      (legal : name ∉ MediaType.reserved) (behind : Condition.Behind item ts condition) :
      Form item (lead ++ t :: ts) ⟨qualifier, MediaType.ofName name, condition⟩

/-- Queries between the commas outside of all parentheses. -/
inductive QueryList.Form (item : List Token → InParens → Prop) : List Token → QueryList → Prop where
  | last {ts : List Token} {q : Query} (nonempty : ts ≠ [])
      (balanced : Balanced (fun t => !t.isComma) ts) (whole : Query.Form item ts q) :
      Form item ts [q]
  | cons {ts us : List Token} {comma : Token} {q : Query} {qs : QueryList} (nonempty : ts ≠ [])
      (balanced : Balanced (fun t => !t.isComma) ts) (whole : Query.Form item ts q)
      (isComma : comma.isComma = true) (rest : Form item us qs) :
      Form item (ts ++ comma :: us) (q :: qs)

/-- The query lists that some tokens derive; no tokens derive the single query `all`. -/
def QueryList.Derives (test : List Token → Feature → Prop) (source : List Char) (ts : List Token)
    (list : QueryList) : Prop :=
  ts = [] ∧ list = [Query.ofType .all] ∨ QueryList.Form (InParens.Derives test source) ts list

end MediaQuery
