import MediaQuery.Decimal.Layout
import MediaQuery.Query.Tree

set_option autoImplicit false

namespace MediaQuery

def Value.text : Value → String
  | .number value _ => Decimal.proseText value
  | .dimension value unit => Decimal.proseText value ++ unit
  | .ratio numerator denominator =>
    Decimal.proseText numerator ++ "/" ++ Decimal.proseText denominator
  | .ident name => name

def Feature.text : Feature → String
  | .boolean name => "(" ++ name ++ ")"
  | .plain name value => "(" ++ name ++ ": " ++ value.text ++ ")"
  | .range name left right =>
    let before := match left with
      | some (value, op) => value.text ++ " " ++ op.text ++ " "
      | none => ""
    let behind := match right with
      | some (op, value) => " " ++ op.text ++ " " ++ value.text
      | none => ""
    "(" ++ before ++ name ++ behind ++ ")"

mutual

def InParens.text : InParens → String
  | .condition condition => "(" ++ condition.text ++ ")"
  | .feature feature => feature.text
  | .enclosed text => text

/-- The texts of some items with a word between them. -/
def InParens.joined (word : String) : List InParens → String
  | [] => ""
  | item :: items => item.text ++ InParens.following word items

def InParens.following (word : String) : List InParens → String
  | [] => ""
  | item :: items => " " ++ word ++ " " ++ item.text ++ InParens.following word items

def Condition.text : Condition → String
  | .and items => InParens.joined "and" items
  | .or items => InParens.joined "or" items
  | .not item => "not " ++ item.text

end

def Qualifier.text : Qualifier → String
  | .not => "not"
  | .only => "only"

/-- The text of a query; the media type is left out where it is `all` without a qualifier and a
condition follows. -/
def Query.text (q : Query) : String :=
  match q.condition, q.isBare with
  | some condition, true => condition.text
  | condition, _ =>
    (match q.qualifier with
      | some qualifier => qualifier.text ++ " "
      | none => "") ++
    q.mediaType.text ++
    (match condition with
      | some condition => " and " ++ condition.text
      | none => "")

def QueryList.text (list : QueryList) : String := ", ".intercalate (list.map Query.text)

end MediaQuery
