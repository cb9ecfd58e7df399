import MediaQuery.Device.Keyword
import MediaQuery.Query.Tree

set_option autoImplicit false

namespace MediaQuery

/-- The written values on both sides of a comparison. -/
def FeatureSpec.sideValues (left : Option (Value × Comparison))
    (right : Option (Comparison × Value)) : List Value :=
  left.toList.map Prod.fst ++ right.toList.map Prod.snd

@[simp] theorem FeatureSpec.mem_sideValues {left : Option (Value × Comparison)}
    {right : Option (Comparison × Value)} {v : Value} : v ∈ sideValues left right ↔
      (∃ op, left = some (v, op)) ∨ ∃ op, right = some (op, v) := by
  simp [sideValues, Prod.exists]

def Feature.values : Feature → List Value
  | .boolean _ => []
  | .plain _ value => [value]
  | .range _ left right => FeatureSpec.sideValues left right

mutual

/-- The tests in an item, from left to right. -/
def InParens.features : InParens → List Feature
  | .condition condition => condition.features
  | .feature feature => [feature]
  | .enclosed _ => []

def InParens.allFeatures : List InParens → List Feature
  | [] => []
  | item :: items => item.features ++ InParens.allFeatures items

def Condition.features : Condition → List Feature
  | .and items | .or items => InParens.allFeatures items
  | .not item => item.features

end

mutual

/-- The texts in an item that are neither a condition nor a test. -/
def InParens.texts : InParens → List String
  | .condition condition => condition.texts
  | .feature _ => []
  | .enclosed text => [text]

def InParens.allTexts : List InParens → List String
  | [] => []
  | item :: items => item.texts ++ InParens.allTexts items

def Condition.texts : Condition → List String
  | .and items | .or items => InParens.allTexts items
  | .not item => item.texts

end

def Query.features (q : Query) : List Feature := (q.condition.map Condition.features).getD []

def Query.texts (q : Query) : List String := (q.condition.map Condition.texts).getD []

def QueryList.features (list : QueryList) : List Feature := list.flatMap Query.features

def QueryList.texts (list : QueryList) : List String := list.flatMap Query.texts

mutual

/-- The truth value of an item. -/
def InParens.truth (feature : Feature → Bool) (text : String → Bool) : InParens → Bool
  | .condition c => c.truth feature text
  | .feature f => feature f
  | .enclosed s => text s

def InParens.allTruth (feature : Feature → Bool) (text : String → Bool) : List InParens → Bool
  | [] => true
  | item :: items => item.truth feature text && InParens.allTruth feature text items

def InParens.anyTruth (feature : Feature → Bool) (text : String → Bool) : List InParens → Bool
  | [] => false
  | item :: items => item.truth feature text || InParens.anyTruth feature text items

def Condition.truth (feature : Feature → Bool) (text : String → Bool) : Condition → Bool
  | .and items => InParens.allTruth feature text items
  | .or items => InParens.anyTruth feature text items
  | .not item => !item.truth feature text

end

def MediaType.holds (medium : Medium) : MediaType → Bool
  | .all => true
  | .screen => medium == .screen
  | .print => medium == .print
  | .other _ => false

/-- The truth value of a query: its medium and its condition, turned around by `not`. -/
def Query.truth (medium : Medium) (feature : Feature → Bool) (text : String → Bool)
    (q : Query) : Bool :=
  let both := q.mediaType.holds medium &&
    (q.condition.map (Condition.truth feature text)).getD true
  match q.qualifier with
  | some .not => !both
  | _ => both

def QueryList.truth (medium : Medium) (feature : Feature → Bool) (text : String → Bool)
    (list : QueryList) : Bool :=
  list.any (Query.truth medium feature text)

end MediaQuery
