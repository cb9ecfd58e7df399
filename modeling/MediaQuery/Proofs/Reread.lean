import Mathlib.Data.List.Basic
import Mathlib.Data.List.Find
import MediaQuery.Compile
import MediaQuery.Proofs.Spelling
import MediaQuery.Proofs.Truth

set_option autoImplicit false

namespace MediaQuery

open Text

/-- A value as its text is read. -/
def Value.reread : Value → Value
  | .number value _ => .ofNumber value
  | value => value

def Feature.reread : Feature → Feature
  | .boolean name => .boolean name
  | .plain name value => .plain name value.reread
  | .range name left right =>
    .range name (left.map fun (value, op) => (value.reread, op))
      (right.map fun (op, value) => (op, value.reread))

mutual

def InParens.reread : InParens → InParens
  | .condition condition => .condition condition.reread
  | .feature feature => .feature feature.reread
  | .enclosed text => .enclosed text

def InParens.rereadAll : List InParens → List InParens
  | [] => []
  | item :: items => item.reread :: InParens.rereadAll items

def Condition.reread : Condition → Condition
  | .and items => .and (InParens.rereadAll items)
  | .or items => .or (InParens.rereadAll items)
  | .not item => .not item.reread

end

def Query.reread (q : Query) : Query := { q with condition := q.condition.map Condition.reread }

def QueryList.reread (list : QueryList) : QueryList := list.map Query.reread

theorem Value.text_reread (v : Value) : v.reread.text = v.text := by
  cases v <;> rfl

theorem Value.ident?_reread (v : Value) : v.reread.ident? = v.ident? := by
  cases v <;> rfl

theorem Feature.text_reread (f : Feature) : f.reread.text = f.text := by
  cases f with
  | boolean name => rfl
  | plain name value => simp [Feature.text, Feature.reread, Value.text_reread]
  | range name left right =>
    cases left <;> cases right <;> simp [Feature.text, Feature.reread, Value.text_reread]

mutual

theorem InParens.text_reread : ∀ x : InParens, x.reread.text = x.text
  | .condition c => by simp only [InParens.reread, InParens.text, Condition.text_reread c]
  | .feature f => by simp only [InParens.reread, InParens.text, Feature.text_reread f]
  | .enclosed text => rfl

theorem InParens.following_reread (word : String) : ∀ items : List InParens,
    InParens.following word (InParens.rereadAll items) = InParens.following word items
  | [] => rfl
  | x :: xs => by
    simp only [InParens.rereadAll, InParens.following, InParens.text_reread x,
      InParens.following_reread word xs]

theorem InParens.joined_reread (word : String) : ∀ items : List InParens,
    InParens.joined word (InParens.rereadAll items) = InParens.joined word items
  | [] => rfl
  | x :: xs => by
    simp only [InParens.rereadAll, InParens.joined, InParens.text_reread x,
      InParens.following_reread word xs]

theorem Condition.text_reread : ∀ c : Condition, c.reread.text = c.text
  | .and items => InParens.joined_reread "and" items
  | .or items => InParens.joined_reread "or" items
  | .not x => by simp only [Condition.reread, Condition.text, InParens.text_reread x]

end

theorem Query.text_reread (q : Query) : q.reread.text = q.text := by
  obtain ⟨qualifier, mediaType, condition⟩ := q
  cases condition with
  | none => rfl
  | some c =>
    simp only [Query.reread, Query.text, Query.isBare, Option.map_some]
    cases qualifier.isNone && mediaType == .all <;> simp only [Condition.text_reread]

theorem QueryList.text_reread (list : QueryList) : list.reread.text = list.text := by
  simp only [QueryList.text, QueryList.reread, List.map_map, Function.comp_def, Query.text_reread]

/-- Whether it matters to a feature that a number is written as an integer. -/
def FeatureSpec.readsIntegers (spec : FeatureSpec) : Bool :=
  match spec.kind with
  | .numeric .integer => true
  | .discrete values => values.any fun
    | .integer _ => true
    | .keyword _ => false
  | _ => false

namespace FeatureSpec

variable {spec : FeatureSpec} {m : Metrics} {v : Value}

theorem number?_reread (notInteger : spec.readsIntegers = false) :
    spec.number? m v.reread = spec.number? m v := by
  cases v with
  | number value integer =>
    simp only [number?, Value.reread, Value.ofNumber]
    unfold readsIntegers at notInteger
    split <;>
      simp_all [Quantity.ofValue, Quantity.length?, Quantity.resolutionValue?, Quantity.number?]
  | _ => rfl

theorem ratio?_reread : (Quantity.ofValue m v.reread).ratio? = (Quantity.ofValue m v).ratio? := by
  cases v <;> rfl

theorem discreteValue?_of_words (notInteger : spec.readsIntegers = false)
    (ident : Option String) (i j : Option Int) :
    spec.discreteValue? ident i = spec.discreteValue? ident j := by
  unfold readsIntegers at notInteger
  unfold discreteValue?
  cases kind : spec.kind with
  | discrete values =>
    simp only [kind, List.any_eq_false] at notInteger
    refine List.find?_congr fun value mem => ?_
    cases value with
    | keyword name => rfl
    | integer number => exact absurd rfl (notInteger _ mem)
  | _ => rfl

theorem ofPlain?_reread (notInteger : spec.readsIntegers = false) (limit : Option Limit) :
    spec.ofPlain? m limit v.reread = spec.ofPlain? m limit v := by
  have discrete := discreteValue?_of_words notInteger v.ident? v.reread.integer? v.integer?
  simp only [ofPlain?, Value.ident?_reread, discrete, number?_reread notInteger, ratio?_reread]

theorem sides?_reread {α : Type} (read : Value → Option α)
    (same : ∀ v, read v.reread = read v) (left : Option (Value × Comparison))
    (right : Option (Comparison × Value)) :
    sides? read (left.map fun (value, op) => (value.reread, op))
      (right.map fun (op, value) => (op, value.reread)) = sides? read left right := by
  cases left <;> cases right <;> simp [sides?, same]

theorem ofRange?_reread (notInteger : spec.readsIntegers = false)
    (left : Option (Value × Comparison)) (right : Option (Comparison × Value)) :
    spec.ofRange? m (left.map fun (value, op) => (value.reread, op))
      (right.map fun (op, value) => (op, value.reread)) = spec.ofRange? m left right := by
  have numbers := sides?_reread (spec.number? m) (fun _ => number?_reread notInteger) left right
  have ratios := sides?_reread (fun value => (Quantity.ofValue m value).ratio?)
    (fun _ => ratio?_reread) left right
  simp only [ofRange?, numbers, ratios]

end FeatureSpec

def Feature.readsIntegers (f : Feature) : Bool :=
  (FeatureTable.resolve? f.name).any fun (_, spec) => spec.readsIntegers

/-- A value whose text is a value again: numbers are finite, and no unit is read as a power of
ten. -/
def Value.Printable : Value → Prop
  | .number value _ => Number.isFinite value = true
  | .dimension value unit => Number.isFinite value = true ∧ beginsPower unit.toList = false
  | .ratio numerator denominator =>
    Number.isFinite numerator = true ∧ Number.isFinite denominator = true
  | .ident _ => True

instance : DecidablePred Value.Printable
  | .number value _ => inferInstanceAs (Decidable (Number.isFinite value = true))
  | .dimension value unit =>
    inferInstanceAs (Decidable (Number.isFinite value = true ∧ beginsPower unit.toList = false))
  | .ratio numerator denominator =>
    inferInstanceAs (Decidable
      (Number.isFinite numerator = true ∧ Number.isFinite denominator = true))
  | .ident _ => inferInstanceAs (Decidable True)

/-- A number that counts as an integer iff it is whole, or any other value. -/
def Value.Consistent : Value → Prop
  | .number value integer => integer = Number.isWhole value
  | _ => True

instance : DecidablePred Value.Consistent
  | .number value integer => inferInstanceAs (Decidable (integer = Number.isWhole value))
  | .dimension .. | .ratio .. | .ident _ => inferInstanceAs (Decidable True)

def Feature.Printable (f : Feature) : Prop := ∀ v ∈ f.values, v.Printable

/-- A test that keeps its meaning when its text is read: where integers matter, a number is written
as an integer iff it is whole. -/
structure Feature.Lasts (f : Feature) : Prop where
  printable : f.Printable
  consistent : f.readsIntegers = true → ∀ v ∈ f.values, v.Consistent

instance (f : Feature) : Decidable f.Printable :=
  inferInstanceAs (Decidable (∀ v ∈ f.values, v.Printable))

instance (f : Feature) : Decidable f.Lasts :=
  decidable_of_iff (f.Printable ∧ (f.readsIntegers = true → ∀ v ∈ f.values, v.Consistent))
    ⟨fun ⟨printable, consistent⟩ => ⟨printable, consistent⟩,
      fun lasts => ⟨lasts.printable, lasts.consistent⟩⟩

theorem Value.reread_of_consistent {v : Value} (consistent : v.Consistent) : v.reread = v := by
  cases v with
  | number value integer => rw [reread, ofNumber, ← consistent]
  | _ => rfl

theorem Feature.reread_of_consistent {f : Feature} (consistent : ∀ v ∈ f.values, v.Consistent) :
    f.reread = f := by
  have each (v : Value) (mem : v ∈ f.values) : v.reread = v :=
    Value.reread_of_consistent (consistent v mem)
  cases f with
  | boolean name => rfl
  | plain name value => rw [reread, each value (by simp [values])]
  | range name left right =>
    rcases left with _ | ⟨v, op⟩
    · rcases right with _ | ⟨op', w⟩
      · rfl
      · simp [reread, each w (by simp [values])]
    · rcases right with _ | ⟨op', w⟩
      · simp [reread, each v (by simp [values])]
      · simp [reread, each v (by simp [values]), each w (by simp [values])]

/-- A test that lasts has the same meaning when its text is read. -/
theorem Feature.clauses_reread {f : Feature} (lasts : f.Lasts) (m : Metrics) :
    f.reread.clauses m = f.clauses m := by
  cases integers : f.readsIntegers with
  | true => rw [Feature.reread_of_consistent (lasts.consistent integers)]
  | false =>
    have named : f.reread.name = f.name := by cases f <;> rfl
    have same : f.reread.constraints? m = f.constraints? m := by
      unfold constraints?
      rw [named]
      cases resolved : FeatureTable.resolve? f.name with
      | none => rfl
      | some found =>
        obtain ⟨limit, spec⟩ := found
        have words : spec.readsIntegers = false := by
          simpa [Feature.readsIntegers, resolved] using integers
        cases f <;> cases limit <;>
          simp [reread, FeatureSpec.ofPlain?_reread words, FeatureSpec.ofRange?_reread words]
    rw [clauses, clauses, same, named]

mutual

theorem InParens.clauses_reread (m : Metrics) : ∀ x : InParens, (∀ f ∈ x.features, f.Lasts) →
    x.reread.clauses m = x.clauses m
  | .condition c, lasting => by
    rw [InParens.reread, InParens.clauses, InParens.clauses, Condition.clauses_reread m c lasting]
  | .feature f, lasting => Feature.clauses_reread (lasting f (by simp [InParens.features])) m
  | .enclosed text, _ => rfl

theorem InParens.allClauses_reread (m : Metrics) : ∀ (items : List InParens) (done : List Clause),
    (∀ f ∈ InParens.allFeatures items, f.Lasts) →
    InParens.allClauses m done (InParens.rereadAll items) = InParens.allClauses m done items
  | [], _, _ => rfl
  | x :: xs, done, lasting => by
    simp only [InParens.allFeatures, List.forall_mem_append] at lasting
    rw [InParens.rereadAll, InParens.allClauses, InParens.allClauses,
      InParens.clauses_reread m x lasting.1, InParens.allClauses_reread m xs _ lasting.2]

theorem InParens.anyClauses_reread (m : Metrics) : ∀ items : List InParens,
    (∀ f ∈ InParens.allFeatures items, f.Lasts) →
    InParens.anyClauses m (InParens.rereadAll items) = InParens.anyClauses m items
  | [], _ => rfl
  | x :: xs, lasting => by
    simp only [InParens.allFeatures, List.forall_mem_append] at lasting
    rw [InParens.rereadAll, InParens.anyClauses, InParens.anyClauses,
      InParens.clauses_reread m x lasting.1, InParens.anyClauses_reread m xs lasting.2]

theorem Condition.clauses_reread (m : Metrics) : ∀ c : Condition, (∀ f ∈ c.features, f.Lasts) →
    c.reread.clauses m = c.clauses m
  | .and items, lasting => InParens.allClauses_reread m items _ lasting
  | .or items, lasting => InParens.anyClauses_reread m items lasting
  | .not x, lasting => by
    rw [Condition.reread, Condition.clauses, Condition.clauses,
      InParens.clauses_reread m x lasting]

end

theorem Query.clauses_reread (m : Metrics) {q : Query} (lasting : ∀ f ∈ q.features, f.Lasts) :
    q.reread.clauses m = q.clauses m := by
  obtain ⟨qualifier, mediaType, condition⟩ := q
  cases condition with
  | none => rfl
  | some c =>
    simp only [Query.reread, Query.clauses, Option.map_some, Condition.clauses_reread m c lasting]

/-- A list whose tests last has the same meaning when its text is read. -/
theorem QueryList.compile_reread (m : Metrics) {list : QueryList}
    (lasting : ∀ f ∈ list.features, f.Lasts) : list.reread.compile m = list.compile m := by
  have each : ∀ q ∈ list, q.reread.clauses m = q.clauses m := fun q mem =>
    Query.clauses_reread m fun f tested => lasting f (List.mem_flatMap.2 ⟨q, mem, tested⟩)
  have same : list.reread.clauses m = list.clauses m := by
    rw [QueryList.clauses, QueryList.reread, List.flatMap_map]
    exact List.flatMap_congr each
  rw [QueryList.compile, QueryList.compile, same]

end MediaQuery
