import MediaQuery.Proofs.Agreement
import MediaQuery.Proofs.Vocabulary

set_option autoImplicit false

namespace MediaQuery

section Words

open Text Lexeme

theorem Text.beginsName_of_isDigit {c : Char} (digit : Decimal.isDigit c = true) :
    beginsName c = false := by
  have ascii : c.toNat < 128 := by
    simp only [Decimal.isDigit, Bool.and_eq_true, decide_eq_true_iff] at digit
    omega
  exact forall_ascii (P := fun c => Decimal.isDigit c = true → beginsName c = false) (by decide)
    ascii digit

theorem not_isName_toString (n : Int) : ¬IsName (toString n) := by
  have digits (k : Nat) : ∃ c cs, (toString k).toList = c :: cs ∧ beginsName c = false := by
    have written : (toString k).toList = Decimal.naturalDigits k := by
      rw [Nat.toString_eq_repr, Nat.repr_eq_ofList_toDigits, String.toList_ofList]
      rfl
    have all := Decimal.isDigit_naturalDigits k
    cases shape : Decimal.naturalDigits k with
    | nil => exact absurd shape (Decimal.naturalDigits_ne_nil k)
    | cons c cs =>
      rw [shape, List.all_cons, Bool.and_eq_true] at all
      exact ⟨c, cs, by rw [written, shape], beginsName_of_isDigit all.1⟩
  rintro ⟨_, whole, _⟩
  cases n with
  | ofNat k =>
    obtain ⟨c, cs, written, begins⟩ := digits k
    have other : c ≠ '-' := by
      rintro rfl
      cases begins
    change identSize (toString k).toList = _ at whole
    rw [written, identSize_beginsName other, begins] at whole
    change 0 = (toString k).toList.length at whole
    rw [written] at whole
    cases whole
  | negSucc k =>
    obtain ⟨c, cs, written, begins⟩ := digits (k + 1)
    have signed : (toString (Int.negSucc k)).toList = '-' :: c :: cs := by
      rw [← written]
      change ("-" ++ toString (k + 1)).toList = _
      rw [String.toList_append]
      rfl
    rw [signed, identSize_hyphen] at whole
    simp only [beginsName] at begins
    rw [begins] at whole
    cases whole

private def FeatureSpec.keywords (spec : FeatureSpec) : List String :=
  match spec.kind with
  | .discrete values => values.filterMap fun
    | .keyword name => some name
    | .integer _ => none
  | .gamut => ["srgb", "p3", "rec2020"]
  | .orientation => ["portrait", "landscape"]
  | _ => []

private theorem FeatureSpec.isName_of_mem_keywords : ∀ spec ∈ FeatureTable.all,
    ∀ name ∈ spec.keywords, IsName name := by
  decide +kernel

variable {spec : FeatureSpec} {m : Metrics} {value : Value}

/-- A name is the text of an identifier only: the text of a number is none. -/
theorem Value.eq_ident_of_isName {name : String} (isName : IsName name)
    (text : value.discreteText? = some name) : value = .ident name := by
  cases value with
  | ident name => cases text; rfl
  | number x integer =>
    cases integer <;> cases text
    exact absurd isName (not_isName_toString _)
  | dimension x unit => cases text
  | ratio x y => cases text

/-- The text of an integer is that of a number only, if the value is read. -/
theorem Value.integer?_of_discreteText? {n : Int} (lexical : value.Lexical)
    (text : value.discreteText? = some (toString n)) : value.integer? = some n := by
  cases value with
  | ident name =>
    cases text
    exact absurd lexical (not_isName_toString n)
  | number x integer =>
    cases integer with
    | false => cases text
    | true =>
      have same := Int.repr_injective (Option.some.inj text)
      simp [Value.integer?, same]
  | dimension x unit => cases text
  | ratio x y => cases text

/-- A value that is read and whose text is among the words of a feature has a meaning for it. -/
theorem FeatureSpec.ofPlain?_of_word (listed : spec ∈ FeatureTable.all) {words : List String}
    {canBeFalse : Bool} (known : Knowledge.ofSpec spec = .discrete words canBeFalse)
    (lexical : value.Lexical) {word : String} (text : value.discreteText? = some word)
    (mem : word ∈ words) : (spec.ofPlain? m none value).isSome = true := by
  have ident (keyword : word ∈ spec.keywords) : value = .ident word :=
    Value.eq_ident_of_isName (FeatureSpec.isName_of_mem_keywords spec listed word keyword) text
  unfold FeatureSpec.keywords at ident
  unfold FeatureSpec.ofPlain?
  cases Knowledge.wordsOf_of_ofSpec known with
  | discrete kind =>
    simp only [kind] at ident ⊢
    obtain ⟨v, inside, rfl⟩ := List.mem_map.1 mem
    rw [Option.isSome_map, FeatureSpec.discreteValue?]
    simp only [kind, List.find?_isSome]
    refine ⟨v, inside, ?_⟩
    cases v with
    | keyword name =>
      rw [ident (List.mem_filterMap.2 ⟨_, inside, rfl⟩)]
      exact beq_self_eq_true _
    | integer n =>
      rw [Value.integer?_of_discreteText? lexical text]
      exact beq_self_eq_true _
  | gamut kind =>
    simp only [kind] at ident ⊢
    rw [ident mem]
    simp only [List.mem_cons, List.not_mem_nil, or_false] at mem
    rcases mem with rfl | rfl | rfl <;> rfl
  | orientation kind =>
    simp only [kind] at ident ⊢
    rw [ident mem]
    simp only [List.mem_cons, List.not_mem_nil, or_false] at mem
    rcases mem with rfl | rfl <;> rfl

end Words

section Ranges

variable {spec : FeatureSpec} {m : Metrics} {value : Value} {kind : RangeKind}
  {canBeZero canBeNegative : Bool} {extraValues : List String}

def Value.isBelowZero : Value → Bool
  | .number x _ => Number.isNegative x
  | _ => false

/-- Only a bare number is a plain quantity. -/
theorem Value.eq_number_of_ofValue {x : Float} {integer : Bool}
    (quantity : Quantity.ofValue m value = .number x integer) : value = .number x integer := by
  cases value with
  | number y integer' =>
    cases quantity
    rfl
  | dimension y unit =>
    simp only [Quantity.ofValue, Quantity.ofDimension] at quantity
    split at quantity
    · cases quantity
    · split at quantity
      · cases quantity
      · split at quantity <;> cases quantity
  | ratio y z => cases quantity
  | ident name =>
    rw [Quantity.ofValue_ident] at quantity
    split at quantity <;> cases quantity

namespace FeatureSpec

/-- Whether a feature can be compared with a value. -/
def isLegal (spec : FeatureSpec) (m : Metrics) (value : Value) : Bool :=
  match spec.kind with
  | .ratio => (ratio? m value).isSome
  | _ => (spec.number? m value).isSome

theorem isSome_sides? {α : Type} (read : Value → Option α) (left : Option (Value × Comparison))
    (right : Option (Comparison × Value)) : (sides? read left right).isSome =
      (left.all (fun side => (read side.1).isSome) &&
        right.all fun side => (read side.2).isSome) := by
  rcases left with _ | ⟨a, low⟩ <;> rcases right with _ | ⟨high, b⟩
  · rfl
  · rw [sides?_right, Option.isSome_map]
    rfl
  · rw [sides?_left, Option.isSome_map]
    simp
  · rw [sides?_both]
    cases first : read a <;> simp [first]

theorem isSome_ofPlain? (takes : spec.isRange = true) (limit : Option Limit) :
    (spec.ofPlain? m limit value).isSome = spec.isLegal m value := by
  unfold isRange at takes
  cases kind : spec.kind <;> simp only [kind, Bool.false_eq_true] at takes <;>
    simp only [ofPlain?, isLegal, kind, Option.isSome_map, ratio?]

theorem isSome_ofRange? (takes : spec.isRange = true) (left : Option (Value × Comparison))
    (right : Option (Comparison × Value)) : (spec.ofRange? m left right).isSome =
      (left.all (fun side => spec.isLegal m side.1) &&
        right.all fun side => spec.isLegal m side.2) := by
  unfold isRange at takes
  cases kind : spec.kind <;> simp only [kind, Bool.false_eq_true] at takes <;>
    simp only [ofRange?, isLegal, kind, Option.isSome_map, isSome_sides?, ratio?]

theorem isLegal_of_isBelowZero (ratio : spec.kind = .ratio) (below : value.isBelowZero = true) :
    spec.isLegal m value = false := by
  cases value with
  | number x integer =>
    simp only [Value.isBelowZero, Number.isNegative, Bool.and_eq_true, decide_eq_true_iff] at below
    have notAbove : Number.isNonNegative x = false := by
      simp only [Number.isNonNegative, Bool.and_eq_false_iff, decide_eq_false_iff_not]
      exact .inr (by omega)
    simp only [isLegal, ratio, ratio?, Quantity.ofValue, Quantity.ratio?, notAbove, Bool.false_and,
      Bool.false_eq_true, if_false, Option.isSome_none]
  | dimension x unit => cases below
  | ratio x y => cases below
  | ident name => cases below

theorem isLegal_ident {name : String} {x : Float}
    (range : Knowledge.RangeOf spec kind extraValues)
    (read : (Value.ident name).inRange? m kind extraValues = some x) :
    spec.isLegal m (.ident name) = true := by
  simp only [Value.inRange?, Option.ite_none_right_eq_some, List.contains_iff_mem] at read
  cases range with
  | resolution shape =>
    cases List.mem_singleton.1 read.1
    simp only [isLegal, shape, number?]
    rfl
  | _ => cases read.1

/-- A quantity that the solver takes for a number has a meaning for the compiler, unless it is a
bare number that is not from zero on and is compared with a ratio. -/
theorem isLegal_of_inKind? {x : Float} (range : Knowledge.RangeOf spec kind extraValues)
    (read : (Quantity.ofValue m value).inKind? kind = some x) :
    spec.isLegal m value = true ∨ spec.kind = .ratio ∧ ∃ integer, value = .number x integer ∧
      Number.isNonNegative x = false := by
  cases range with
  | length shape | integer shape | number shape =>
    simp only [isLegal, shape, number?, Option.isSome_iff_exists]
    exact .inl ⟨x, read⟩
  | resolution shape =>
    simp only [isLegal, shape, number?, Option.isSome_iff_exists]
    simp only [Quantity.inKind?] at read
    split at read <;> cases read
    rename_i quantity
    exact .inl ⟨x, by rw [quantity]; rfl⟩
  | ratio shape =>
    simp only [Quantity.inKind?] at read
    split at read
    · rename_i y integer quantity
      cases read
      cases above : Number.isNonNegative x with
      | true =>
        have one : Number.isNonNegative 1 = true := by decide
        simp only [isLegal, shape, ratio?, quantity, Quantity.ratio?, above, one, Bool.and_self,
          if_true, Option.isSome_some, true_or]
      | false => exact .inr ⟨shape, integer, Value.eq_number_of_ofValue quantity, rfl⟩
    · obtain ⟨r, written, _⟩ := Option.map_eq_some_iff.1 read
      simp only [isLegal, shape, ratio?, written, Option.isSome_some, true_or]
    · cases read

/-- A value that the solver takes for a number has a meaning for the compiler, unless it is a bare
number that is not from zero on and is compared with a ratio. -/
theorem inRange?_of_illegal
    (known : Knowledge.ofSpec spec = .range kind canBeZero false extraValues)
    (illegal : spec.isLegal m value = false) {x : Float}
    (read : value.inRange? m kind extraValues = some x) :
    spec.kind = .ratio ∧ ∃ integer, value = .number x integer ∧
      Number.isNonNegative x = false := by
  have range := Knowledge.rangeOf_of_ofSpec known
  rw [← Bool.not_eq_true] at illegal
  by_cases word : ∃ name, value = .ident name
  · obtain ⟨name, rfl⟩ := word
    exact absurd (isLegal_ident range read) illegal
  · rw [Value.inRange?_eq_inKind? (not_exists.1 word)] at read
    exact (isLegal_of_inKind? range read).resolve_left illegal

end FeatureSpec

theorem Comparison.decide?_of_isNegative {x : Float} (below : Number.isNegative x = true)
    (op : Comparison) (canBeZero : Bool) :
    op.decide? canBeZero x = some (if op.isGreater then .yes else .no) := by
  cases op <;> simp [decide?, below, isGreater]

namespace Feature

theorem compareDemand_of_isBelowZero (ratio : spec.kind = .ratio)
    (below : value.isBelowZero = true) (asked : Feature) (op : Comparison) :
    compareDemand m (Knowledge.ofSpec spec) asked op value =
      .decided (if op.isGreater then .yes else .no) := by
  cases value with
  | number x integer =>
    have negative : Number.isNegative x = true := below
    have number : Number.isNaN x = false := by
      simp only [Number.isNegative, Bool.and_eq_true, Bool.not_eq_true'] at negative
      exact negative.1
    have read : (Value.number x integer).inRange? m .ratio [] = some x := rfl
    simp only [Knowledge.ofSpec, ratio, compareDemand, read, number, Bool.or_self,
      Bool.false_eq_true, if_false, Comparison.decide?_of_isNegative negative]
  | dimension x unit => cases below
  | ratio x y => cases below
  | ident name => cases below

/-- The comparison with a value that has no meaning is decided against, unless it asks for a ratio
above a bare number below zero. -/
theorem compareDemand_of_illegal (takes : spec.isRange = true) (lexical : value.Lexical)
    (illegal : spec.isLegal m value = false) {op : Comparison}
    (bounded : ¬(spec.kind = .ratio ∧ op.isGreater = true ∧ value.isBelowZero = true))
    (asked : Feature) :
    compareDemand m (Knowledge.ofSpec spec) asked op value = .decided .no := by
  obtain ⟨kind, extraValues, known⟩ := Knowledge.ofSpec_range takes
  cases read : value.inRange? m kind extraValues with
  | none => simp only [compareDemand, known, read]
  | some x =>
    obtain ⟨ratio, integer, rfl, notAbove⟩ := FeatureSpec.inRange?_of_illegal known illegal read
    have number : Number.isNaN x = false := lexical
    have below : (Value.number x integer).isBelowZero = true := by
      simp only [Number.isNonNegative, number, Bool.not_false, Bool.true_and,
        decide_eq_false_iff_not] at notAbove
      simp only [Value.isBelowZero, Number.isNegative, number, Bool.not_false, Bool.true_and,
        decide_eq_true_iff]
      omega
    have notGreater : op.isGreater = false := by
      rw [← Bool.not_eq_true]
      intro greater
      exact bounded ⟨ratio, greater, below⟩
    rw [compareDemand_of_isBelowZero ratio below, notGreater]
    rfl

/-- Whether a test asks for a ratio above a bare number below zero. -/
def exceedsNegative (f : Feature) : Bool :=
  (FeatureTable.resolve? f.name).any fun (limit, spec) => spec.kind == .ratio &&
    (f.comparisons limit).any fun (op, value) => op.isGreater && value.isBelowZero

variable {f : Feature} {limit : Option Limit} {name : String}

theorem get?_builtIn_of_resolve? (resolved : FeatureTable.resolve? name = some (none, spec)) :
    Knowledge.builtIn.get? name = some (Knowledge.ofSpec spec) := by
  obtain ⟨_, found⟩ | ⟨_, _, limited, _⟩ := FeatureTable.resolve?_eq_some resolved
  · rw [Knowledge.get?_builtIn, found, Option.map_some]
  · cases limited

theorem get?_builtIn_of_limit {bound : Limit}
    (resolved : FeatureTable.resolve? name = some (some bound, spec)) :
    Knowledge.builtIn.get? name = none ∧ ∃ base,
      FeatureTable.splitLimit? name = some (bound, base) ∧
        Knowledge.builtIn.get? base = some (Knowledge.ofSpec spec) := by
  obtain ⟨none, _⟩ | ⟨_, base, limited, absent, divided, found, _⟩ :=
    FeatureTable.resolve?_eq_some resolved
  · cases none
  · cases limited
    refine ⟨by rw [Knowledge.get?_builtIn, absent, Option.map_none], base, divided, ?_⟩
    rw [Knowledge.get?_builtIn, found, Option.map_some]

theorem demands_plain (value : Value) (takes : spec.isRange = true)
    (resolved : FeatureTable.resolve? name = some (limit, spec)) : ∃ asked,
      (plain name value).demands Knowledge.builtIn m = [compareDemand m (Knowledge.ofSpec spec)
        asked ((limit.map Limit.comparison).getD .eq) value] := by
  obtain ⟨kind, extraValues, known⟩ := Knowledge.ofSpec_range takes
  cases limit with
  | none =>
    have found := get?_builtIn_of_resolve? resolved
    rw [known] at found ⊢
    exact ⟨plain name value, by simp [demands, Feature.name, found, knownDemands]⟩
  | some bound =>
    obtain ⟨absent, base, divided, found⟩ := get?_builtIn_of_limit resolved
    rw [known] at found ⊢
    refine ⟨compare base bound.comparison value, ?_⟩
    simp [demands, Feature.name, absent, unknownDemands, divided, found]

theorem demands_range {left : Option (Value × Comparison)} {right : Option (Comparison × Value)}
    (takes : spec.isRange = true) (resolved : FeatureTable.resolve? name = some (none, spec))
    (sided : (range name left right).isSided = true) :
    (range name left right).demands Knowledge.builtIn m =
      ((range name left right).comparisons none).map fun (op, value) =>
        compareDemand m (Knowledge.ofSpec spec) (compare name op value) op value := by
  obtain ⟨kind, extraValues, known⟩ := Knowledge.ofSpec_range takes
  have found := get?_builtIn_of_resolve? resolved
  rw [known] at found ⊢
  exact demands_sides found sided

theorem demands_of_unresolved (unresolved : FeatureTable.resolve? f.name = none) :
    f.demands Knowledge.builtIn m = [.decided .no] := by
  unfold FeatureTable.resolve? at unresolved
  split at unresolved
  · cases unresolved
  · rename_i absent
    have unknown : Knowledge.builtIn.get? f.name = none := by
      rw [Knowledge.get?_builtIn, absent, Option.map_none]
    simp only [demands, unknown]
    cases f with
    | plain name value =>
      simp only [Feature.name] at unresolved
      simp only [unknownDemands]
      cases divided : FeatureTable.splitLimit? name with
      | none => rfl
      | some pair =>
        obtain ⟨bound, base⟩ := pair
        simp only [Knowledge.get?_builtIn]
        cases found : FeatureTable.lookup? base with
        | none => rfl
        | some spec =>
          have words : spec.isRange = false := by
            simpa [divided, found] using unresolved
          obtain ⟨legal, canBeFalse, known⟩ := Knowledge.ofSpec_words words
          simp only [Option.map_some, known]
    | _ => rfl

theorem demands_range_of_words (words : spec.isRange = false)
    (resolved : FeatureTable.resolve? name = some (none, spec))
    (left : Option (Value × Comparison)) (right : Option (Comparison × Value)) :
    (range name left right).demands Knowledge.builtIn m = [.decided .no] := by
  have found := get?_builtIn_of_resolve? resolved
  obtain ⟨legal, canBeFalse, known⟩ := Knowledge.ofSpec_words words
  rw [known] at found
  simp only [demands, Feature.name, found]
  rcases left with _ | ⟨a, low⟩ <;> rcases right with _ | ⟨high, b⟩ <;> rfl

theorem demands_of_limit {bound : Limit}
    (resolved : FeatureTable.resolve? f.name = some (some bound, spec))
    (notPlain : ∀ name value, f ≠ .plain name value) :
    f.demands Knowledge.builtIn m = [.decided .no] := by
  obtain ⟨absent, _⟩ := get?_builtIn_of_limit resolved
  cases f with
  | plain name value => exact absurd rfl (notPlain name value)
  | _ => simp only [demands, absent, unknownDemands]

end Feature

end Ranges

theorem Kleene.all_eq_no {ks : List Kleene} (mem : Kleene.no ∈ ks) : Kleene.all ks = .no := by
  induction ks with
  | nil => cases mem
  | cons k ks ih =>
    change k.and (Kleene.all ks) = .no
    rcases List.mem_cons.1 mem with rfl | mem
    · rfl
    · rw [ih mem]
      cases k <;> rfl

section Verdicts

variable {f : Feature} {m : Metrics} {c : SolverConfig}

theorem Feature.verdict_of_mem_demands (known : c.known = Knowledge.builtIn)
    (metrics : c.metrics = m)
    (mem : Demand.decided .no ∈ f.demands Knowledge.builtIn m) : f.verdict c = .no := by
  rw [Feature.verdict, known, metrics]
  exact Kleene.all_eq_no (List.mem_map.2 ⟨_, mem, rfl⟩)

theorem Feature.limit_eq_none_of_fits {limit : Option Limit}
    (fits : limit.isSome = true → ∃ name value, f = .plain name value)
    (notPlain : ∀ name value, f ≠ .plain name value) : limit = none := by
  cases limit with
  | none => rfl
  | some bound =>
    obtain ⟨name, value, same⟩ := fits rfl
    exact absurd same (notPlain name value)

/-- A test of a feature that takes comparisons has a meaning iff all its comparisons have one. -/
theorem Feature.isSome_asked? {limit : Option Limit} {spec : FeatureSpec}
    (takes : spec.isRange = true)
    (fits : limit.isSome = true → ∃ name value, f = .plain name value) :
    (f.asked? m limit spec).isSome = (f.comparisons limit).all fun c => spec.isLegal m c.2 := by
  cases f with
  | plain name value =>
    rw [asked?, Option.isSome_map, FeatureSpec.isSome_ofPlain? takes limit]
    simp [comparisons]
  | boolean name =>
    cases limit_eq_none_of_fits fits (by simp)
    rfl
  | range name left right =>
    cases limit_eq_none_of_fits fits (by simp)
    simp only [asked?, comparisons, Option.isNone_none, if_true, Option.isSome_map,
      FeatureSpec.isSome_ofRange? takes]
    cases left <;> cases right <;> simp

/-- A test of a feature that takes comparisons is decided against where it has no meaning. -/
theorem Feature.decided_of_isRange {limit : Option Limit} {spec : FeatureSpec}
    (resolved : FeatureTable.resolve? f.name = some (limit, spec)) (takes : spec.isRange = true)
    (asked : f.asked? m limit spec = none) (sided : f.isSided = true)
    (lexical : ∀ v ∈ f.values, v.Lexical) (bounded : f.exceedsNegative = false) :
    Demand.decided .no ∈ f.demands Knowledge.builtIn m := by
  by_cases misplaced : limit.isSome = true ∧ ∀ name value, f ≠ .plain name value
  · obtain ⟨bound, rfl⟩ := Option.isSome_iff_exists.1 misplaced.1
    rw [demands_of_limit resolved misplaced.2]
    exact List.mem_cons_self
  have fits : limit.isSome = true → ∃ name value, f = .plain name value := by
    intro limited
    by_contra notPlain
    exact misplaced ⟨limited, fun name value same => notPlain ⟨name, value, same⟩⟩
  have legal := isSome_asked? (m := m) takes fits
  rw [asked, Option.isSome_none, eq_comm, List.all_eq_false] at legal
  obtain ⟨⟨op, value⟩, mem, illegal⟩ := legal
  rw [Bool.not_eq_true] at illegal
  have along : ¬(spec.kind = .ratio ∧ op.isGreater = true ∧ value.isBelowZero = true) := by
    rintro ⟨ratio, greater, below⟩
    have none := bounded
    simp only [exceedsNegative, resolved, Option.any_some, ratio, beq_self_eq_true, Bool.true_and,
      List.any_eq_false, Bool.and_eq_true, not_and] at none
    exact none _ mem greater below
  have decided (asked : Feature) := compareDemand_of_illegal takes
    (lexical value (mem_values_of_comparisons mem)) illegal along asked
  cases f with
  | boolean name => cases mem
  | plain name value =>
    cases List.mem_singleton.1 mem
    change FeatureTable.resolve? name = _ at resolved
    obtain ⟨asked, demanded⟩ := demands_plain (m := m) value takes resolved
    rw [demanded, decided asked]
    exact List.mem_cons_self
  | range name left right =>
    cases limit_eq_none_of_fits fits (by simp)
    change FeatureTable.resolve? name = _ at resolved
    rw [demands_range takes resolved sided, ← decided (compare name op value)]
    exact List.mem_map.2 ⟨_, mem, rfl⟩

/-- A test of a feature with words is decided against where it has no meaning. -/
theorem Feature.decided_of_words {limit : Option Limit} {spec : FeatureSpec}
    (resolved : FeatureTable.resolve? f.name = some (limit, spec)) (words : spec.isRange = false)
    (asked : f.asked? m limit spec = none) (lexical : ∀ v ∈ f.values, v.Lexical) :
    Demand.decided .no ∈ f.demands Knowledge.builtIn m := by
  have listed := FeatureTable.resolve?_mem resolved
  obtain ⟨rfl, _⟩ := FeatureTable.resolve?_words resolved words
  cases f with
  | boolean name => simp [asked?] at asked
  | plain name value =>
    rw [asked?, Option.map_eq_none_iff] at asked
    have found := get?_builtIn_of_resolve? resolved
    obtain ⟨legal, canBeFalse, known⟩ := Knowledge.ofSpec_words words
    rw [known] at found
    have unlisted : value.discreteText?.any legal.contains = false := by
      rw [← Bool.not_eq_true, Option.any_eq_true]
      rintro ⟨word, text, mem⟩
      have meant := FeatureSpec.ofPlain?_of_word (m := m) listed known
        (lexical value List.mem_cons_self) text (List.contains_iff_mem.1 mem)
      rw [asked] at meant
      cases meant
    simp only [Feature.name] at found
    simp [demands, Feature.name, found, knownDemands, unlisted]
  | range name left right =>
    change FeatureTable.resolve? name = _ at resolved
    rw [demands_range_of_words words resolved]
    exact List.mem_cons_self

/-- What has no meaning is decided against, whatever the solver asks. -/
theorem Feature.decided_of_isUnreadable (sided : f.isSided = true)
    (lexical : ∀ v ∈ f.values, v.Lexical) (unreadable : f.isUnreadable m = true)
    (bounded : f.exceedsNegative = false) :
    Demand.decided .no ∈ f.demands Knowledge.builtIn m := by
  cases resolved : FeatureTable.resolve? f.name with
  | none =>
    rw [demands_of_unresolved resolved]
    exact List.mem_cons_self
  | some pair =>
    obtain ⟨limit, spec⟩ := pair
    have asked : f.asked? m limit spec = none := by
      rw [isUnreadable, constraints?_eq, resolved] at unreadable
      simpa using unreadable
    cases takes : spec.isRange with
    | true => exact decided_of_isRange resolved takes asked sided lexical bounded
    | false => exact decided_of_words resolved takes asked lexical

/-- A test that only asks for a ratio above a bare number below zero has no meaning, but every
solver that knows the table takes it to be true. -/
theorem Feature.verdict_of_exceeds {limit : Option Limit} {spec : FeatureSpec} {op : Comparison}
    {value : Value} (resolved : FeatureTable.resolve? f.name = some (limit, spec))
    (ratio : spec.kind = .ratio) (only : f.comparisons limit = [(op, value)])
    (fits : limit.isSome = true → ∃ name value, f = .plain name value)
    (greater : op.isGreater = true) (below : value.isBelowZero = true)
    (known : c.known = Knowledge.builtIn) (metrics : c.metrics = m) :
    f.isUnreadable m = true ∧ f.verdict c = .yes := by
  have takes : spec.isRange = true := by simp only [FeatureSpec.isRange, ratio]
  have asked : (f.asked? m limit spec).isSome = false := by
    rw [isSome_asked? takes fits, only, List.all_cons,
      FeatureSpec.isLegal_of_isBelowZero ratio below, Bool.false_and]
  have decided (asked : Feature) : compareDemand m (Knowledge.ofSpec spec) asked op value =
      .decided .yes := by rw [compareDemand_of_isBelowZero ratio below, greater, if_pos rfl]
  have demanded : f.demands Knowledge.builtIn m = [.decided .yes] := by
    cases f with
    | boolean name => cases only
    | plain name value =>
      cases only
      obtain ⟨asked, demanded⟩ := demands_plain (m := m) value takes resolved
      exact demanded.trans (by rw [decided asked])
    | range name left right =>
      cases limit_eq_none_of_fits fits (by simp)
      change FeatureTable.resolve? name = _ at resolved
      have sided : (range name left right).isSided = true := by
        rcases left with _ | side <;> rcases right with _ | side' <;>
          first | rfl | cases only
      refine (demands_range takes resolved sided).trans ?_
      rw [only, List.map_singleton]
      exact congrArg (fun demand => [demand]) (decided _)
  refine ⟨?_, ?_⟩
  · rw [isUnreadable, constraints?_eq, resolved]
    simpa using asked
  · rw [Feature.verdict, known, metrics, demanded]
    rfl

/-- What the compiler gives no meaning is false for every solver that knows the table, for the
tests of a list that is read, except where a ratio is asked to be above a number below zero. -/
theorem QueryList.verdict_of_isUnreadable {source : String} {list : QueryList}
    (parsed : QueryList.parse source = .ok list) (mem : f ∈ list.features)
    (unreadable : f.isUnreadable m = true) (bounded : f.exceedsNegative = false)
    (known : c.known = Knowledge.builtIn) (metrics : c.metrics = m) : f.verdict c = .no :=
  Feature.verdict_of_mem_demands known metrics (Feature.decided_of_isUnreadable
    (QueryList.isSided_of_parse parsed f mem) (QueryList.lexical_of_parse parsed f mem) unreadable
    bounded)

/-- A comparison below a number below zero has no meaning, and no solver takes it to be true. -/
theorem QueryList.verdict_of_isUnreadable_below :
    ∃ list, QueryList.parse "(aspect-ratio < -1)" = .ok list ∧ list.features ≠ [] ∧
      ∀ f ∈ list.features, f.isUnreadable {} = true ∧
        f.verdict (SolverConfig.ofDevice {} {}) = .no := by
  obtain ⟨list, parsed, tested⟩ := QueryList.exists_of_isRead "(aspect-ratio < -1)"
    (fun list => decide (list.features ≠ []) && list.features.all fun f =>
      f.isUnreadable {} && !f.exceedsNegative) (by decide +kernel)
  simp only [Bool.and_eq_true, decide_eq_true_iff, List.all_eq_true, Bool.not_eq_true'] at tested
  refine ⟨list, parsed, tested.1, fun f mem => ?_⟩
  obtain ⟨unreadable, bounded⟩ := tested.2 f mem
  exact ⟨unreadable,
    QueryList.verdict_of_isUnreadable parsed mem unreadable bounded rfl rfl⟩

/-- Not every test without a meaning is false for every solver. -/
theorem QueryList.exists_meaningless_true :
    ¬∀ (source : String) (list : QueryList), QueryList.parse source = .ok list →
      ∀ f ∈ list.features, ∀ c : SolverConfig, c.known = Knowledge.builtIn →
        f.isUnreadable c.metrics = true → f.verdict c = .no := by
  intro every
  obtain ⟨list, parsed, tested⟩ := QueryList.exists_of_isRead "(aspect-ratio > -1)"
    (fun list => list.features.any fun f => decide (f.isUnreadable {} = true ∧ f.verdict {} = .yes))
    (by decide +kernel)
  obtain ⟨f, mem, tested⟩ := List.any_eq_true.1 tested
  obtain ⟨unreadable, yes⟩ := of_decide_eq_true tested
  have no := every _ list parsed f mem {} rfl unreadable
  rw [yes] at no
  cases no

end Verdicts

end MediaQuery
