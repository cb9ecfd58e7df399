import MediaQuery.Compile
import MediaQuery.Proofs.Feature
import MediaQuery.Proofs.NormalForm
import MediaQuery.Proofs.Truth

set_option autoImplicit false

namespace MediaQuery

/-- A test whose clauses are plain, and of which one holds exactly where the test is taken to be
true. -/
structure Feature.Compiles (d : Device) (ratios : String → Ratio → Prop) (m : Metrics)
    (value : Feature → Bool) (f : Feature) : Prop where
  plain : ∀ c ∈ f.clauses m, c.Plain ratios
  holds : Clause.anyHolds d (f.clauses m) = value f

section Trees

variable {d : Device} {ratios : String → Ratio → Prop} {m : Metrics}
  {value : Feature → Bool} (text : String → Bool)

mutual

theorem InParens.clauses_truth (sound : d.Sound ratios) : ∀ item : InParens,
    (∀ f ∈ item.features, f.Compiles d ratios m value) → item.texts = [] →
      (∀ c ∈ item.clauses m, c.Plain ratios) ∧
        Clause.anyHolds d (item.clauses m) = item.truth value text
  | .condition c, leaves, noText => by
    simpa only [InParens.clauses, InParens.truth] using
      Condition.clauses_truth sound c leaves noText
  | .feature f, leaves, noText => by
    have compiles := leaves f (by simp [InParens.features])
    exact ⟨compiles.plain, compiles.holds⟩
  | .enclosed s, leaves, noText => by cases noText

theorem InParens.allClauses_truth (sound : d.Sound ratios) : ∀ (items : List InParens)
    (done : List Clause), (∀ f ∈ InParens.allFeatures items, f.Compiles d ratios m value) →
      InParens.allTexts items = [] → (∀ c ∈ done, c.Plain ratios) →
      (∀ c ∈ InParens.allClauses m done items, c.Plain ratios) ∧
        Clause.anyHolds d (InParens.allClauses m done items) =
          (Clause.anyHolds d done && InParens.allTruth value text items)
  | [], done, leaves, noText, plain => by
    refine ⟨plain, ?_⟩
    rw [InParens.allClauses, InParens.allTruth, Bool.and_true]
  | item :: items, done, leaves, noText, plain => by
    simp only [InParens.allFeatures, List.mem_append] at leaves
    simp only [InParens.allTexts, List.append_eq_nil_iff] at noText
    obtain ⟨plainItem, holdsItem⟩ :=
      InParens.clauses_truth sound item (fun f mem => leaves f (.inl mem)) noText.1
    obtain ⟨plainAll, holdsAll⟩ :=
      InParens.allClauses_truth sound items (Clause.product done (item.clauses m))
        (fun f mem => leaves f (.inr mem)) noText.2 (Clause.plain_product plain plainItem)
    refine ⟨plainAll, ?_⟩
    rw [InParens.allClauses, holdsAll, Clause.anyHolds_product sound plain plainItem, holdsItem,
      InParens.allTruth, Bool.and_assoc]

theorem InParens.anyClauses_truth (sound : d.Sound ratios) : ∀ items : List InParens,
    (∀ f ∈ InParens.allFeatures items, f.Compiles d ratios m value) →
      InParens.allTexts items = [] →
      (∀ c ∈ InParens.anyClauses m items, c.Plain ratios) ∧
        Clause.anyHolds d (InParens.anyClauses m items) = InParens.anyTruth value text items
  | [], leaves, noText => by
    refine ⟨fun c mem => ?_, rfl⟩
    cases mem
  | item :: items, leaves, noText => by
    simp only [InParens.allFeatures, List.mem_append] at leaves
    simp only [InParens.allTexts, List.append_eq_nil_iff] at noText
    obtain ⟨plainItem, holdsItem⟩ :=
      InParens.clauses_truth sound item (fun f mem => leaves f (.inl mem)) noText.1
    obtain ⟨plainAny, holdsAny⟩ :=
      InParens.anyClauses_truth sound items (fun f mem => leaves f (.inr mem)) noText.2
    constructor
    · intro c mem
      rw [InParens.anyClauses, List.mem_append] at mem
      exact mem.elim (plainItem c) (plainAny c)
    · rw [InParens.anyClauses, Clause.anyHolds_append, holdsItem, holdsAny, InParens.anyTruth]

theorem Condition.clauses_truth (sound : d.Sound ratios) : ∀ condition : Condition,
    (∀ f ∈ condition.features, f.Compiles d ratios m value) → condition.texts = [] →
      (∀ c ∈ condition.clauses m, c.Plain ratios) ∧
        Clause.anyHolds d (condition.clauses m) = condition.truth value text
  | .and items, leaves, noText => by
    obtain ⟨plain, holds⟩ := InParens.allClauses_truth sound items [Clause.top]
      leaves noText (by simp [Clause.plain_top])
    refine ⟨plain, ?_⟩
    rw [Condition.clauses, holds, Condition.truth]
    rfl
  | .or items, leaves, noText => by
    simpa only [Condition.clauses, Condition.truth] using
      InParens.anyClauses_truth sound items leaves noText
  | .not item, leaves, noText => by
    obtain ⟨plain, holds⟩ := InParens.clauses_truth sound item leaves noText
    constructor
    · exact Clause.plain_negateAll sound plain
    · rw [Condition.clauses, Clause.anyHolds_negateAll sound plain, holds, Condition.truth]

end

theorem Clause.anyHolds_tagged {cs : List Clause} (plain : ∀ c ∈ cs, c.Plain ratios)
    (tag : MediaTag) :
    Clause.anyHolds d (cs.map fun c => c.tagged tag) =
      (tag.holds d.mediaType && Clause.anyHolds d cs) := by
  have each (c : Clause) (mem : c ∈ cs) :
      (c.tagged tag).holds d = (tag.holds d.mediaType && c.holds d) := by
    simp [Clause.holds, Clause.tagged, Clause.isInvalid, (plain c mem).untagged,
      Bool.and_left_comm, Bool.and_assoc]
  rw [Bool.eq_iff_iff]
  simp only [Clause.anyHolds, List.any_map, List.any_eq_true, Function.comp_apply,
    Bool.and_eq_true]
  constructor
  · rintro ⟨c, mem, holds⟩
    rw [each c mem, Bool.and_eq_true] at holds
    exact ⟨holds.1, c, mem, holds.2⟩
  · rintro ⟨medium, c, mem, holds⟩
    exact ⟨c, mem, by rw [each c mem, medium, holds]; rfl⟩

theorem MediaType.tag?_holds {t : MediaType} {tag : MediaTag} (named : t.tag? = some tag)
    (medium : Medium) : tag.holds medium = t.holds medium := by
  cases t <;> cases named <;> rfl

theorem Clause.holds_top_tagged (tag : MediaTag) :
    (Clause.top.tagged tag).holds d = tag.holds d.mediaType := by
  simp [Clause.holds, Clause.tagged, Clause.top, Clause.isInvalid, KeyMap.empty]

theorem MediaType.anyHolds_negated (t : MediaType) :
    Clause.anyHolds d t.negated = !t.holds d.mediaType := by
  cases t with
  | all => rfl
  | other name => rfl
  | screen =>
    rw [MediaType.negated, Clause.anyHolds, List.any_cons, Clause.holds_top_tagged]
    exact Bool.or_false _
  | print =>
    rw [MediaType.negated, Clause.anyHolds, List.any_cons, Clause.holds_top_tagged]
    exact Bool.or_false _

theorem MediaType.suits_negated (t : MediaType) : ∀ c ∈ t.negated, c.Suits ratios := by
  intro c mem key constraint found
  cases t <;> simp only [MediaType.negated, List.mem_singleton, List.not_mem_nil] at mem <;>
    subst mem <;> cases found

/-- The clauses of the condition of a query; without a condition, the clause that always holds. -/
def Query.ownClauses (m : Metrics) (q : Query) : List Clause :=
  (q.condition.map (Condition.clauses m)).getD [Clause.top]

theorem Query.clauses_of_affirmed (q : Query) (affirmed : q.qualifier ≠ some .not) :
    q.clauses m = (q.mediaType.tag?.map fun tag =>
      (q.ownClauses m).map fun c => c.tagged tag).getD [] := by
  unfold Query.clauses
  split
  · contradiction
  · cases q.mediaType.tag? <;> rfl

theorem Query.clauses_of_negated (q : Query) (negated : q.qualifier = some .not) :
    q.clauses m = q.mediaType.negated ++
      (Clause.negateAll (q.ownClauses m)).map fun c => c.tagged .all := by
  simp only [Query.clauses, negated, Query.ownClauses]
  cases q.condition <;> rfl

theorem Query.ownClauses_truth (sound : d.Sound ratios) (q : Query)
    (leaves : ∀ f ∈ q.features, f.Compiles d ratios m value) (noText : q.texts = []) :
    (∀ c ∈ q.ownClauses m, c.Plain ratios) ∧
      Clause.anyHolds d (q.ownClauses m) =
        (q.condition.map (Condition.truth value text)).getD true := by
  unfold Query.ownClauses
  rw [Query.features] at leaves
  rw [Query.texts] at noText
  cases condition : q.condition with
  | none => exact ⟨by simp [Clause.plain_top], rfl⟩
  | some c =>
    rw [condition] at leaves noText
    exact Condition.clauses_truth text sound c leaves noText

/-- The clauses of a query that is not turned around: those of its condition under the tag of its
medium. -/
private theorem Query.affirmed_truth (sound : d.Sound ratios) (q : Query)
    (leaves : ∀ f ∈ q.features, f.Compiles d ratios m value) (noText : q.texts = [])
    (affirmed : q.qualifier ≠ some .not) :
    (∀ c ∈ q.clauses m, c.Suits ratios) ∧
      Clause.anyHolds d (q.clauses m) = q.truth d.mediaType value text := by
  obtain ⟨plain, holds⟩ := Query.ownClauses_truth text sound q leaves noText
  have truth : q.truth d.mediaType value text = (q.mediaType.holds d.mediaType &&
      (q.condition.map (Condition.truth value text)).getD true) := by
    unfold Query.truth
    split
    · contradiction
    · rfl
  rw [q.clauses_of_affirmed affirmed, truth, ← holds]
  cases named : q.mediaType.tag? with
  | none =>
    have absent : q.mediaType.holds d.mediaType = false := by
      cases medium : q.mediaType <;> rw [medium] at named <;> cases named
      rfl
    rw [absent]
    exact ⟨by simp, rfl⟩
  | some tag =>
    rw [← MediaType.tag?_holds named, ← Clause.anyHolds_tagged plain]
    refine ⟨fun c mem => ?_, rfl⟩
    obtain ⟨untagged, inside, rfl⟩ := List.mem_map.1 mem
    exact (plain untagged inside).suits

/-- The clauses of a query that is turned around: those for other media, and those for devices on
which its condition fails. -/
private theorem Query.negated_truth (sound : d.Sound ratios) (q : Query)
    (leaves : ∀ f ∈ q.features, f.Compiles d ratios m value) (noText : q.texts = [])
    (negated : q.qualifier = some .not) :
    (∀ c ∈ q.clauses m, c.Suits ratios) ∧
      Clause.anyHolds d (q.clauses m) = q.truth d.mediaType value text := by
  obtain ⟨plain, holds⟩ := Query.ownClauses_truth text sound q leaves noText
  have plainNot := Clause.plain_negateAll sound plain
  rw [q.clauses_of_negated negated]
  constructor
  · intro part mem
    rcases List.mem_append.1 mem with mem | mem
    · exact q.mediaType.suits_negated part mem
    · obtain ⟨untagged, inside, rfl⟩ := List.mem_map.1 mem
      exact (plainNot untagged inside).suits
  · rw [Clause.anyHolds_append, MediaType.anyHolds_negated, Clause.anyHolds_tagged plainNot,
      Clause.anyHolds_negateAll sound plain, holds]
    simp [Query.truth, negated, MediaTag.holds]

/-- One of the clauses of a query holds exactly where the query is true. -/
theorem Query.clauses_truth (sound : d.Sound ratios) (q : Query)
    (leaves : ∀ f ∈ q.features, f.Compiles d ratios m value) (noText : q.texts = []) :
    (∀ c ∈ q.clauses m, c.Suits ratios) ∧
      Clause.anyHolds d (q.clauses m) = q.truth d.mediaType value text := by
  by_cases negated : q.qualifier = some .not
  · exact Query.negated_truth text sound q leaves noText negated
  · exact Query.affirmed_truth text sound q leaves noText negated

theorem QueryList.clauses_truth (sound : d.Sound ratios) (list : QueryList)
    (leaves : ∀ f ∈ list.features, f.Compiles d ratios m value) (noText : list.texts = []) :
    (∀ c ∈ list.clauses m, c.Suits ratios) ∧
      Clause.anyHolds d (list.clauses m) = list.truth d.mediaType value text := by
  have each (q : Query) (mem : q ∈ list) := Query.clauses_truth text sound q
    (fun f inside => leaves f (List.mem_flatMap.2 ⟨q, mem, inside⟩))
    (List.flatMap_eq_nil_iff.1 noText q mem)
  constructor
  · intro c mem
    obtain ⟨q, mem, inside⟩ := List.mem_flatMap.1 mem
    exact (each q mem).1 c inside
  · rw [QueryList.clauses, QueryList.truth, Clause.anyHolds, List.any_flatMap]
    rw [Bool.eq_iff_iff, List.any_eq_true, List.any_eq_true]
    refine exists_congr fun q => and_congr_right fun mem => ?_
    rw [← (each q mem).2, Clause.anyHolds]

/-- A device that can be compared with what a query asks for matches the compiled query exactly
where the query is true. -/
theorem QueryList.matches_of_compiles (sound : d.Sound ratios) (list : QueryList)
    (leaves : ∀ f ∈ list.features, f.Compiles d ratios m value) (noText : list.texts = []) :
    (list.compile m).matches d = .ok (list.truth d.mediaType value text) := by
  obtain ⟨suits, holds⟩ := QueryList.clauses_truth text sound list leaves noText
  have valid := Device.validate_eq_ok.2 sound.valid
  simp only [Outcome.matches, valid, QueryList.compile]
  rw [Outcome.anyHolds_ofClauses sound suits, holds]
  rfl

end Trees

section Meaning

/-- The ends of the interval that a constraint may hold, if it is one of numbers. -/
def Constraint.numberEnds : Constraint → List Float
  | .number interval => [interval.min, interval.max]
  | _ => []

def Constraint.ratioEnds : Constraint → List Ratio
  | .ratio interval => [interval.min, interval.max]
  | _ => []

def Clause.numberEnds (c : Clause) : List Float := c.tests.values.flatMap Constraint.numberEnds

def Clause.ratioEnds (c : Clause) : List Ratio := c.tests.values.flatMap Constraint.ratioEnds

def Device.ratios (d : Device) : List Ratio :=
  [⟨d.widthPx, d.heightPx⟩, ⟨d.deviceWidthPx, d.deviceHeightPx⟩]

/-- The ratios that are compared with each other when a device is matched against a query: those
in the clauses of its tests, those of the device and the ends of the domain. -/
def QueryList.comparedRatios (list : QueryList) (m : Metrics) (d : Device) : List Ratio :=
  list.features.flatMap (fun f => (f.clauses m).flatMap Clause.ratioEnds) ++ d.ratios ++
    [ratioDomain.min, ratioDomain.max]

theorem KeyMap.mem_values {α : Type} {map : KeyMap α} {key : String} {v : α}
    (found : map.get? key = some v) : v ∈ map.values :=
  List.mem_map.2 ⟨(key, v), KeyMap.mem_entries.2 found, rfl⟩

theorem Constraint.endsIn_of_mem {ratios : Ratio → Prop} {c : Constraint}
    (numbers : ∀ x ∈ c.numberEnds, Number.isNaN x = false) (among : ∀ r ∈ c.ratioEnds, ratios r) :
    c.EndsIn ratios := by
  constructor
  · rintro interval rfl
    exact ⟨numbers _ (by simp [numberEnds]), numbers _ (by simp [numberEnds])⟩
  · rintro interval rfl
    exact ⟨among _ (by simp [ratioEnds]), among _ (by simp [ratioEnds])⟩

theorem Feature.isUnreadable_eq_false {f : Feature} {m : Metrics}
    (readable : ∀ c ∈ f.clauses m, c.isInvalid = false) : f.isUnreadable m = false := by
  cases understood : f.constraints? m with
  | some found => simp [Feature.isUnreadable, understood]
  | none =>
    have invalid := readable (Clause.unreadable f.name) (by simp [Feature.clauses, understood])
    cases invalid

/-- A valid device can be compared with a list if the ratios of both are totally ordered. -/
theorem QueryList.sound_comparedRatios (list : QueryList) {m : Metrics} {d : Device}
    (valid : d.validate = .ok ())
    (total : Endpoint.TotalOn (· ∈ list.comparedRatios m d)) :
    d.Sound fun _ r => r ∈ list.comparedRatios m d := by
  have own {key : String} {r : Ratio} (found : d.ratio? key = some r) : r ∈ d.ratios := by
    unfold Device.ratio? at found
    split at found <;> cases found <;> simp [Device.ratios]
  refine ⟨Device.validate_eq_ok.1 valid, fun _ => total, fun _ => ⟨?_, ?_⟩, fun found => ?_⟩
  · simp [QueryList.comparedRatios]
  · simp [QueryList.comparedRatios]
  · simp [QueryList.comparedRatios, own found]

theorem QueryList.plain_clauses_of_mem (list : QueryList) {m : Metrics} {d : Device} {f : Feature}
    (mem : f ∈ list.features) (readable : f.isUnreadable m = false)
    (numbers : ∀ c ∈ f.clauses m, ∀ x ∈ c.numberEnds, Number.isNaN x = false) :
    ∀ c ∈ f.clauses m, c.Plain fun _ r => r ∈ list.comparedRatios m d := by
  refine Feature.plain_clauses readable ?_
  intro c made key constraint found
  have value := KeyMap.mem_values found
  refine Constraint.endsIn_of_mem (fun x inside => ?_) (fun r inside => ?_)
  · exact numbers c made x (List.mem_flatMap.2 ⟨constraint, value, inside⟩)
  · simp only [QueryList.comparedRatios, List.mem_append, List.mem_flatMap]
    exact .inl (.inl ⟨f, mem, c, made, List.mem_flatMap.2 ⟨constraint, value, inside⟩⟩)

/-- Compiling preserves meaning. A valid device matches the compiled list exactly where the list
is true, for a list without unread text and with tests that are all understood, if no end of an
interval is no number and the ratios that are compared are totally ordered. -/
theorem QueryList.matches_compile (list : QueryList) (m : Metrics) (d : Device)
    (noText : list.texts = [])
    (readable : ∀ f ∈ list.features, ∀ c ∈ f.clauses m, c.isInvalid = false)
    (valid : d.validate = .ok ())
    (numbers : ∀ f ∈ list.features, ∀ c ∈ f.clauses m, ∀ x ∈ c.numberEnds,
      Number.isNaN x = false)
    (total : Endpoint.TotalOn (· ∈ list.comparedRatios m d)) :
    (list.compile m).matches d = .ok (list.truth d.mediaType
      (fun f => Clause.anyHolds d (f.clauses m)) (fun _ => false)) := by
  have sound := list.sound_comparedRatios valid total
  refine QueryList.matches_of_compiles _ sound list (fun f mem => ⟨?_, rfl⟩) noText
  exact list.plain_clauses_of_mem mem (Feature.isUnreadable_eq_false (readable f mem))
    (numbers f mem)

/-- `only screen and (min-width: 600px) and ((hover) or (not (aspect-ratio > 4/3))),
not print and (orientation: portrait)` -/
def wideOrPortrait : QueryList :=
  [⟨some .only, .screen, some (.and [
      .feature (.plain "min-width" (.dimension 600 "px")),
      .condition (.or [.feature (.boolean "hover"),
        .condition (.not (.feature (.range "aspect-ratio" none (some (.gt, .ratio 4 3)))))])])⟩,
   ⟨some .not, .print, some (.and [.feature (.plain "orientation" (.ident "portrait"))])⟩]

/-- A desktop computer matches a list with every connective in it. -/
theorem QueryList.matches_compile_desktop :
    (QueryList.compile {} wideOrPortrait).matches {} = .ok true := by
  rw [QueryList.matches_compile wideOrPortrait {} {} (by decide +kernel) (by decide +kernel) rfl
    (by decide +kernel) (Endpoint.totalOn_mem (by decide +kernel) (by decide +kernel))]
  exact congrArg Except.ok (by decide +kernel)

end Meaning

end MediaQuery
