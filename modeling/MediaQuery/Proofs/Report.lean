import MediaQuery.Proofs.Compile

set_option autoImplicit false

/- Which of the things that are not understood are reported. Their names and texts travel as marks
on the clauses, so a mark is lost where no clause is left to carry it: a text is reported exactly
where no condition around it comes to the empty list of clauses. Products and negations keep every
mark as long as a clause is left, since a negation carries the marks of all that it turns around. -/
namespace MediaQuery

section Unread

variable (m : Metrics) (lost : Condition → Bool)

mutual

/-- The unread texts of an item and the names of its tests without a meaning, outside of the
conditions that are lost. -/
def InParens.unread : InParens → List String
  | .condition c => c.unread
  | .feature f => if f.isUnreadable m then [f.name] else []
  | .enclosed text => [text]

def InParens.allUnread : List InParens → List String
  | [] => []
  | item :: items => item.unread ++ InParens.allUnread items

def Condition.unread : Condition → List String
  | .and items => if lost (.and items) then [] else InParens.allUnread items
  | .or items => if lost (.or items) then [] else InParens.allUnread items
  | .not item => if lost (.not item) then [] else item.unread

end

/-- What the condition of a query asks for: a negated query turns it around. -/
def Query.asked? (q : Query) : Option Condition :=
  match q.qualifier with
  | some .not => q.condition.map fun c => .not (.condition c)
  | _ => q.condition

def Query.unread (q : Query) : List String := (q.asked?.map (Condition.unread m lost)).getD []

end Unread

/-- Whether a condition comes to the empty list of clauses. -/
def Condition.vanishes (m : Metrics) (c : Condition) : Bool := (c.clauses m).isEmpty

/-- The marks of clauses: what was not understood in one of them. -/
def Clause.marks (cs : List Clause) : List String := cs.flatMap Clause.invalid

namespace Constraint

theorem discrete_of_inter {a b : Constraint} {value : DiscreteValue}
    (made : a.inter b = .discrete value) : a = .discrete value ∨ b = .discrete value := by
  cases a <;> cases b <;> simp_all [inter, ofNumbers?, ofRatios?] <;> split at made <;> simp_all

end Constraint

namespace Clause

variable {a b c : Clause} {as bs cs : List Clause} {xs ys : List String}

/-- A clause whose discrete values are asked of features with discrete values. -/
def Native (c : Clause) : Prop :=
  ∀ key value, c.tests.get? key = some (.discrete value) →
    ∃ values, FeatureTable.kind? key = some (.discrete values)

theorem native_of_noTests (none : c.tests = KeyMap.empty) : c.Native := by
  intro key value found
  rw [none] at found
  cases found

theorem native_single {key : String} {constraint : Constraint}
    (native : ∀ value, constraint = .discrete value →
      ∃ values, FeatureTable.kind? key = some (.discrete values)) :
    (single key constraint).Native := by
  intro other value found
  rw [single, KeyMap.get?_single, Option.ite_none_right_eq_some] at found
  obtain ⟨rfl, found⟩ := found
  exact native value (Option.some.inj found)

theorem Native.and (left : a.Native) (right : b.Native) : (a.and b).Native := by
  intro key value found
  rw [Clause.and, KeyMap.get?_merge] at found
  cases first : a.tests.get? key with
  | none =>
    rw [first] at found
    exact right key value found
  | some x =>
    cases second : b.tests.get? key with
    | none =>
      rw [first, second] at found
      exact left key value (first.trans found)
    | some y =>
      rw [first, second] at found
      rcases Constraint.discrete_of_inter (Option.some.inj found) with rfl | rfl
      · exact left key value first
      · exact right key value second

/-- A constraint that stands on a feature of its kind leaves no mark when it is turned around. -/
theorem readable_of_mem_negate {key : String} {constraint : Constraint}
    (native : ∀ value, constraint = .discrete value →
      ∃ values, FeatureTable.kind? key = some (.discrete values)) :
    ∀ part ∈ constraint.negate key, part.invalid = [] ∧ part.Native := by
  intro part mem
  cases constraint with
  | always => cases mem
  | never =>
    cases List.mem_singleton.1 mem
    exact ⟨rfl, native_of_noTests rfl⟩
  | discrete value =>
    obtain ⟨values, known⟩ := native value rfl
    have known' : (FeatureTable.lookup? key).map FeatureSpec.kind = some (.discrete values) := known
    simp only [Constraint.negate, known', List.mem_map] at mem
    obtain ⟨other, _, rfl⟩ := mem
    exact ⟨rfl, native_single fun _ _ => ⟨values, known⟩⟩
  | gamut mask =>
    cases List.mem_singleton.1 mem
    exact ⟨rfl, native_single fun _ made => by cases made⟩
  | number interval =>
    obtain ⟨other, _, rfl⟩ := List.mem_map.1 mem
    exact ⟨rfl, native_single fun _ made => by cases made⟩
  | ratio interval =>
    obtain ⟨other, _, rfl⟩ := List.mem_map.1 mem
    exact ⟨rfl, native_single fun _ made => by cases made⟩

theorem invalid_of_mem_negate (native : c.Native) :
    ∀ part ∈ c.negate, part.invalid = c.invalid ∧ part.Native := by
  intro part mem
  unfold negate at mem
  split at mem
  · cases List.mem_singleton.1 mem
    exact ⟨rfl, native_of_noTests rfl⟩
  · rename_i readable
    have none : c.invalid = [] := by simpa [isInvalid] using readable
    rw [none]
    split at mem
    · cases List.mem_singleton.1 mem
      exact ⟨rfl, native_of_noTests rfl⟩
    · obtain ⟨⟨key, constraint⟩, entry, mem⟩ := List.mem_flatMap.1 mem
      refine readable_of_mem_negate (fun value made => ?_) part mem
      exact native key value (made ▸ KeyMap.mem_entries.1 entry)

/-- Every clause of a negation carries the marks of all clauses that are turned around. -/
theorem invalid_of_mem_negateAll (native : ∀ c ∈ cs, c.Native) :
    ∀ part ∈ negateAll cs, part.invalid = marks cs ∧ part.Native := by
  suffices all : ∀ (done : List Clause) (before : List String),
      (∀ a ∈ done, a.invalid = before ∧ a.Native) →
      ∀ part ∈ cs.foldl (fun done c => dropContradictions (product done c.negate)) done,
        part.invalid = before ++ marks cs ∧ part.Native from
    all [top] [] (by simp [top, native_of_noTests])
  induction cs with
  | nil =>
    intro done before carried
    simpa [Clause.marks] using carried
  | cons c cs ih =>
    rw [List.forall_mem_cons] at native
    intro done before carried
    have next := ih native.2 (dropContradictions (product done c.negate)) (before ++ c.invalid) ?_
    · simpa [Clause.marks, List.append_assoc] using next
    · intro both mem
      obtain ⟨a, ha, part, hpart, rfl⟩ := mem_product.1 (List.mem_filter.1 mem).1
      have first := carried a ha
      have second := invalid_of_mem_negate native.1 part hpart
      exact ⟨by simp [Clause.and, first.1, second.1], first.2.and second.2⟩

/-- Clauses whose marks are some texts. -/
structure Carries (cs : List Clause) (texts : List String) : Prop where
  native : ∀ c ∈ cs, c.Native
  marks : ∀ text, text ∈ marks cs ↔ text ∈ texts

theorem Carries.nil : Carries [] [] := ⟨by simp, by simp [Clause.marks]⟩

theorem Carries.top : Carries [top] [] :=
  ⟨by simp [native_of_noTests, Clause.top], by simp [Clause.marks, Clause.top]⟩

theorem Carries.unreadable (text : String) : Carries [unreadable text] [text] :=
  ⟨by simp [native_of_noTests, Clause.unreadable], by simp [Clause.marks, Clause.unreadable]⟩

/-- Where no clause is left, no mark is. -/
theorem Carries.trim (carries : Carries cs xs) : Carries cs (if cs.isEmpty then [] else xs) := by
  cases cs with
  | nil => exact .nil
  | cons c cs => exact carries

theorem Carries.append (left : Carries as xs) (right : Carries bs ys) :
    Carries (as ++ bs) (xs ++ ys) where
  native := by
    rw [List.forall_mem_append]
    exact ⟨left.native, right.native⟩
  marks text := by
    rw [Clause.marks, List.flatMap_append, List.mem_append, List.mem_append]
    exact or_congr (left.marks text) (right.marks text)

theorem mem_marks_product {text : String} (some : product as bs ≠ []) :
    text ∈ marks (product as bs) ↔ text ∈ marks as ∨ text ∈ marks bs := by
  obtain ⟨c, mem⟩ := List.exists_mem_of_ne_nil _ some
  obtain ⟨a, ha, b, hb, -⟩ := mem_product.1 mem
  simp only [marks, List.mem_flatMap, mem_product]
  constructor
  · rintro ⟨_, ⟨a, ha, b, hb, rfl⟩, marked⟩
    rcases List.mem_append.1 marked with marked | marked
    · exact .inl ⟨a, ha, marked⟩
    · exact .inr ⟨b, hb, marked⟩
  · rintro (⟨a, ha, marked⟩ | ⟨b, hb, marked⟩)
    · exact ⟨_, ⟨a, ha, b, hb, rfl⟩, List.mem_append_left _ marked⟩
    · exact ⟨_, ⟨a, ha, b, hb, rfl⟩, List.mem_append_right _ marked⟩

theorem Carries.product (left : Carries as xs) (right : Carries bs ys) :
    Carries (product as bs) (if (product as bs).isEmpty then [] else xs ++ ys) := by
  by_cases none : Clause.product as bs = []
  · rw [none]
    exact .nil
  · rw [if_neg (by simpa using none)]
    refine ⟨fun c mem => ?_, fun text => ?_⟩
    · obtain ⟨a, ha, b, hb, rfl⟩ := mem_product.1 mem
      exact (left.native a ha).and (right.native b hb)
    · rw [mem_marks_product none, List.mem_append, left.marks, right.marks]

theorem Carries.negateAll (carries : Carries cs xs) :
    Carries (negateAll cs) (if (negateAll cs).isEmpty then [] else xs) := by
  have each := invalid_of_mem_negateAll carries.native
  cases made : Clause.negateAll cs with
  | nil => exact .nil
  | cons part parts =>
    rw [made] at each
    refine ⟨fun c mem => (each c mem).2, fun text => ?_⟩
    rw [List.isEmpty_cons, if_neg Bool.false_ne_true, ← carries.marks, Clause.marks,
      List.mem_flatMap]
    constructor
    · rintro ⟨c, mem, marked⟩
      rwa [← (each c mem).1]
    · intro marked
      exact ⟨part, List.mem_cons_self, by rwa [(each part List.mem_cons_self).1]⟩

theorem Carries.tagged (carries : Carries cs xs) (tag : MediaTag) :
    Carries (cs.map fun c => c.tagged tag) xs where
  native := by
    rw [List.forall_mem_map]
    exact carries.native
  marks text := by
    rw [← carries.marks, Clause.marks, List.flatMap_map]
    rfl

end Clause

section Trees

variable {m : Metrics}

theorem Feature.carries_clauses (f : Feature) :
    Clause.Carries (f.clauses m) (if f.isUnreadable m then [f.name] else []) := by
  cases understood : f.constraints? m with
  | none =>
    rw [Feature.clauses, understood, if_pos (by simp [isUnreadable, understood])]
    exact .unreadable f.name
  | some pair =>
    obtain ⟨key, constraints⟩ := pair
    rw [Feature.clauses, understood, if_neg (by simp [isUnreadable, understood])]
    obtain ⟨kind, known, suits⟩ := suits_constraints? (fun _ _ => True) understood
    refine ⟨?_, fun text => by simp [Clause.marks, Clause.single]⟩
    rw [List.forall_mem_map]
    refine fun constraint mem => Clause.native_single fun value made => ?_
    have ends : constraint.EndsIn fun _ => True := by
      subst made
      constructor <;> intro _ made <;> cases made
    have suits := suits constraint mem ends
    rw [made] at suits
    cases suits with
    | @discrete values => exact ⟨values, known⟩

theorem InParens.allClauses_nil (items : List InParens) :
    InParens.allClauses m [] items = [] := by
  induction items with
  | nil => rfl
  | cons item items ih => exact ih

mutual

theorem InParens.carries_clauses : ∀ item : InParens,
    Clause.Carries (item.clauses m) (item.unread m (Condition.vanishes m))
  | .condition c => Condition.carries_clauses c
  | .feature f => f.carries_clauses
  | .enclosed text => .unreadable text

theorem InParens.carries_allClauses : ∀ (items : List InParens) (done : List Clause)
    (before : List String), Clause.Carries done before →
      Clause.Carries (InParens.allClauses m done items)
        (if (InParens.allClauses m done items).isEmpty then []
          else before ++ InParens.allUnread m (Condition.vanishes m) items)
  | [], done, before, carries => by
    simpa only [InParens.allClauses, InParens.allUnread, List.append_nil] using carries.trim
  | item :: items, done, before, carries => by
    have next := InParens.carries_allClauses items _ _
      (carries.product (InParens.carries_clauses item))
    rw [InParens.allClauses, InParens.allUnread]
    cases made : Clause.product done (item.clauses m) with
    | nil =>
      rw [InParens.allClauses_nil]
      exact .nil
    | cons c cs =>
      rwa [made, List.isEmpty_cons, if_neg Bool.false_ne_true, List.append_assoc] at next

theorem InParens.carries_anyClauses : ∀ items : List InParens,
    Clause.Carries (InParens.anyClauses m items)
      (InParens.allUnread m (Condition.vanishes m) items)
  | [] => .nil
  | item :: items => (InParens.carries_clauses item).append (InParens.carries_anyClauses items)

theorem Condition.carries_clauses : ∀ condition : Condition,
    Clause.Carries (condition.clauses m) (condition.unread m (Condition.vanishes m))
  | .and items => InParens.carries_allClauses items [Clause.top] [] .top
  | .or items => (InParens.carries_anyClauses items).trim
  | .not item => (InParens.carries_clauses item).negateAll

end

theorem MediaType.carries_negated (t : MediaType) : Clause.Carries t.negated [] := by
  cases t with
  | all => exact .nil
  | screen => exact Clause.Carries.top.tagged .notScreen
  | print => exact Clause.Carries.top.tagged .notPrint
  | other name => exact .top

theorem Query.carries_ownClauses (q : Query) :
    Clause.Carries (q.ownClauses m)
      ((q.condition.map (Condition.unread m (Condition.vanishes m))).getD []) := by
  unfold Query.ownClauses
  cases q.condition with
  | none => exact .top
  | some c => exact c.carries_clauses

/-- The marks of a query that is not turned around: those of its condition, if there are devices
of its medium. -/
theorem Query.carries_affirmed (q : Query) (affirmed : q.qualifier ≠ some .not) :
    Clause.Carries (q.clauses m)
      (if q.mediaType.tag?.isSome then q.unread m (Condition.vanishes m) else []) := by
  have asked : q.asked? = q.condition := by
    unfold Query.asked?
    split
    · contradiction
    · rfl
  rw [q.clauses_of_affirmed affirmed, Query.unread, asked]
  cases q.mediaType.tag? with
  | none => exact .nil
  | some tag => exact q.carries_ownClauses.tagged tag

theorem Query.carries_negated (q : Query) (negated : q.qualifier = some .not) :
    Clause.Carries (q.clauses m) (q.unread m (Condition.vanishes m)) := by
  have turned : q.unread m (Condition.vanishes m) =
      if (Clause.negateAll (q.ownClauses m)).isEmpty then []
      else (q.condition.map (Condition.unread m (Condition.vanishes m))).getD [] := by
    unfold Query.unread Query.asked? Query.ownClauses
    rw [negated]
    cases q.condition <;> rfl
  rw [q.clauses_of_negated negated, turned]
  exact q.mediaType.carries_negated.append (q.carries_ownClauses.negateAll.tagged .all)

/-- What a list reports as not understood: the unread texts of the queries that are turned around
or ask for a medium that devices have, outside of conditions that come to no clause. -/
theorem QueryList.mem_invalid_compile (list : QueryList) (m : Metrics) (text : String) :
    text ∈ (list.compile m).invalid ↔
      ∃ q ∈ list, (q.qualifier = some .not ∨ q.mediaType.tag?.isSome) ∧
        text ∈ q.unread m (Condition.vanishes m) := by
  have each (q : Query) : text ∈ (q.clauses m).flatMap Clause.invalid ↔
      (q.qualifier = some .not ∨ q.mediaType.tag?.isSome) ∧
        text ∈ q.unread m (Condition.vanishes m) := by
    by_cases negated : q.qualifier = some .not
    · rw [← (q.carries_negated negated).marks]
      simp [negated, Clause.marks]
    · have marks := (q.carries_affirmed (m := m) negated).marks text
      rw [Clause.marks] at marks
      simp [marks, negated]
  have invalid : (list.compile m).invalid =
      KeyMap.sortNames ((list.flatMap (Query.clauses m)).flatMap Clause.invalid) := rfl
  rw [invalid, KeyMap.mem_sortNames, List.flatMap_assoc, List.mem_flatMap]
  exact exists_congr fun q => and_congr_right fun _ => each q

/-- `(unknown) and (not (orientation))` -/
def unreported : QueryList :=
  [.ofCondition (.and [.feature (.boolean "unknown"),
    .condition (.not (.feature (.boolean "orientation")))])]

/-- Not everything that is not understood is reported, not even of queries for a medium that
devices have. -/
theorem QueryList.exists_unreported :
    ¬∀ (list : QueryList) (m : Metrics), ∀ q ∈ list, q.mediaType.tag?.isSome →
      ∀ text ∈ q.unread m (fun _ => false), text ∈ (list.compile m).invalid := by
  intro every
  have listed := every unreported {} _ List.mem_cons_self rfl "unknown" (by decide +kernel)
  exact absurd listed (by decide +kernel)

end Trees

end MediaQuery
