import MediaQuery.Solver.Basic

set_option autoImplicit false

namespace MediaQuery

/-- What a solver does: it gives a result, and it adds what it asks to a log. -/
abbrev Asking := StateM (List Question)

/-- Puts a question to the oracle. -/
def SolverConfig.ask (c : SolverConfig) (question : Question) : Asking Kleene := do
  modify (· ++ [question])
  return c.oracle.answer question

def Demand.walk (c : SolverConfig) : Demand → Asking Kleene
  | .decided verdict => return verdict
  | .ask f => c.ask (.feature f)

def Feature.walk (c : SolverConfig) (f : Feature) : Asking Kleene :=
  (f.demands c.known c.metrics).foldlM
    (fun verdict demand => return verdict.and (← demand.walk c)) .yes

mutual

def InParens.walk (c : SolverConfig) : InParens → Asking Kleene
  | .condition condition => condition.walk c
  | .feature f => f.walk c
  | .enclosed text => c.ask (.enclosed text)

/-- Solves items that all have to hold; the verdict so far is not looked at. -/
def InParens.walkAll (c : SolverConfig) (verdict : Kleene) : List InParens → Asking Kleene
  | [] => return verdict
  | item :: items => do
    let next ← item.walk c
    InParens.walkAll c (verdict.and next) items

def InParens.walkAny (c : SolverConfig) (verdict : Kleene) : List InParens → Asking Kleene
  | [] => return verdict
  | item :: items => do
    let next ← item.walk c
    InParens.walkAny c (verdict.or next) items

def Condition.walk (c : SolverConfig) : Condition → Asking Kleene
  | .and items => InParens.walkAll c .yes items
  | .or items => InParens.walkAny c .no items
  | .not item => do
    let verdict ← item.walk c
    return verdict.not

end

/-- Solves a query. The condition is solved whatever the medium is. -/
def Query.walk (c : SolverConfig) (q : Query) : Asking Kleene := do
  let condition ← match q.condition with
    | some condition => condition.walk c
    | none => pure .yes
  let both := (q.mediaType.verdict c.isScreen).and condition
  return match q.qualifier with
    | some .not => both.not
    | some .only => both.and c.isLegacy.not
    | none => both

/-- Solves the further queries of a list, until it is true. -/
def QueryList.walkFrom (c : SolverConfig) (verdict : Kleene) : QueryList → Asking Kleene
  | [] => return verdict
  | q :: qs => do
    let next ← q.walk c
    if verdict.or next = .yes then return .yes
    else QueryList.walkFrom c (verdict.or next) qs

def QueryList.walk (c : SolverConfig) (list : QueryList) : Asking Kleene :=
  QueryList.walkFrom c .no list

/-- A test or a text of a query. -/
inductive Leaf where
  | test (feature : Feature)
  | text (text : String)

/-- What a leaf leads to: a text is asked about as it is. -/
def Leaf.questions (c : SolverConfig) : Leaf → List Question
  | .test f => f.questions c
  | .text s => [.enclosed s]

mutual

/-- The tests and texts of an item, from left to right. -/
def InParens.leaves : InParens → List Leaf
  | .condition condition => condition.leaves
  | .feature f => [.test f]
  | .enclosed text => [.text text]

def InParens.allLeaves : List InParens → List Leaf
  | [] => []
  | item :: items => item.leaves ++ InParens.allLeaves items

def Condition.leaves : Condition → List Leaf
  | .and items | .or items => InParens.allLeaves items
  | .not item => item.leaves

end

def Query.leaves (q : Query) : List Leaf := (q.condition.map Condition.leaves).getD []

section Runs

variable {c : SolverConfig}

/-- Whatever the log is, the questions are added to it, and the verdict is the result. -/
def Asking.Yields (walk : Asking Kleene) (verdict : Kleene) (questions : List Question) : Prop :=
  ∀ log, walk.run log = (verdict, log ++ questions)

namespace Asking.Yields

variable {walk : Asking Kleene} {next : Kleene → Asking Kleene} {first second : Kleene}
  {asked more : List Question}

theorem pure (verdict : Kleene) : Yields (Pure.pure verdict) verdict [] :=
  fun log => by rw [List.append_nil]; rfl

theorem bind (before : Yields walk first asked) (behind : Yields (next first) second more) :
    Yields (walk >>= next) second (asked ++ more) := by
  intro log
  have run : (walk >>= next).run log = (next (walk.run log).1).run (walk.run log).2 := rfl
  rw [run, before log, ← List.append_assoc]
  exact behind _

theorem map (before : Yields walk first asked) (change : Kleene → Kleene) :
    Yields (walk >>= fun verdict => Pure.pure (change verdict)) (change first) asked := by
  intro log
  have run : (walk >>= fun verdict => Pure.pure (change verdict)).run log =
      (change (walk.run log).1, (walk.run log).2) := rfl
  rw [run, before log]

theorem ask (question : Question) :
    (c.ask question).Yields (c.oracle.answer question) [question] := fun _ => rfl

end Asking.Yields

open Asking

theorem Demand.yields_walk (demand : Demand) :
    (demand.walk c).Yields (demand.verdict c.oracle) demand.question?.toList := by
  cases demand with
  | decided verdict => exact .pure verdict
  | ask f => exact .ask _

private theorem Demand.yields_foldlM (demands : List Demand) (verdict : Kleene) :
    Yields (demands.foldlM (fun verdict demand => return verdict.and (← demand.walk c)) verdict)
      (verdict.and (Kleene.all (demands.map (Demand.verdict c.oracle))))
      (demands.filterMap Demand.question?) := by
  induction demands generalizing verdict with
  | nil =>
    rw [List.map_nil, Kleene.all, List.foldr_nil, Kleene.and_yes]
    exact .pure verdict
  | cons demand demands ih =>
    have asked : (demand :: demands).filterMap Demand.question? =
        demand.question?.toList ++ demands.filterMap Demand.question? := by
      cases h : demand.question? <;> simp [h]
    rw [List.foldlM_cons, asked, List.map_cons, Kleene.all, List.foldr_cons, ← Kleene.and_assoc]
    exact (demand.yields_walk.map _).bind (ih _)

theorem Feature.yields_walk (f : Feature) : (f.walk c).Yields (f.verdict c) (f.questions c) := by
  have walks := Demand.yields_foldlM (c := c) (f.demands c.known c.metrics) .yes
  rwa [Kleene.yes_and] at walks

mutual

theorem InParens.yields_walk : ∀ item : InParens,
    (item.walk c).Yields (item.verdict c) (item.questions c)
  | .condition condition => condition.yields_walk
  | .feature f => f.yields_walk
  | .enclosed _ => .ask _

theorem InParens.yields_walkAll : ∀ (items : List InParens) (verdict : Kleene),
    (InParens.walkAll c verdict items).Yields (verdict.and (InParens.allVerdict c items))
      (InParens.allQuestions c items)
  | [], verdict => by
    rw [InParens.allVerdict, Kleene.and_yes]
    exact .pure verdict
  | item :: items, verdict => by
    rw [InParens.allVerdict, ← Kleene.and_assoc]
    exact item.yields_walk.bind (InParens.yields_walkAll items _)

theorem InParens.yields_walkAny : ∀ (items : List InParens) (verdict : Kleene),
    (InParens.walkAny c verdict items).Yields (verdict.or (InParens.anyVerdict c items))
      (InParens.allQuestions c items)
  | [], verdict => by
    rw [InParens.anyVerdict, Kleene.or_no]
    exact .pure verdict
  | item :: items, verdict => by
    rw [InParens.anyVerdict, ← Kleene.or_assoc]
    exact item.yields_walk.bind (InParens.yields_walkAny items _)

theorem Condition.yields_walk : ∀ condition : Condition,
    (condition.walk c).Yields (condition.verdict c) (condition.questions c)
  | .and items => by
    have walks := InParens.yields_walkAll items .yes
    rwa [Kleene.yes_and] at walks
  | .or items => by
    have walks := InParens.yields_walkAny items .no
    rwa [Kleene.no_or] at walks
  | .not item => item.yields_walk.map Kleene.not

end

theorem Query.yields_walk (q : Query) : (q.walk c).Yields (q.verdict c) (q.questions c) := by
  obtain ⟨qualifier, mediaType, condition⟩ := q
  cases condition with
  | none => exact (Yields.pure .yes).map _
  | some condition => exact condition.yields_walk.map _

/-- The walk through a list stops where the list is found to be true. -/
theorem QueryList.yields_walkFrom (list : QueryList) {verdict : Kleene}
    (undecided : verdict ≠ .yes) :
    (QueryList.walkFrom c verdict list).Yields (verdict.or (list.verdict c))
      (list.questions c) := by
  induction list generalizing verdict with
  | nil =>
    rw [QueryList.verdict, List.map_nil, Kleene.any, List.foldr_nil, Kleene.or_no]
    exact .pure verdict
  | cons q qs ih =>
    refine q.yields_walk.bind ?_
    have whole : QueryList.verdict c (q :: qs) = (q.verdict c).or (QueryList.verdict c qs) := rfl
    by_cases holds : q.verdict c = .yes
    · have found : verdict.or (q.verdict c) = .yes := by
        rw [holds]
        cases verdict <;> rfl
      have settled : verdict.or (QueryList.verdict c (q :: qs)) = .yes := by
        rw [whole, ← Kleene.or_assoc, found]
        rfl
      rw [if_pos found, if_pos holds, settled]
      exact .pure .yes
    · have further : verdict.or (q.verdict c) ≠ .yes := by
        revert undecided holds
        cases verdict <;> cases q.verdict c <;> decide
      rw [if_neg further, if_neg holds, whole, ← Kleene.or_assoc]
      exact ih further

end Runs

/-- Some queries of a list are those up to the first one that makes it true, this one included. -/
structure QueryList.Reaches (c : SolverConfig) (list reached : QueryList) : Prop where
  start : reached <+: list
  first : ∀ front : QueryList, front <+: reached → front ≠ reached → front.verdict c ≠ .yes
  last : reached = list ∨ reached.verdict c = .yes

section Order

variable (c : SolverConfig)

mutual

theorem InParens.questions_eq_leaves : ∀ item : InParens,
    item.questions c = item.leaves.flatMap (Leaf.questions c)
  | .condition condition => condition.questions_eq_leaves
  | .feature f => by simp [InParens.questions, InParens.leaves, Leaf.questions]
  | .enclosed text => by simp [InParens.questions, InParens.leaves, Leaf.questions]

theorem InParens.allQuestions_eq_leaves : ∀ items : List InParens,
    InParens.allQuestions c items = (InParens.allLeaves items).flatMap (Leaf.questions c)
  | [] => rfl
  | item :: items => by
    rw [InParens.allQuestions, InParens.allLeaves, List.flatMap_append,
      item.questions_eq_leaves, InParens.allQuestions_eq_leaves items]

theorem Condition.questions_eq_leaves : ∀ condition : Condition,
    condition.questions c = condition.leaves.flatMap (Leaf.questions c)
  | .and items => InParens.allQuestions_eq_leaves items
  | .or items => InParens.allQuestions_eq_leaves items
  | .not item => item.questions_eq_leaves

end

theorem Query.questions_eq_leaves (q : Query) :
    q.questions c = q.leaves.flatMap (Leaf.questions c) := by
  rw [Query.questions, Query.leaves]
  cases q.condition with
  | none => rfl
  | some condition => exact condition.questions_eq_leaves c

/-- The questions of a list are those of the leaves that are reached. -/
theorem QueryList.exists_reached (list : QueryList) : ∃ reached, list.Reaches c reached ∧
    list.questions c = (reached.flatMap Query.leaves).flatMap (Leaf.questions c) := by
  induction list with
  | nil => exact ⟨[], ⟨List.prefix_rfl, by simp, .inl rfl⟩, rfl⟩
  | cons q qs ih =>
    by_cases holds : q.verdict c = .yes
    · refine ⟨[q], ⟨⟨qs, rfl⟩, fun front start shorter => ?_, .inr ?_⟩, ?_⟩
      · have none : front = [] := by
          rcases List.prefix_cons_iff.1 start with none | ⟨rest, rfl, inner⟩
          · exact none
          · rw [List.prefix_nil.1 inner] at shorter
            exact absurd rfl shorter
        rw [none]
        nofun
      · change (q.verdict c).or .no = .yes
        rw [holds]
        rfl
      · rw [QueryList.questions, if_pos holds, List.append_nil, List.flatMap_singleton,
          q.questions_eq_leaves]
    · obtain ⟨reached, reaches, asked⟩ := ih
      have further (front : QueryList) :
          QueryList.verdict c (q :: front) = .yes ↔ front.verdict c = .yes := by
        change (q.verdict c).or (front.verdict c) = .yes ↔ _
        revert holds
        cases q.verdict c <;> cases front.verdict c <;> decide
      refine ⟨q :: reached, ⟨?_, fun front start shorter => ?_, ?_⟩, ?_⟩
      · exact (List.cons_prefix_cons ..).2 ⟨rfl, reaches.start⟩
      · rcases List.prefix_cons_iff.1 start with rfl | ⟨rest, rfl, inner⟩
        · nofun
        · rw [ne_eq, further]
          exact reaches.first rest inner fun same => shorter (by rw [same])
      · exact reaches.last.imp (fun whole => by rw [whole]) (further reached).2
      · rw [QueryList.questions, if_neg holds, asked, q.questions_eq_leaves, List.flatMap_cons,
          List.flatMap_append]

end Order

section NormalForm

variable {c : SolverConfig} {f g : Feature}

/-- A test in normal form, of a feature that is known: its name where it may fail, one of its
words, or a comparison of the name on the left with one value of its kind. -/
inductive Feature.Askable (c : SolverConfig) : Feature → Prop where
  | boolean {name : String} {knowledge : Knowledge} (known : c.known.get? name = some knowledge)
      (mayFail : knowledge.canBeFalsy = true) : Askable c (.boolean name)
  | word {name text : String} {value : Value} {values : List String} {canBeFalse : Bool}
      (known : c.known.get? name = some (.discrete values canBeFalse))
      (spelt : value.discreteText? = some text) (listed : text ∈ values) :
      Askable c (.plain name value)
  | number {name : String} {value : Value} {kind : RangeKind} {canBeZero canBeNegative : Bool}
      {extraValues : List String}
      (known : c.known.get? name = some (.range kind canBeZero canBeNegative extraValues))
      (typed : (value.inRange? c.metrics kind extraValues).isSome = true) :
      Askable c (.plain name value)
  | comparison {name : String} {op : Comparison} {value : Value} {kind : RangeKind}
      {canBeZero canBeNegative : Bool} {extraValues : List String}
      (known : c.known.get? name = some (.range kind canBeZero canBeNegative extraValues))
      (typed : (value.inRange? c.metrics kind extraValues).isSome = true) :
      Askable c (.range name none (some (op, value)))

def Feature.isTwoSided : Feature → Bool
  | .range _ (some _) (some _) => true
  | _ => false

/-- A test that is asked in place of another one: it is in normal form, and it has the same name,
or the name without a limit if only that one is known. -/
structure Feature.StandsFor (c : SolverConfig) (g f : Feature) : Prop where
  askable : g.Askable c
  name : g.name = f.name ∨ c.known.get? f.name = none ∧
    ∃ limit, FeatureTable.splitLimit? f.name = some (limit, g.name)

theorem Feature.compareDemand_eq_ask {knowledge : Knowledge} {asked : Feature} {op : Comparison}
    {value : Value} (demand : compareDemand c.metrics knowledge asked op value = .ask g) :
    g = asked ∧ ∃ kind canBeZero canBeNegative extraValues,
      knowledge = .range kind canBeZero canBeNegative extraValues ∧
        (value.inRange? c.metrics kind extraValues).isSome = true := by
  unfold compareDemand at demand
  split at demand
  · cases demand
  · rename_i kind canBeZero canBeNegative extraValues
    split at demand
    · cases demand
    · rename_i x read
      have typed : (value.inRange? c.metrics kind extraValues).isSome = true := by simp [read]
      split at demand
      · cases demand
        exact ⟨rfl, _, _, _, _, rfl, typed⟩
      · split at demand
        · cases demand
        · cases demand
          exact ⟨rfl, _, _, _, _, rfl, typed⟩

theorem Feature.standsFor_of_known {knowledge : Knowledge}
    (known : c.known.get? f.name = some knowledge)
    (mem : .ask g ∈ f.knownDemands c.metrics knowledge) : g.StandsFor c f := by
  have compared {asked : Feature} {op : Comparison} {value : Value}
      (demand : .ask g = compareDemand c.metrics knowledge asked op value)
      (askable : ∀ kind canBeZero canBeNegative extraValues,
        knowledge = .range kind canBeZero canBeNegative extraValues →
          (value.inRange? c.metrics kind extraValues).isSome = true → asked.Askable c)
      (same : asked.name = f.name) : g.StandsFor c f := by
    obtain ⟨rfl, kind, canBeZero, canBeNegative, extraValues, ranges, typed⟩ :=
      compareDemand_eq_ask demand.symm
    exact ⟨askable _ _ _ _ ranges typed, .inl same⟩
  unfold knownDemands at mem
  split at mem
  · rename_i name
    split at mem
    · cases List.mem_singleton.1 mem
      exact ⟨.boolean known ‹_›, .inl rfl⟩
    · cases List.mem_singleton.1 mem
  · rename_i name value values canBeFalse
    split at mem
    · rename_i listed
      cases List.mem_singleton.1 mem
      obtain ⟨text, spelt, inside⟩ := (Option.any_eq_true _ _).1 listed
      exact ⟨.word known spelt (List.contains_iff_mem.1 inside), .inl rfl⟩
    · cases List.mem_singleton.1 mem
  · exact compared (List.mem_singleton.1 mem) (fun _ _ _ _ ranges => .number (ranges ▸ known)) rfl
  · cases List.mem_singleton.1 mem
  · exact compared (List.mem_singleton.1 mem)
      (fun _ _ _ _ ranges => .comparison (ranges ▸ known)) rfl
  · exact compared (List.mem_singleton.1 mem)
      (fun _ _ _ _ ranges => .comparison (ranges ▸ known)) rfl
  · rcases List.mem_cons.1 mem with mem | mem
    · exact compared mem (fun _ _ _ _ ranges => .comparison (ranges ▸ known)) rfl
    · exact compared (List.mem_singleton.1 mem)
        (fun _ _ _ _ ranges => .comparison (ranges ▸ known)) rfl
  · cases List.mem_singleton.1 mem

/-- What becomes of a test of an unknown feature is asked about the feature without the limit. -/
theorem Feature.standsFor_of_unknown (unknown : c.known.get? f.name = none)
    (mem : .ask g ∈ f.unknownDemands c.known c.metrics) : g.StandsFor c f := by
  unfold unknownDemands at mem
  split at mem
  · rename_i name value
    split at mem
    · rename_i limit base split
      split at mem
      · rename_i kind canBeZero canBeNegative extraValues known
        obtain ⟨rfl, _, _, _, _, ranges, typed⟩ :=
          compareDemand_eq_ask (List.mem_singleton.1 mem).symm
        exact ⟨.comparison (known.trans (congrArg some ranges)) typed,
          .inr ⟨unknown, limit, split⟩⟩
      · cases List.mem_singleton.1 mem
    · cases List.mem_singleton.1 mem
  · cases List.mem_singleton.1 mem

/-- A test only leads to questions that stand for it. -/
theorem Feature.exists_standsFor {question : Question} (mem : question ∈ f.questions c) :
    ∃ g, question = .feature g ∧ g.StandsFor c f := by
  obtain ⟨demand, inside, asked⟩ := List.mem_filterMap.1 mem
  cases demand with
  | decided verdict => cases asked
  | ask g =>
    cases asked
    refine ⟨g, rfl, ?_⟩
    unfold demands at inside
    split at inside
    · exact standsFor_of_known ‹_› inside
    · exact standsFor_of_unknown ‹_› inside

/-- Only a test with values on both sides falls into two. -/
theorem Feature.demands_length (known : KeyMap Knowledge) (m : Metrics) :
    (f.demands known m).length = 1 ∨ (f.demands known m).length = 2 ∧ f.isTwoSided = true := by
  unfold demands
  split
  · unfold knownDemands
    split
    · split <;> exact .inl rfl
    · split <;> exact .inl rfl
    all_goals first | exact .inl rfl | exact .inr ⟨rfl, rfl⟩
  · unfold unknownDemands
    split
    · split
      · split <;> exact .inl rfl
      · exact .inl rfl
    · exact .inl rfl

theorem Feature.questions_length_le (f : Feature) :
    (f.questions c).length ≤ if f.isTwoSided then 2 else 1 := by
  have fewer : (f.questions c).length ≤ (f.demands c.known c.metrics).length :=
    List.length_filterMap_le _ _
  rcases demands_length (f := f) c.known c.metrics with one | ⟨two, sides⟩
  · split <;> omega
  · rw [if_pos sides]
    omega

end NormalForm

/-- Solving a list asks about the leaves of the queries that are reached, and about nothing else:
from left to right, once about each text, and at most once about each test, or twice if it has
values on both sides. A test is asked about in normal form. -/
theorem QueryList.walk_asks (c : SolverConfig) (list : QueryList) (log : List Question) :
    ∃ reached, list.Reaches c reached ∧
      (list.walk c).run log =
        (list.verdict c, log ++ (reached.flatMap Query.leaves).flatMap (Leaf.questions c)) ∧
      list.questions c = (reached.flatMap Query.leaves).flatMap (Leaf.questions c) ∧
      ∀ leaf ∈ reached.flatMap Query.leaves, match leaf with
        | .text s => leaf.questions c = [.enclosed s]
        | .test f => (leaf.questions c).length ≤ (if f.isTwoSided then 2 else 1) ∧
          ∀ question ∈ leaf.questions c, ∃ g, question = .feature g ∧ g.StandsFor c f := by
  obtain ⟨reached, reaches, asked⟩ := list.exists_reached c
  have unsettled : Kleene.no ≠ .yes := by decide
  have walks := list.yields_walkFrom (c := c) unsettled log
  rw [Kleene.no_or, asked] at walks
  refine ⟨reached, reaches, walks, asked, fun leaf _ => ?_⟩
  cases leaf with
  | text s => rfl
  | test f => exact ⟨f.questions_length_le, fun _ => Feature.exists_standsFor⟩

end MediaQuery
