import MediaQuery.Proofs.Compile
import MediaQuery.Proofs.Demand

set_option autoImplicit false

namespace MediaQuery

@[simp] theorem Kleene.ofBool_eq_yes {b : Bool} : ofBool b = .yes ↔ b = true := by
  cases b <;> decide

@[simp] theorem Kleene.ofBool_eq_no {b : Bool} : ofBool b = .no ↔ b = false := by
  cases b <;> decide

@[simp] theorem Kleene.ofBool_ne_unknown {b : Bool} : ofBool b ≠ .unknown := by
  cases b <;> decide

/-- A relation between verdicts and truth values that the connectives respect. -/
structure Kleene.Respected (R : Kleene → Bool → Prop) : Prop where
  yes : R .yes true
  no : R .no false
  not : ∀ {k b}, R k b → R k.not (!b)
  and : ∀ {k b l c}, R k b → R l c → R (k.and l) (b && c)
  or : ∀ {k b l c}, R k b → R l c → R (k.or l) (b || c)

theorem Kleene.respected_exact : Respected fun k b => k = ofBool b where
  yes := rfl
  no := rfl
  not := by
    rintro _ b rfl
    exact (ofBool_not b).symm
  and := by
    rintro _ b _ c rfl rfl
    exact (ofBool_and b c).symm
  or := by
    rintro _ b _ c rfl rfl
    exact (ofBool_or b c).symm

theorem Kleene.respected_known : Respected fun k b => k ≠ .unknown → k = ofBool b where
  yes _ := rfl
  no _ := rfl
  not {k b} same := by
    revert same
    cases k <;> cases b <;> decide
  and {k b l c} first second := by
    revert first second
    cases k <;> cases b <;> cases l <;> cases c <;> decide
  or {k b l c} first second := by
    revert first second
    cases k <;> cases b <;> cases l <;> cases c <;> decide

namespace Kleene.Respected

variable {R : Kleene → Bool → Prop} {α : Type} {verdict : α → Kleene} {truth : α → Bool}
  {xs : List α}

theorem all (respected : Respected R) (each : ∀ x ∈ xs, R (verdict x) (truth x)) :
    R (Kleene.all (xs.map verdict)) (xs.all truth) := by
  induction xs with
  | nil => exact respected.yes
  | cons x rest ih =>
    rw [List.forall_mem_cons] at each
    rw [List.all_cons]
    exact respected.and each.1 (ih each.2)

theorem any (respected : Respected R) (each : ∀ x ∈ xs, R (verdict x) (truth x)) :
    R (Kleene.any (xs.map verdict)) (xs.any truth) := by
  induction xs with
  | nil => exact respected.no
  | cons x rest ih =>
    rw [List.forall_mem_cons] at each
    rw [List.any_cons]
    exact respected.or each.1 (ih each.2)

end Kleene.Respected

section Trees

variable {R : Kleene → Bool → Prop} {c : SolverConfig} {value : Feature → Bool}
  (text : String → Bool)

mutual

theorem InParens.verdict_truth (respected : Kleene.Respected R) : ∀ item : InParens,
    (∀ f ∈ item.features, R (f.verdict c) (value f)) → item.texts = [] →
      R (item.verdict c) (item.truth value text)
  | .condition condition, leaves, noText => by
    simpa only [InParens.verdict, InParens.truth] using
      Condition.verdict_truth respected condition leaves noText
  | .feature f, leaves, noText => by
    simpa only [InParens.verdict, InParens.truth] using
      leaves f (by simp [InParens.features])
  | .enclosed s, leaves, noText => by cases noText

theorem InParens.allVerdict_truth (respected : Kleene.Respected R) : ∀ items : List InParens,
    (∀ f ∈ InParens.allFeatures items, R (f.verdict c) (value f)) →
      InParens.allTexts items = [] →
      R (InParens.allVerdict c items) (InParens.allTruth value text items)
  | [], leaves, noText => respected.yes
  | item :: items, leaves, noText => by
    simp only [InParens.allFeatures, List.mem_append] at leaves
    simp only [InParens.allTexts, List.append_eq_nil_iff] at noText
    rw [InParens.allVerdict, InParens.allTruth]
    exact respected.and
      (InParens.verdict_truth respected item (fun f mem => leaves f (.inl mem)) noText.1)
      (InParens.allVerdict_truth respected items (fun f mem => leaves f (.inr mem)) noText.2)

theorem InParens.anyVerdict_truth (respected : Kleene.Respected R) : ∀ items : List InParens,
    (∀ f ∈ InParens.allFeatures items, R (f.verdict c) (value f)) →
      InParens.allTexts items = [] →
      R (InParens.anyVerdict c items) (InParens.anyTruth value text items)
  | [], leaves, noText => respected.no
  | item :: items, leaves, noText => by
    simp only [InParens.allFeatures, List.mem_append] at leaves
    simp only [InParens.allTexts, List.append_eq_nil_iff] at noText
    rw [InParens.anyVerdict, InParens.anyTruth]
    exact respected.or
      (InParens.verdict_truth respected item (fun f mem => leaves f (.inl mem)) noText.1)
      (InParens.anyVerdict_truth respected items (fun f mem => leaves f (.inr mem)) noText.2)

theorem Condition.verdict_truth (respected : Kleene.Respected R) : ∀ condition : Condition,
    (∀ f ∈ condition.features, R (f.verdict c) (value f)) → condition.texts = [] →
      R (condition.verdict c) (condition.truth value text)
  | .and items, leaves, noText => by
    simpa only [Condition.verdict, Condition.truth] using
      InParens.allVerdict_truth respected items leaves noText
  | .or items, leaves, noText => by
    simpa only [Condition.verdict, Condition.truth] using
      InParens.anyVerdict_truth respected items leaves noText
  | .not item, leaves, noText => by
    rw [Condition.verdict, Condition.truth]
    exact respected.not (InParens.verdict_truth respected item leaves noText)

end

variable {medium : Medium}

theorem MediaType.verdict_holds (respected : Kleene.Respected R)
    (screen : R c.isScreen (medium == .screen)) (t : MediaType) :
    R (t.verdict c.isScreen) (t.holds medium) := by
  cases t with
  | all => exact respected.yes
  | screen => exact screen
  | print =>
    have other : (medium == .print) = !(medium == .screen) := by cases medium <;> rfl
    rw [MediaType.verdict, MediaType.holds, other]
    exact respected.not screen
  | other name => exact respected.no

theorem Query.verdict_truth (respected : Kleene.Respected R)
    (screen : R c.isScreen (medium == .screen)) (modern : c.isLegacy = .no) (q : Query)
    (leaves : ∀ f ∈ q.features, R (f.verdict c) (value f)) (noText : q.texts = []) :
    R (q.verdict c) (q.truth medium value text) := by
  have condition : R ((q.condition.map (Condition.verdict c)).getD .yes)
      ((q.condition.map (Condition.truth value text)).getD true) := by
    rw [Query.features] at leaves
    rw [Query.texts] at noText
    cases found : q.condition with
    | none => exact respected.yes
    | some condition =>
      rw [found] at leaves noText
      exact Condition.verdict_truth text respected condition leaves noText
  have both := respected.and (MediaType.verdict_holds respected screen q.mediaType) condition
  simp only [Query.verdict, Query.truth]
  cases q.qualifier with
  | none => exact both
  | some word =>
    cases word with
    | not => exact respected.not both
    | only =>
      have whole := respected.and both respected.yes
      rw [Bool.and_true] at whole
      rw [modern]
      exact whole

/-- The verdict on a list is to its truth value as the verdicts on its tests are to theirs. -/
theorem QueryList.verdict_truth (respected : Kleene.Respected R)
    (screen : R c.isScreen (medium == .screen)) (modern : c.isLegacy = .no) (list : QueryList)
    (leaves : ∀ f ∈ list.features, R (f.verdict c) (value f)) (noText : list.texts = []) :
    R (list.verdict c) (list.truth medium value text) :=
  respected.any fun q mem => Query.verdict_truth text respected screen modern q
    (fun f inside => leaves f (List.mem_flatMap.2 ⟨q, mem, inside⟩))
    (List.flatMap_eq_nil_iff.1 noText q mem)

end Trees

section Leaves

variable {d : Device} {m : Metrics} {ratios : String → Ratio → Prop} {demand : Demand}

theorem Demand.verdict_ofDevice (sound : d.Sound ratios) (definite : demand.Definite ratios m) :
    demand.verdict (Oracle.ofDevice d m) = Kleene.ofBool (demand.truth d m) := by
  cases definite with
  | @decided verdict known => cases verdict <;> first | rfl | exact absurd rfl known
  | @ask f plain =>
    have suits (c : Clause) (mem : c ∈ f.clauses m) := (plain c mem).suits
    have valid := Device.validate_eq_ok.2 sound.valid
    have matched : (Outcome.ofClauses (f.clauses m)).matches d =
        .ok (Clause.anyHolds d (f.clauses m)) := by
      simp only [Outcome.matches, valid, Outcome.anyHolds_ofClauses sound suits]
      rfl
    simp only [Demand.verdict, Oracle.ofDevice, Demand.truth, matched]

/-- Without an oracle, only a decision is more than unknown. -/
theorem Demand.verdict_silent (known : demand.verdict Oracle.silent ≠ .unknown) :
    demand.verdict Oracle.silent = Kleene.ofBool (demand.truth d m) := by
  cases demand with
  | decided verdict =>
    cases verdict <;> first | rfl | exact absurd rfl known
  | ask f => exact absurd rfl known

end Leaves

end MediaQuery
