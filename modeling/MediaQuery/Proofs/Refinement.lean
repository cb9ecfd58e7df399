import MediaQuery.Solver.Basic

set_option autoImplicit false

namespace MediaQuery

namespace Kleene

/-- The second verdict is the first one, unless the first one is unknown. -/
def RefinedBy (k l : Kleene) : Prop := k ≠ .unknown → l = k

instance (k l : Kleene) : Decidable (k.RefinedBy l) :=
  inferInstanceAs (Decidable (k ≠ .unknown → l = k))

variable {k l k' l' : Kleene}

theorem RefinedBy.refl (k : Kleene) : k.RefinedBy k := fun _ => rfl

theorem unknown_refinedBy (k : Kleene) : unknown.RefinedBy k := fun known => absurd rfl known

theorem RefinedBy.not (more : k.RefinedBy l) : k.not.RefinedBy l.not := by
  revert more
  cases k <;> cases l <;> decide

theorem RefinedBy.and (first : k.RefinedBy l) (second : k'.RefinedBy l') :
    (k.and k').RefinedBy (l.and l') := by
  revert first second
  cases k <;> cases l <;> cases k' <;> cases l' <;> decide

theorem RefinedBy.or (first : k.RefinedBy l) (second : k'.RefinedBy l') :
    (k.or k').RefinedBy (l.or l') := by
  revert first second
  cases k <;> cases l <;> cases k' <;> cases l' <;> decide

section Lists

variable {α : Type} {xs : List α} {verdict verdict' : α → Kleene}

theorem refinedBy_all (each : ∀ x ∈ xs, (verdict x).RefinedBy (verdict' x)) :
    (all (xs.map verdict)).RefinedBy (all (xs.map verdict')) := by
  induction xs with
  | nil => exact .refl _
  | cons x rest ih =>
    rw [List.forall_mem_cons] at each
    exact each.1.and (ih each.2)

theorem refinedBy_any (each : ∀ x ∈ xs, (verdict x).RefinedBy (verdict' x)) :
    (any (xs.map verdict)).RefinedBy (any (xs.map verdict')) := by
  induction xs with
  | nil => exact .refl _
  | cons x rest ih =>
    rw [List.forall_mem_cons] at each
    exact each.1.or (ih each.2)

end Lists

end Kleene

/-- The second solver knows the same of the features and measures lengths alike, and it agrees with
the first one on all else that the first one knows. -/
structure SolverConfig.RefinedBy (c c' : SolverConfig) : Prop where
  known : c'.known = c.known
  metrics : c'.metrics = c.metrics
  screen : c.isScreen.RefinedBy c'.isScreen
  legacy : c.isLegacy.RefinedBy c'.isLegacy
  feature : ∀ f, (c.oracle.feature f).RefinedBy (c'.oracle.feature f)
  enclosed : ∀ text, (c.oracle.enclosed text).RefinedBy (c'.oracle.enclosed text)

section Verdicts

variable {c c' : SolverConfig}

theorem Demand.refinedBy_verdict (more : c.RefinedBy c') (demand : Demand) :
    (demand.verdict c.oracle).RefinedBy (demand.verdict c'.oracle) := by
  cases demand with
  | decided verdict => exact .refl verdict
  | ask f => exact more.feature f

/-- Both solvers make the same demands of a test. -/
theorem Feature.refinedBy_verdict (more : c.RefinedBy c') (f : Feature) :
    (f.verdict c).RefinedBy (f.verdict c') := by
  rw [Feature.verdict, Feature.verdict, more.known, more.metrics]
  exact Kleene.refinedBy_all fun demand _ => demand.refinedBy_verdict more

mutual

theorem InParens.refinedBy_verdict (more : c.RefinedBy c') : ∀ item : InParens,
    (item.verdict c).RefinedBy (item.verdict c')
  | .condition condition => Condition.refinedBy_verdict more condition
  | .feature f => f.refinedBy_verdict more
  | .enclosed text => more.enclosed text

theorem InParens.refinedBy_allVerdict (more : c.RefinedBy c') : ∀ items : List InParens,
    (InParens.allVerdict c items).RefinedBy (InParens.allVerdict c' items)
  | [] => .refl _
  | item :: items =>
    (InParens.refinedBy_verdict more item).and (InParens.refinedBy_allVerdict more items)

theorem InParens.refinedBy_anyVerdict (more : c.RefinedBy c') : ∀ items : List InParens,
    (InParens.anyVerdict c items).RefinedBy (InParens.anyVerdict c' items)
  | [] => .refl _
  | item :: items =>
    (InParens.refinedBy_verdict more item).or (InParens.refinedBy_anyVerdict more items)

theorem Condition.refinedBy_verdict (more : c.RefinedBy c') : ∀ condition : Condition,
    (condition.verdict c).RefinedBy (condition.verdict c')
  | .and items => InParens.refinedBy_allVerdict more items
  | .or items => InParens.refinedBy_anyVerdict more items
  | .not item => (InParens.refinedBy_verdict more item).not

end

theorem MediaType.refinedBy_verdict (more : c.RefinedBy c') (t : MediaType) :
    (t.verdict c.isScreen).RefinedBy (t.verdict c'.isScreen) := by
  cases t with
  | all => exact .refl _
  | screen => exact more.screen
  | print => exact more.screen.not
  | other name => exact .refl _

theorem Query.refinedBy_verdict (more : c.RefinedBy c') (q : Query) :
    (q.verdict c).RefinedBy (q.verdict c') := by
  have condition : ((q.condition.map (Condition.verdict c)).getD .yes).RefinedBy
      ((q.condition.map (Condition.verdict c')).getD .yes) := by
    cases q.condition with
    | none => exact .refl .yes
    | some condition => exact Condition.refinedBy_verdict more condition
  have both := (q.mediaType.refinedBy_verdict more).and condition
  simp only [Query.verdict]
  cases q.qualifier with
  | none => exact both
  | some word =>
    cases word with
    | not => exact both.not
    | only => exact both.and more.legacy.not

/-- A solver that knows more keeps every verdict that is reached with less: on a list, a query, a
condition, an item and a test. -/
theorem SolverConfig.RefinedBy.keeps_verdicts (more : c.RefinedBy c') :
    (∀ list : QueryList, (list.verdict c).RefinedBy (list.verdict c')) ∧
      (∀ q : Query, (q.verdict c).RefinedBy (q.verdict c')) ∧
      (∀ condition : Condition, (condition.verdict c).RefinedBy (condition.verdict c')) ∧
      (∀ item : InParens, (item.verdict c).RefinedBy (item.verdict c')) ∧
      ∀ f : Feature, (f.verdict c).RefinedBy (f.verdict c') :=
  ⟨fun _ => Kleene.refinedBy_any fun q _ => q.refinedBy_verdict more,
    Query.refinedBy_verdict more, Condition.refinedBy_verdict more,
    InParens.refinedBy_verdict more, Feature.refinedBy_verdict more⟩

end Verdicts

def SolverConfig.hoveringScreen : SolverConfig where
  isScreen := .yes
  oracle := {
    feature := fun f => match f with
      | .boolean "hover" => .yes
      | _ => .unknown
    enclosed := fun _ => .unknown }

theorem SolverConfig.hoveringScreen_refinedBy :
    hoveringScreen.RefinedBy (ofDevice {} {}) where
  known := rfl
  metrics := rfl
  screen := by decide
  legacy := by decide
  feature f := by
    unfold hoveringScreen
    dsimp only
    split
    · decide +kernel
    · exact Kleene.unknown_refinedBy _
  enclosed text := Kleene.unknown_refinedBy _

/-- `not print and ((hover) or (width > 600px))` -/
def hoverOrWide : QueryList :=
  [⟨some .not, .print, some (.or [.feature (.boolean "hover"),
    .feature (.range "width" none (some (.gt, .dimension 600 "px")))])⟩]

/-- What is decided about a screen whose pointer can hover stays decided when the whole device is
known. -/
theorem SolverConfig.RefinedBy.keeps_verdicts_desktop :
    hoverOrWide.verdict hoveringScreen = .yes ∧
      hoverOrWide.verdict (ofDevice {} {}) = .yes := by
  have decided : hoverOrWide.verdict hoveringScreen = .yes := by decide +kernel
  have known : hoverOrWide.verdict hoveringScreen ≠ .unknown := by
    rw [decided]
    decide
  have kept := hoveringScreen_refinedBy.keeps_verdicts.1 hoverOrWide known
  exact ⟨decided, kept.trans decided⟩

end MediaQuery
