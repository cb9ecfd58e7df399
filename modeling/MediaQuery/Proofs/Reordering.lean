import MediaQuery.Proofs.Agreement
import MediaQuery.Proofs.Arrangement

set_option autoImplicit false

namespace MediaQuery

mutual

def InParens.Reordered : InParens → InParens → Prop
  | .condition c, .condition d => c.Reordered d
  | .feature f, .feature g => f = g
  | .enclosed s, .enclosed t => s = t
  | _, _ => False

/-- Items that differ, each from the one at its place, only in the order of operands inside. -/
def InParens.AllReordered : List InParens → List InParens → Prop
  | [], [] => True
  | x :: xs, y :: ys => x.Reordered y ∧ InParens.AllReordered xs ys
  | _, _ => False

/-- Conditions that differ only in the order of operands, at any depth. -/
def Condition.Reordered : Condition → Condition → Prop
  | .and xs, .and ys => ∃ zs, ys.Perm zs ∧ InParens.AllReordered xs zs
  | .or xs, .or ys => ∃ zs, ys.Perm zs ∧ InParens.AllReordered xs zs
  | .not x, .not y => x.Reordered y
  | _, _ => False

end

structure Query.Reordered (p q : Query) : Prop where
  qualifier : p.qualifier = q.qualifier
  mediaType : p.mediaType = q.mediaType
  condition : Option.Rel Condition.Reordered p.condition q.condition

/-- Lists that differ only in the order of queries and of operands in them. -/
def QueryList.Reordered (list list' : QueryList) : Prop :=
  ∃ qs, list'.Perm qs ∧ List.Forall₂ Query.Reordered list qs

section Lists

variable {m : Metrics}

theorem InParens.allClauses_eq (done : List Clause) (items : List InParens) :
    InParens.allClauses m done items =
      (items.map (InParens.clauses m)).foldl Clause.product done := by
  induction items generalizing done with
  | nil => rfl
  | cons item rest ih => exact ih _

theorem InParens.anyClauses_eq (items : List InParens) :
    InParens.anyClauses m items = (items.map (InParens.clauses m)).flatten := by
  induction items with
  | nil => rfl
  | cons item rest ih => rw [InParens.anyClauses, ih, List.map_cons, List.flatten_cons]

end Lists

namespace Clause

variable {css dss : List (List Clause)}

theorem alike_flatten (alike : List.Forall₂ Alike css dss) : Alike css.flatten dss.flatten := by
  induction alike with
  | nil => exact .refl []
  | cons first _ ih => exact first.append ih

theorem plain_of_forall₂ {ratios : String → Ratio → Prop} (alike : List.Forall₂ Alike css dss)
    (plain : ∀ cs ∈ css, ∀ c ∈ cs, c.Plain ratios) : ∀ ds ∈ dss, ∀ d ∈ ds, d.Plain ratios := by
  induction alike with
  | nil => nofun
  | cons first _ ih =>
    intro ds mem
    rcases List.mem_cons.1 mem with rfl | mem
    · exact first.plain (plain _ List.mem_cons_self)
    · exact ih (fun cs inside => plain cs (List.mem_cons_of_mem _ inside)) ds mem

theorem Alike.tagged {as bs : List Clause} (alike : Alike as bs) (tag : MediaTag) :
    Alike (as.map fun c => c.tagged tag) (bs.map fun c => c.tagged tag) := by
  have swap (cs : List Clause) : (cs.map fun c => c.tagged tag).map unsigned =
      (cs.map unsigned).map fun c => c.tagged tag := by
    rw [List.map_map, List.map_map]
    rfl
  rw [Alike, swap, swap]
  exact List.Perm.map _ alike

end Clause

section Trees

variable {ratios : String → Ratio → Prop} {m : Metrics}

private theorem compiles_of_plain {fs : List Feature}
    (leaves : ∀ f ∈ fs, ∀ c ∈ f.clauses m, c.Plain ratios) :
    ∀ f ∈ fs, f.Compiles Device.slit ratios m
      fun f => Clause.anyHolds Device.slit (f.clauses m) :=
  fun f mem => ⟨leaves f mem, rfl⟩

theorem InParens.plain_clauses (scale : Ratio.Scale ratios) (item : InParens)
    (leaves : ∀ f ∈ item.features, ∀ c ∈ f.clauses m, c.Plain ratios)
    (noText : item.texts = []) : ∀ c ∈ item.clauses m, c.Plain ratios :=
  (InParens.clauses_truth (fun _ => false) scale.sound item (compiles_of_plain leaves) noText).1

/-- The clauses of a condition are plain if those of its tests are. -/
theorem Condition.plain_clauses (scale : Ratio.Scale ratios) (condition : Condition)
    (leaves : ∀ f ∈ condition.features, ∀ c ∈ f.clauses m, c.Plain ratios)
    (noText : condition.texts = []) : ∀ c ∈ condition.clauses m, c.Plain ratios :=
  (Condition.clauses_truth (fun _ => false) scale.sound condition (compiles_of_plain leaves)
    noText).1

theorem Query.plain_ownClauses (scale : Ratio.Scale ratios) (q : Query)
    (leaves : ∀ f ∈ q.features, ∀ c ∈ f.clauses m, c.Plain ratios) (noText : q.texts = []) :
    ∀ c ∈ q.ownClauses m, c.Plain ratios :=
  (Query.ownClauses_truth (fun _ => false) scale.sound q (compiles_of_plain leaves) noText).1

theorem Clause.Plain.wellTyped_tagged {c : Clause} (plain : c.Plain ratios) (tag : MediaTag) :
    (c.tagged tag).WellTyped ratios := ⟨plain.readable, plain.suits⟩

theorem QueryList.wellTyped_clauses (scale : Ratio.Scale ratios) (list : QueryList)
    (leaves : ∀ f ∈ list.features, ∀ c ∈ f.clauses m, c.Plain ratios)
    (noText : list.texts = []) : ∀ c ∈ list.clauses m, c.WellTyped ratios := by
  intro c mem
  obtain ⟨q, listed, mem⟩ := List.mem_flatMap.1 mem
  have plain := Query.plain_ownClauses scale q
    (fun f inside => leaves f (List.mem_flatMap.2 ⟨q, listed, inside⟩))
    (List.flatMap_eq_nil_iff.1 noText q listed)
  by_cases negated : q.qualifier = some .not
  · rw [Query.clauses_of_negated q negated] at mem
    rcases List.mem_append.1 mem with mem | mem
    · refine ⟨?_, q.mediaType.suits_negated c mem⟩
      cases medium : q.mediaType <;> rw [medium] at mem <;> simp [MediaType.negated] at mem <;>
        rw [mem] <;> rfl
    · obtain ⟨part, inside, rfl⟩ := List.mem_map.1 mem
      exact (Clause.plain_negateAll scale.sound plain part inside).wellTyped_tagged .all
  · rw [Query.clauses_of_affirmed q negated] at mem
    cases named : q.mediaType.tag? with
    | none => rw [named] at mem; cases mem
    | some tag =>
      rw [named] at mem
      obtain ⟨part, inside, rfl⟩ := List.mem_map.1 mem
      exact (plain part inside).wellTyped_tagged tag

mutual

theorem InParens.alike_clauses (scale : Ratio.ExactScale ratios) : ∀ item item' : InParens,
    item.Reordered item' → (∀ f ∈ item.features, ∀ c ∈ f.clauses m, c.Plain ratios) →
      item.texts = [] → Clause.Alike (item.clauses m) (item'.clauses m)
  | .condition c, .condition d => by
    intro reordered leaves noText
    simpa only [InParens.clauses] using
      Condition.alike_clauses scale c d reordered leaves noText
  | .feature f, .feature g => by
    intro reordered leaves noText
    cases reordered
    exact .refl _
  | .enclosed s, .enclosed t => by
    intro reordered leaves noText
    cases noText
  | .condition _, .feature _ | .condition _, .enclosed _ | .feature _, .condition _
  | .feature _, .enclosed _ | .enclosed _, .condition _ | .enclosed _, .feature _ => by
    intro reordered
    simp only [InParens.Reordered] at reordered

theorem InParens.alike_each (scale : Ratio.ExactScale ratios) : ∀ xs ys : List InParens,
    InParens.AllReordered xs ys →
      (∀ f ∈ InParens.allFeatures xs, ∀ c ∈ f.clauses m, c.Plain ratios) →
      InParens.allTexts xs = [] →
      List.Forall₂ Clause.Alike (xs.map (InParens.clauses m)) (ys.map (InParens.clauses m)) ∧
        ∀ cs ∈ xs.map (InParens.clauses m), ∀ c ∈ cs, c.Plain ratios
  | [], [], reordered, leaves, noText => ⟨.nil, nofun⟩
  | x :: xs, y :: ys, reordered, leaves, noText => by
    simp only [InParens.allFeatures, List.mem_append] at leaves
    simp only [InParens.allTexts, List.append_eq_nil_iff] at noText
    have first := InParens.alike_clauses scale x y reordered.1 (fun f mem => leaves f (.inl mem))
      noText.1
    have plain := InParens.plain_clauses scale.toScale x (fun f mem => leaves f (.inl mem)) noText.1
    obtain ⟨rest, plainRest⟩ := InParens.alike_each scale xs ys reordered.2
      (fun f mem => leaves f (.inr mem)) noText.2
    refine ⟨.cons first rest, fun cs mem => ?_⟩
    rcases List.mem_cons.1 mem with rfl | mem
    · exact plain
    · exact plainRest cs mem

theorem Condition.alike_clauses (scale : Ratio.ExactScale ratios) : ∀ c d : Condition,
    c.Reordered d → (∀ f ∈ c.features, ∀ part ∈ f.clauses m, part.Plain ratios) →
      c.texts = [] → Clause.Alike (c.clauses m) (d.clauses m)
  | .and xs, .and ys, ⟨zs, perm, reordered⟩, leaves, noText => by
    obtain ⟨alike, plain⟩ := InParens.alike_each scale xs zs reordered leaves noText
    have plain' := Clause.plain_of_forall₂ alike plain
    rw [Condition.clauses, Condition.clauses, InParens.allClauses_eq, InParens.allClauses_eq]
    refine (Clause.alike_foldl_product alike (.refl _)).trans ?_
    refine Clause.alike_foldl_product_perm scale (by simp [Clause.plain_top]) plain' ?_
    exact (perm.map _).symm
  | .or xs, .or ys, ⟨zs, perm, reordered⟩, leaves, noText => by
    obtain ⟨alike, _⟩ := InParens.alike_each scale xs zs reordered leaves noText
    rw [Condition.clauses, Condition.clauses, InParens.anyClauses_eq, InParens.anyClauses_eq]
    exact (Clause.alike_flatten alike).trans (.of_perm (perm.map _).symm.flatten)
  | .not x, .not y, reordered, leaves, noText => by
    rw [Condition.clauses, Condition.clauses]
    exact (InParens.alike_clauses scale x y reordered leaves noText).negateAll scale
      (InParens.plain_clauses scale.toScale x leaves noText)

end

private theorem Query.alike_ownClauses (scale : Ratio.ExactScale ratios) {p q : Query}
    (reordered : p.Reordered q) (leaves : ∀ f ∈ p.features, ∀ c ∈ f.clauses m, c.Plain ratios)
    (noText : p.texts = []) : Clause.Alike (p.ownClauses m) (q.ownClauses m) := by
  have conditions := reordered.condition
  unfold Query.ownClauses
  rw [Query.features] at leaves
  rw [Query.texts] at noText
  cases first : p.condition with
  | none =>
    rw [first] at conditions
    cases second : q.condition with
    | none => exact .refl _
    | some d => rw [second] at conditions; cases conditions
  | some c =>
    rw [first] at conditions leaves noText
    cases second : q.condition with
    | none => rw [second] at conditions; cases conditions
    | some d =>
      rw [second] at conditions
      cases conditions with
      | some reordered => exact Condition.alike_clauses scale c d reordered leaves noText

theorem Query.alike_clauses (scale : Ratio.ExactScale ratios) {p q : Query}
    (reordered : p.Reordered q) (leaves : ∀ f ∈ p.features, ∀ c ∈ f.clauses m, c.Plain ratios)
    (noText : p.texts = []) : Clause.Alike (p.clauses m) (q.clauses m) := by
  have own := Query.alike_ownClauses scale reordered leaves noText
  have plain := Query.plain_ownClauses scale.toScale p leaves noText
  by_cases negated : p.qualifier = some .not
  · have negated' : q.qualifier = some .not := reordered.qualifier ▸ negated
    rw [Query.clauses_of_negated p negated, Query.clauses_of_negated q negated',
      reordered.mediaType]
    exact (Clause.Alike.refl _).append ((own.negateAll scale plain).tagged .all)
  · have affirmed : q.qualifier ≠ some .not := reordered.qualifier ▸ negated
    rw [Query.clauses_of_affirmed p negated, Query.clauses_of_affirmed q affirmed,
      reordered.mediaType]
    cases q.mediaType.tag? with
    | none => exact .refl _
    | some tag => exact own.tagged tag

theorem QueryList.alike_clauses (scale : Ratio.ExactScale ratios) {list list' : QueryList}
    (reordered : list.Reordered list')
    (leaves : ∀ f ∈ list.features, ∀ c ∈ f.clauses m, c.Plain ratios) (noText : list.texts = []) :
    Clause.Alike (list.clauses m) (list'.clauses m) := by
  obtain ⟨qs, perm, each⟩ := reordered
  refine Clause.Alike.trans ?_ (.of_perm (perm.symm.flatMap_right _))
  clear perm
  induction each with
  | nil => exact .refl []
  | @cons p q _ _ first _ ih =>
    simp only [QueryList.features, List.flatMap_cons, List.mem_append] at leaves
    simp only [QueryList.texts, List.flatMap_cons, List.append_eq_nil_iff] at noText
    refine Clause.Alike.append ?_ (ih (fun f mem => leaves f (.inr mem)) noText.2)
    exact Query.alike_clauses scale first (fun f mem => leaves f (.inl mem)) noText.1

end Trees

section Understood

variable {list list' : QueryList} {m : Metrics}

/-- The ratios that the orientation is asked for with. -/
def Ratio.sides : List Ratio := [⟨0, 1⟩, ⟨1, 1⟩, ⟨Number.infinity, 1⟩]

theorem Ratio.exactScale_sides : Ratio.ExactScale fun _ r => r ∈ Ratio.sides where
  total _ := Endpoint.totalOn_mem (by decide +kernel) (by decide +kernel)
  ends _ := ⟨by simp [sides, ratioDomain, Interval.nonNegative, Endpoint.zero],
    by simp [sides, ratioDomain, Interval.nonNegative, Endpoint.infinity]⟩
  separated {_ r s} hr hs level :=
    (by decide +kernel : ∀ r ∈ sides, ∀ s ∈ sides, order r s = .eq → r.same s = true)
      r hr s hs level
  exact {_ r s} hr hs level := by
    simp only [sides, List.mem_cons, List.not_mem_nil, or_false] at hr hs
    rcases hr with rfl | rfl | rfl <;> rcases hs with rfl | rfl | rfl <;>
      first
      | rfl
      | exact absurd level (by decide +kernel)

/-- Where only the orientation is asked for, the clauses of a test are plain with the ratios of the
orientation. -/
theorem QueryList.Understood.plain_clauses (understood : list.Understood m)
    (noRatio : ∀ f ∈ list.features, f.asksRatio "aspect-ratio" = false ∧
      f.asksRatio "device-aspect-ratio" = false) :
    ∀ f ∈ list.features, ∀ c ∈ f.clauses m, c.Plain fun _ r => r ∈ Ratio.sides := by
  intro f mem
  refine Feature.plain_clauses_of_within (Feature.isUnreadable_eq_false (understood.readable f mem))
    fun limit spec resolved => ?_
  have noBound := Feature.kind_ne_ratio (noRatio f mem) resolved
  refine ⟨understood.numbers f mem, fun shape => absurd shape noBound,
    fun shape => absurd shape noBound, fun _ => ?_⟩
  simp [Ratio.sides, Endpoint.zero, Endpoint.infinity]

/-- The order of operands does not matter. A list that is understood, and that asks for no ratio but
the orientation, compiles to the same result in whatever order its queries and the items of its
connectives are written. -/
theorem QueryList.same_compile_of_reordered (m : Metrics) (understood : list.Understood m)
    (noRatio : ∀ f ∈ list.features, f.asksRatio "aspect-ratio" = false ∧
      f.asksRatio "device-aspect-ratio" = false)
    (reordered : list.Reordered list') : (list.compile m).same (list'.compile m) = true := by
  have leaves := understood.plain_clauses noRatio
  have scale := Ratio.exactScale_sides
  have typed := QueryList.wellTyped_clauses scale.toScale list leaves understood.noText
  exact (QueryList.alike_clauses scale reordered leaves understood.noText).same_ofClauses
    scale.toScale typed

/-- `(hover) and (width >= 600px), not screen and ((orientation: portrait) or (not (width < 40em)))`
-/
def hoverOrPortrait : QueryList :=
  [.ofCondition (.and [.feature (.boolean "hover"),
      .feature (.range "width" none (some (.ge, .dimension 600 "px")))]),
   ⟨some .not, .screen, some (.or [.feature (.plain "orientation" (.ident "portrait")),
      .condition (.not (.feature (.range "width" none (some (.lt, .dimension 40 "em")))))])⟩]

/-- `not screen and ((not (width < 40em)) or (orientation: portrait)), (width >= 600px) and (hover)`
-/
def portraitOrHover : QueryList :=
  [⟨some .not, .screen, some (.or [
      .condition (.not (.feature (.range "width" none (some (.lt, .dimension 40 "em"))))),
      .feature (.plain "orientation" (.ident "portrait"))])⟩,
   .ofCondition (.and [.feature (.range "width" none (some (.ge, .dimension 600 "px"))),
      .feature (.boolean "hover")])]

theorem QueryList.same_compile_of_reordered_hover :
    (QueryList.compile {} hoverOrPortrait).same (QueryList.compile {} portraitOrHover) = true := by
  refine QueryList.same_compile_of_reordered {} (by decide +kernel) (by decide +kernel) ?_
  refine ⟨_, List.Perm.swap _ _ _, .cons ⟨rfl, rfl, .some ?_⟩ (.cons ⟨rfl, rfl, .some ?_⟩ .nil)⟩
  · exact ⟨_, List.Perm.swap _ _ _, rfl, rfl, trivial⟩
  · exact ⟨_, List.Perm.swap _ _ _, rfl, rfl, trivial⟩

end Understood

end MediaQuery
