import MediaQuery.Proofs.Reordering

set_option autoImplicit false

namespace MediaQuery

section Ends

variable {α β : Type} {order : α → α → Ordering} {x y z : α × Bool}

/-- The end that comes last in an order, with whether it is included. Of ends on one level it is
the first one, and it is included if both are. -/
def tighter (order : α → α → Ordering) (x y : α × Bool) : α × Bool :=
  match order x.1 y.1 with
  | .gt => x
  | .lt => y
  | .eq => (x.1, x.2 && y.2)

variable [LinearOrder β] {level : α → β} {P : α → Prop}

theorem tighter_eq_of_level (spec : order x.1 y.1 = cmp (level x.1) (level y.1)) :
    tighter order x y = if level x.1 < level y.1 then y
      else if level y.1 < level x.1 then x else (x.1, x.2 && y.2) := by
  rw [tighter, spec]
  rcases cmp_cases (level x.1) (level y.1) with
    ⟨below, verdict⟩ | ⟨equal, verdict⟩ | ⟨above, verdict⟩
  · rw [verdict, if_pos below]
  · rw [verdict, if_neg equal.not_lt, if_neg equal.not_gt]
  · rw [verdict, if_neg above.not_gt, if_pos above]

omit [LinearOrder β] in
theorem tighter_mem (hx : P x.1) (hy : P y.1) : P (tighter order x y).1 := by
  unfold tighter
  split
  · exact hx
  · exact hy
  · exact hx

theorem tighter_assoc (leveled : ∀ v w, P v → P w → order v w = cmp (level v) (level w))
    (hx : P x.1) (hy : P y.1) (hz : P z.1) :
    tighter order (tighter order x y) z = tighter order x (tighter order y z) := by
  rw [tighter_eq_of_level (leveled _ _ (tighter_mem hx hy) hz),
    tighter_eq_of_level (leveled _ _ hx (tighter_mem hy hz)),
    tighter_eq_of_level (leveled _ _ hx hy), tighter_eq_of_level (leveled _ _ hy hz)]
  grind

end Ends

namespace Interval

variable {α : Type} {P : α → Prop} {a b c : Interval α}

def lower (a : Interval α) : α × Bool := (a.min, a.minInclusive)

def upper (a : Interval α) : α × Bool := (a.max, a.maxInclusive)

theorem ext_ends (lower : a.lower = b.lower) (upper : a.upper = b.upper) : a = b := by
  cases a
  cases b
  cases lower
  cases upper
  rfl

variable [Endpoint α]

theorem lower_overlap (a b : Interval α) :
    (overlap a b).lower = tighter Endpoint.compare a.lower b.lower := by
  simp only [overlap, lowerEnd, lower, tighter]
  cases Endpoint.compare a.min b.min <;> rfl

theorem upper_overlap (a b : Interval α) :
    (overlap a b).upper = tighter (fun v w => (Endpoint.compare v w).swap) a.upper b.upper := by
  simp only [overlap, upperEnd, upper, tighter]
  cases Endpoint.compare a.max b.max <;> rfl

section Joins

variable (total : Endpoint.TotalOn P) (ha : a.EndsIn P) (hb : b.EndsIn P) (hc : c.EndsIn P)

include total ha hb hc

theorem overlap_assoc : overlap (overlap a b) c = overlap a (overlap b c) := by
  obtain ⟨β, _, level, leveled⟩ := total.exists_level
  have reversed (v w : α) (hv : P v) (hw : P w) : (Endpoint.compare v w).swap =
      cmp ((OrderDual.toDual ∘ level) v) ((OrderDual.toDual ∘ level) w) := by
    rw [leveled v w hv hw, Function.comp_apply, Function.comp_apply, cmp_toDual, cmp_swap]
  refine ext_ends ?_ ?_
  · simp only [lower_overlap]
    exact tighter_assoc leveled ha.min hb.min hc.min
  · simp only [upper_overlap]
    exact tighter_assoc reversed ha.max hb.max hc.max

/-- Intervals are intersected in any grouping, also where nothing is left of two of them. -/
theorem inter?_assoc : (inter? a b).bind (inter? · c) = (inter? b c).bind (inter? a ·) := by
  obtain ⟨β, _, level, leveled⟩ := total.exists_level
  rw [bind_inter? total ha hb hc, overlap_assoc total ha hb hc]
  by_cases empty : (overlap b c).isEmpty = true
  · have none : inter? b c = none := if_pos empty
    rw [none, if_pos (isEmpty_overlap_right leveled ha (hb.overlap hc) empty), Option.bind_none]
  · have some : inter? b c = some (overlap b c) := if_neg empty
    rw [some, Option.bind_some, inter?]

end Joins

end Interval

namespace KeyMap

variable {α : Type} {combine : α → α → α}

/-- Maps are merged in any grouping if the values under each name are. -/
theorem merge_assoc {a b c : KeyMap α}
    (assoc : ∀ k x y z, a.get? k = some x → b.get? k = some y → c.get? k = some z →
      combine (combine x y) z = combine x (combine y z)) :
    (a.merge combine b).merge combine c = a.merge combine (b.merge combine c) := by
  refine ext_get? fun k => ?_
  simp only [get?_merge]
  cases first : a.get? k with
  | none => rfl
  | some x =>
    cases second : b.get? k with
    | none => rfl
    | some y =>
      cases third : c.get? k with
      | none => rfl
      | some z => exact congrArg some (assoc k x y z first second third)

end KeyMap

namespace Constraint

variable {numbers : Float → Prop} {ratios : Ratio → Prop} {a b c : Constraint}

/-- The ends of the interval of a constraint, if it has one, are among some numbers or ratios. -/
def EndsAmong (numbers : Float → Prop) (ratios : Ratio → Prop) : Constraint → Prop
  | .number interval => interval.EndsIn numbers
  | .ratio interval => interval.EndsIn ratios
  | _ => True

theorem EndsAmong.inter (left : a.EndsAmong numbers ratios) (right : b.EndsAmong numbers ratios) :
    (a.inter b).EndsAmong numbers ratios := by
  fun_cases Constraint.inter a b with
  | case3 => exact right
  | case4 => exact left
  | case8 x y =>
    cases common : x.inter? y with
    | none => trivial
    | some part => exact Interval.EndsIn.inter? left right common
  | case9 x y =>
    cases common : x.inter? y with
    | none => trivial
    | some part => exact Interval.EndsIn.inter? left right common
  | _ => trivial

/-- Constraints of one kind, which have an intersection of that kind or contradict. -/
inductive Akin : Constraint → Constraint → Prop where
  | discrete {x y : DiscreteValue} : Akin (.discrete x) (.discrete y)
  | gamut {x y : GamutMask} : Akin (.gamut x) (.gamut y)
  | number {x y : Interval Float} : Akin (.number x) (.number y)
  | ratio {x y : Interval Ratio} : Akin (.ratio x) (.ratio y)

theorem Akin.symm (akin : a.Akin b) : b.Akin a := by
  cases akin <;> constructor

theorem Akin.trans (first : a.Akin b) (second : b.Akin c) : a.Akin c := by
  cases first <;> cases second <;> constructor

/-- Constraints of different kinds contradict, unless one asks for nothing. -/
theorem inter_eq_never (ha : a ≠ .always) (hb : b ≠ .always) (apart : ¬a.Akin b) :
    a.inter b = .never := by
  fun_cases Constraint.inter a b with
  | case3 => exact absurd rfl ha
  | case4 => exact absurd rfl hb
  | case5 => exact absurd .discrete apart
  | case6 => exact absurd .discrete apart
  | case7 => exact absurd .gamut apart
  | case8 => exact absurd .number apart
  | case9 => exact absurd .ratio apart
  | _ => rfl

theorem Akin.inter (akin : a.Akin b) : a.inter b = .never ∨ a.Akin (a.inter b) := by
  cases akin with
  | @discrete x y =>
    rw [inter_discrete]
    by_cases same : x = y
    · rw [if_pos same]
      exact .inr .discrete
    · exact .inl (if_neg same)
  | gamut => exact .inr .gamut
  | @number x y =>
    rw [inter_number]
    cases x.inter? y with
    | none => exact .inl rfl
    | some part => exact .inr .number
  | @ratio x y =>
    rw [inter_ratio]
    cases x.inter? y with
    | none => exact .inl rfl
    | some part => exact .inr .ratio

theorem Akin.ne_always (akin : a.Akin b) : b ≠ .always := by
  rintro rfl
  cases akin

/-- Where one constraint is of another kind than two others, nothing is left of all three. -/
theorem inter_inter_eq_never (ha : a ≠ .always) (hb : b ≠ .always) (hc : c ≠ .always)
    (apart : ¬a.Akin b) : a.inter (b.inter c) = .never := by
  by_cases akin : b.Akin c
  · rcases akin.inter with none | kept
    · rw [none, inter_never]
    · exact inter_eq_never ha kept.ne_always fun back => apart (back.trans kept.symm)
  · rw [inter_eq_never hb hc akin, inter_never]

theorem inter_inter_eq_never_of_behind (ha : a ≠ .always) (hb : b ≠ .always) (hc : c ≠ .always)
    (apart : ¬b.Akin c) : (a.inter b).inter c = .never := by
  by_cases akin : a.Akin b
  · rcases akin.inter with none | kept
    · rw [none, never_inter]
    · exact inter_eq_never kept.ne_always hc fun back => apart (akin.symm.trans (kept.trans back))
  · rw [inter_eq_never ha hb akin, never_inter]

variable (numbersTotal : Endpoint.TotalOn numbers) (ratiosTotal : Endpoint.TotalOn ratios)

include numbersTotal ratiosTotal

/-- Constraints are joined in any grouping. -/
theorem inter_assoc (ha : a.EndsAmong numbers ratios) (hb : b.EndsAmong numbers ratios)
    (hc : c.EndsAmong numbers ratios) : (a.inter b).inter c = a.inter (b.inter c) := by
  -- A constraint that asks for nothing drops out. Of the others, two of different kinds leave
  -- nothing on either side, so that what remains are three of one kind.
  by_cases freeA : a = .always
  · rw [freeA, always_inter, always_inter]
  by_cases freeB : b = .always
  · rw [freeB, inter_always, always_inter]
  by_cases freeC : c = .always
  · rw [freeC, inter_always, inter_always]
  by_cases first : a.Akin b
  · by_cases second : b.Akin c
    · cases first with
      | @discrete x y =>
        cases second with
        | @discrete _ z =>
          simp only [inter_discrete]
          by_cases same : x = y
          · subst same
            by_cases same : x = z <;> simp [same, inter_discrete]
          · by_cases same' : y = z
            · subst same'
              simp [same, inter_discrete]
            · simp [same, same']
      | gamut =>
        cases second with
        | gamut => exact congrArg Constraint.gamut (GamutMask.inter_assoc _ _ _)
      | @number x y =>
        cases second with
        | @number _ z =>
          rw [inter_number, inter_number, ofNumbers?_inter,
            Interval.inter?_assoc numbersTotal ha hb hc]
          exact (inter_ofNumbers? (some x) _).symm
      | @ratio x y =>
        cases second with
        | @ratio _ z =>
          rw [inter_ratio, inter_ratio, ofRatios?_inter,
            Interval.inter?_assoc ratiosTotal ha hb hc]
          exact (inter_ofRatios? (some x) _).symm
    · rw [inter_inter_eq_never_of_behind freeA freeB freeC second,
        inter_eq_never freeB freeC second, inter_never]
  · rw [inter_inter_eq_never freeA freeB freeC first, inter_eq_never freeA freeB first, never_inter]

end Constraint

namespace Clause

variable {numbers : Float → Prop} {ratios : Ratio → Prop} {a b c : Clause}
  {as bs cs : List Clause} {css : List (List Clause)}

def EndsAmong (numbers : Float → Prop) (ratios : Ratio → Prop) (c : Clause) : Prop :=
  ∀ key x, c.tests.get? key = some x → x.EndsAmong numbers ratios

theorem Suits.endsAmong (suits : c.Suits fun _ => ratios) :
    c.EndsAmong (fun x => Number.isNaN x = false) ratios := by
  intro key x found
  obtain ⟨kind, _, typed⟩ := suits key x found
  cases typed with
  | number ends => exact ends
  | ratio ends => exact ends
  | _ => trivial

theorem endsAmong_top : top.EndsAmong numbers ratios := nofun

theorem EndsAmong.and (left : a.EndsAmong numbers ratios) (right : b.EndsAmong numbers ratios) :
    (a.and b).EndsAmong numbers ratios := by
  intro key z found
  rw [get?_and] at found
  cases first : a.tests.get? key with
  | none =>
    rw [first] at found
    exact right key z found
  | some x =>
    cases second : b.tests.get? key with
    | none =>
      rw [first, second] at found
      cases found
      exact left key _ first
    | some y =>
      rw [first, second] at found
      cases found
      exact (left key x first).inter (right key y second)

@[simp] theorem top_and (a : Clause) : top.and a = a := by
  refine ext_get? ?_ rfl fun key => get?_and top a key
  cases tag : a.tag <;> simp [Clause.and, top, tag]

@[simp] theorem and_top (a : Clause) : a.and top = a :=
  ext_get? rfl (List.append_nil _) fun _ => rfl

@[simp] theorem top_product (as : List Clause) : product [top] as = as := by
  simp [product]

@[simp] theorem product_top (as : List Clause) : product as [top] = as := by
  simp [product]

theorem endsAmong_product (left : ∀ a ∈ as, a.EndsAmong numbers ratios)
    (right : ∀ b ∈ bs, b.EndsAmong numbers ratios) :
    ∀ c ∈ product as bs, c.EndsAmong numbers ratios := by
  intro c mem
  obtain ⟨a, inside, b, inside', rfl⟩ := mem_product.1 mem
  exact (left a inside).and (right b inside')

theorem endsAmong_foldl_product (start : ∀ a ∈ as, a.EndsAmong numbers ratios)
    (each : ∀ cs ∈ css, ∀ c ∈ cs, c.EndsAmong numbers ratios) :
    ∀ c ∈ css.foldl product as, c.EndsAmong numbers ratios := by
  induction css generalizing as with
  | nil => exact start
  | cons cs css ih =>
    obtain ⟨first, rest⟩ := List.forall_mem_cons.1 each
    exact ih (endsAmong_product start first) rest

section Assoc

variable (numbersTotal : Endpoint.TotalOn numbers) (ratiosTotal : Endpoint.TotalOn ratios)

include numbersTotal ratiosTotal

/-- Clauses are joined in any grouping: constraint by constraint, the last tag wins, and what was
not understood is listed from left to right. -/
theorem and_assoc (ha : a.EndsAmong numbers ratios) (hb : b.EndsAmong numbers ratios)
    (hc : c.EndsAmong numbers ratios) : (a.and b).and c = a.and (b.and c) := by
  have tags : ((a.and b).and c).tag = (a.and (b.and c)).tag := by
    cases last : c.tag <;> simp [Clause.and, last]
  have tests : ((a.and b).and c).tests = (a.and (b.and c)).tests :=
    KeyMap.merge_assoc fun key x y z first second third => Constraint.inter_assoc numbersTotal
      ratiosTotal (ha key x first) (hb key y second) (hc key z third)
  exact ext_get? tags (List.append_assoc _ _ _) fun key => by rw [tests]

theorem product_assoc (ha : ∀ a ∈ as, a.EndsAmong numbers ratios)
    (hb : ∀ b ∈ bs, b.EndsAmong numbers ratios) (hc : ∀ c ∈ cs, c.EndsAmong numbers ratios) :
    product (product as bs) cs = product as (product bs cs) := by
  -- Both sides run through `as`, then `bs`, then `cs`, and differ in how they join three clauses.
  simp only [product, List.flatMap_assoc, List.flatMap_map, List.map_flatMap, List.map_map,
    Function.comp_def]
  refine List.flatMap_congr fun a memA => List.flatMap_congr fun b memB =>
    List.map_congr_left fun c memC => ?_
  exact and_assoc numbersTotal ratiosTotal (ha a memA) (hb b memB) (hc c memC)

theorem product_foldl (ha : ∀ a ∈ as, a.EndsAmong numbers ratios)
    (hb : ∀ b ∈ bs, b.EndsAmong numbers ratios)
    (each : ∀ cs ∈ css, ∀ c ∈ cs, c.EndsAmong numbers ratios) :
    product as (css.foldl product bs) = css.foldl product (product as bs) := by
  induction css generalizing bs with
  | nil => rfl
  | cons cs css ih =>
    obtain ⟨first, rest⟩ := List.forall_mem_cons.1 each
    rw [List.foldl_cons, List.foldl_cons, ih (endsAmong_product hb first) rest,
      product_assoc numbersTotal ratiosTotal ha hb first]

end Assoc

end Clause

section Conditions

variable {numbers : Float → Prop} {ratios : Ratio → Prop} {m : Metrics}
  {before inner behind : List InParens} {done : List Clause}

theorem InParens.allClauses_append (items more : List InParens) :
    InParens.allClauses m done (items ++ more) =
      InParens.allClauses m (InParens.allClauses m done items) more := by
  simp only [InParens.allClauses_eq, List.map_append, List.foldl_append]

theorem InParens.anyClauses_append (items more : List InParens) :
    InParens.anyClauses m (items ++ more) =
      InParens.anyClauses m items ++ InParens.anyClauses m more := by
  simp only [InParens.anyClauses_eq, List.map_append, List.flatten_append]

/-- A conjunction within a conjunction needs no parentheses. -/
theorem Condition.clauses_and_nested (numbersTotal : Endpoint.TotalOn numbers)
    (ratiosTotal : Endpoint.TotalOn ratios)
    (among : ∀ item ∈ before ++ inner, ∀ c ∈ item.clauses m, c.EndsAmong numbers ratios) :
    Condition.clauses m (.and (before ++ .condition (.and inner) :: behind)) =
      Condition.clauses m (.and (before ++ inner ++ behind)) := by
  have front : ∀ cs ∈ before.map (InParens.clauses m), ∀ c ∈ cs, c.EndsAmong numbers ratios :=
    List.forall_mem_map.2 fun item mem => among item (List.mem_append_left _ mem)
  have middle : ∀ cs ∈ inner.map (InParens.clauses m), ∀ c ∈ cs, c.EndsAmong numbers ratios :=
    List.forall_mem_map.2 fun item mem => among item (List.mem_append_right _ mem)
  have start : ∀ c ∈ [Clause.top], c.EndsAmong numbers ratios :=
    List.forall_mem_singleton.2 Clause.endsAmong_top
  have done := Clause.endsAmong_foldl_product start front
  simp only [Condition.clauses, InParens.allClauses_append, InParens.allClauses, InParens.clauses]
  congr 1
  rw [InParens.allClauses_eq, InParens.allClauses_eq, InParens.allClauses_eq,
    Clause.product_foldl numbersTotal ratiosTotal done start middle, Clause.product_top]

theorem Condition.clauses_or_nested :
    Condition.clauses m (.or (before ++ .condition (.or inner) :: behind)) =
      Condition.clauses m (.or (before ++ inner ++ behind)) := by
  simp only [Condition.clauses, InParens.anyClauses_append, InParens.anyClauses, InParens.clauses,
    List.append_assoc]

theorem InParens.mem_allFeatures {f : Feature} {items : List InParens} :
    f ∈ InParens.allFeatures items ↔ ∃ item ∈ items, f ∈ item.features := by
  induction items with
  | nil => simp [InParens.allFeatures]
  | cons item rest ih => simp [InParens.allFeatures, ih]

theorem InParens.allTexts_eq_nil {items : List InParens} :
    InParens.allTexts items = [] ↔ ∀ item ∈ items, item.texts = [] := by
  induction items with
  | nil => simp [InParens.allTexts]
  | cons item rest ih => simp [InParens.allTexts, ih]

/-- The clauses of a conjunction that is understood, and that asks for no ratio but the orientation,
have ends that are totally ordered. -/
theorem InParens.endsAmong_of_understood {items : List InParens}
    (understood : QueryList.Understood [.ofCondition (.and items)] m)
    (noRatio : ∀ f ∈ InParens.allFeatures items, f.asksRatio "aspect-ratio" = false ∧
      f.asksRatio "device-aspect-ratio" = false) :
    ∀ item ∈ items, ∀ c ∈ item.clauses m,
      c.EndsAmong (fun x => Number.isNaN x = false) (· ∈ Ratio.sides) := by
  have features : QueryList.features [.ofCondition (.and items)] = InParens.allFeatures items := by
    simp [QueryList.features, Query.features, Query.ofCondition, Condition.features]
  have texts : QueryList.texts [.ofCondition (.and items)] = InParens.allTexts items := by
    simp [QueryList.texts, Query.texts, Query.ofCondition, Condition.texts]
  have leaves := understood.plain_clauses (features ▸ noRatio)
  have noText := InParens.allTexts_eq_nil.1 (texts ▸ understood.noText)
  rw [features] at leaves
  intro item mem c made
  refine (InParens.plain_clauses Ratio.exactScale_sides.toScale item (fun f inside => ?_)
    (noText item mem) c made).suits.endsAmong
  exact leaves f (InParens.mem_allFeatures.2 ⟨item, mem, inside⟩)

/-- Conjunction is a monoid: of clauses, with the clause that asks for nothing, and of lists of
clauses, clause by clause in the same order, with the list of that clause alone. So a conjunction
within a conjunction is compiled as if it had no parentheses, and so is a disjunction within a
disjunction. -/
theorem Condition.clauses_regrouped (numbersTotal : Endpoint.TotalOn numbers)
    (ratiosTotal : Endpoint.TotalOn ratios) :
    (∀ a b c : Clause, a.EndsAmong numbers ratios → b.EndsAmong numbers ratios →
      c.EndsAmong numbers ratios → (a.and b).and c = a.and (b.and c)) ∧
    (∀ a : Clause, Clause.top.and a = a ∧ a.and Clause.top = a) ∧
    (∀ as bs cs : List Clause, (∀ a ∈ as, a.EndsAmong numbers ratios) →
      (∀ b ∈ bs, b.EndsAmong numbers ratios) → (∀ c ∈ cs, c.EndsAmong numbers ratios) →
      Clause.product (Clause.product as bs) cs = Clause.product as (Clause.product bs cs)) ∧
    (∀ as : List Clause,
      Clause.product [Clause.top] as = as ∧ Clause.product as [Clause.top] = as) ∧
    (∀ (m : Metrics) (before inner behind : List InParens),
      (∀ item ∈ before ++ inner, ∀ c ∈ item.clauses m, c.EndsAmong numbers ratios) →
      Condition.clauses m (.and (before ++ .condition (.and inner) :: behind)) =
        Condition.clauses m (.and (before ++ inner ++ behind))) ∧
    ∀ (m : Metrics) (before inner behind : List InParens),
      Condition.clauses m (.or (before ++ .condition (.or inner) :: behind)) =
        Condition.clauses m (.or (before ++ inner ++ behind)) := by
  refine ⟨fun a b c ha hb hc => ?_, fun a => ⟨Clause.top_and a, Clause.and_top a⟩,
    fun as bs cs ha hb hc => ?_, fun as => ⟨Clause.top_product as, Clause.product_top as⟩,
    fun m before inner behind among => ?_, fun m before inner behind => ?_⟩
  · exact Clause.and_assoc numbersTotal ratiosTotal ha hb hc
  · exact Clause.product_assoc numbersTotal ratiosTotal ha hb hc
  · exact Condition.clauses_and_nested numbersTotal ratiosTotal among
  · exact Condition.clauses_or_nested

/-- `(width >= 600px) and (hover) and (width < 40em)` -/
def hoverBetween : List InParens :=
  [.feature (.range "width" none (some (.ge, .dimension 600 "px"))),
   .feature (.boolean "hover"),
   .feature (.range "width" none (some (.lt, .dimension 40 "em")))]

/-- `(width >= 600px) and ((hover) and (width < 40em)) and (orientation: portrait)` is compiled as
if it had no inner parentheses. -/
theorem Condition.clauses_regrouped_hover :
    Condition.clauses {} (.and (hoverBetween.take 1 ++
        .condition (.and (hoverBetween.drop 1)) ::
          [.feature (.plain "orientation" (.ident "portrait"))])) =
      Condition.clauses {} (.and (hoverBetween ++
        [.feature (.plain "orientation" (.ident "portrait"))])) :=
  (Condition.clauses_regrouped Number.totalOn (Ratio.exactScale_sides.total "")).2.2.2.2.1 {}
    (hoverBetween.take 1) (hoverBetween.drop 1) _
    (InParens.endsAmong_of_understood (by decide +kernel) (by decide +kernel))

end Conditions

end MediaQuery
