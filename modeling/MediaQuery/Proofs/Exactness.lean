import MediaQuery.Proofs.Cut

set_option autoImplicit false

namespace MediaQuery

namespace Interval

variable {α β : Type} [Endpoint α] {P : α → Prop} {a b c domain low high : Interval α} {v w : α}

/-- An interval ends before another one begins. If the ends are on one level, neither of the two
holds it, so that the intervals do not touch. -/
def Precedes (a b : Interval α) : Prop :=
  Endpoint.compare a.max b.min = .lt ∨
    Endpoint.compare a.max b.min = .eq ∧ a.maxInclusive = false ∧ b.minInclusive = false

instance (a b : Interval α) : Decidable (a.Precedes b) :=
  inferInstanceAs (Decidable (_ ∨ _))

/-- An interval ends before another one begins, and all its values are below those of the other,
so that the two have none in common. -/
structure LiesBelow (P : α → Prop) (a b : Interval α) : Prop where
  precedes : a.Precedes b
  below : ∀ v w, P v → P w → a.contains v = true → b.contains w = true →
    Endpoint.compare v w = .lt
  disjoint : ∀ v, P v → ¬(a.contains v = true ∧ b.contains v = true)

section Levels

variable [LinearOrder β] {level : α → β} (leveled : Endpoint.Leveled P level)

include leveled

/-- A value lies in an interval iff the cut in front of it does. -/
theorem contains_iff_mem_span (ends : a.EndsIn P) (hv : P v) :
    a.contains v = true ↔ toLex (level v, false) ∈ a.span level := by
  rw [contains_iff_level leveled ends hv, span, Set.mem_Ico, lowerCut, upperCut,
    Prod.Lex.toLex_le_toLex, Prod.Lex.toLex_lt_toLex]
  simp only [Bool.le_iff_imp, Bool.lt_iff, Bool.not_eq_true', Bool.false_eq_true, imp_false,
    Bool.not_eq_false, true_and]

theorem precedes_iff_cuts (left : a.EndsIn P) (right : b.EndsIn P) :
    a.Precedes b ↔ a.upperCut level < b.lowerCut level := by
  rw [Precedes, leveled _ _ left.max right.min, cmp_eq_lt_iff, cmp_eq_eq_iff, upperCut, lowerCut,
    Prod.Lex.toLex_lt_toLex]
  simp [Bool.lt_iff]

end Levels

/-- What precedes an interval lies below it. -/
theorem Precedes.liesBelow (precedes : a.Precedes b) (total : Endpoint.TotalOn P)
    (left : a.EndsIn P) (right : b.EndsIn P) : a.LiesBelow P b := by
  obtain ⟨β, _, level, leveled⟩ := total.exists_level
  have apart := (precedes_iff_cuts leveled left right).1 precedes
  have below (v w : α) (hv : P v) (hw : P w) (first : a.contains v = true)
      (second : b.contains w = true) : Endpoint.compare v w = .lt := by
    have before := ((contains_iff_mem_span leveled left hv).1 first).2
    have behind := ((contains_iff_mem_span leveled right hw).1 second).1
    have between := (before.trans apart).trans_le behind
    rw [leveled v w hv hw, cmp_eq_lt_iff]
    simpa [Prod.Lex.toLex_lt_toLex] using between
  refine ⟨precedes, below, fun v hv both => ?_⟩
  have level := below v v hv hv both.1 both.2
  rw [total.compare_self hv] at level
  cases level

section Restriction

theorem bound_eq_part :
    a.bound domain = .part c ↔ inter? a domain = some c ∧ c.sameAs domain = false := by
  unfold bound
  cases inter? a domain with
  | none => simp
  | some part =>
    by_cases same : part.sameAs domain = true
    · simp only [same, if_true, reduceCtorEq, Option.some.injEq, false_iff, not_and]
      rintro rfl
      simp [same]
    · simp only [same, if_false, Bounded.part.injEq, Option.some.injEq, Bool.false_eq_true]
      exact ⟨fun found => ⟨found, by simpa [← found] using same⟩, And.left⟩

/-- An intersection with an interval lies within it, so that nothing is left to cut off. -/
theorem overlap_overlap_right (minLevel : Endpoint.compare b.min b.min = .eq)
    (maxLevel : Endpoint.compare b.max b.max = .eq) :
    overlap (overlap a b) b = overlap a b := by
  have lower : lowerEnd (overlap a b) b = lowerEnd a b := by
    simp only [overlap, lowerEnd]
    cases verdict : Endpoint.compare a.min b.min <;> simp [verdict, minLevel]
  have upper : upperEnd (overlap a b) b = upperEnd a b := by
    simp only [overlap, upperEnd]
    cases verdict : Endpoint.compare a.max b.max <;> simp [verdict, maxLevel]
  rw [overlap, lower, upper]
  rfl

theorem bound_of_bound (total : Endpoint.TotalOn P) (inside : domain.EndsIn P)
    (left : a.bound domain = .part c) : c.bound domain = .part c := by
  obtain ⟨common, short⟩ := bound_eq_part.1 left
  obtain ⟨rfl, occupied⟩ := inter?_eq_some common
  refine bound_eq_part.2 ⟨?_, short⟩
  rw [inter?, overlap_overlap_right (total.compare_self inside.min) (total.compare_self inside.max),
    if_neg (by simp [occupied])]

/-- The values of an intersection are those of both intervals. -/
theorem contains_of_inter? (total : Endpoint.TotalOn P) (left : a.EndsIn P) (right : b.EndsIn P)
    (common : inter? a b = some c) (hv : P v) :
    c.contains v = (a.contains v && b.contains v) := by
  have both := any_contains_inter? total left right hv
  rwa [common, Option.any_some] at both

theorem not_contains_of_inter?_eq_none (total : Endpoint.TotalOn P) (left : a.EndsIn P)
    (right : b.EndsIn P) (common : inter? a b = none) (hv : P v) :
    (a.contains v && b.contains v) = false := by
  have both := any_contains_inter? total left right hv
  rw [common] at both
  exact both.symm

/-- An intersection holds exactly the values of both intervals and is not empty, and there is none
only if they have no value in common. A domain is left whole only by what holds all its values, and
not at all only by what holds none of them; else the part that is left is an intersection with the
domain, less than all of it, and is left as it is. -/
theorem inter?_bound_exact (total : Endpoint.TotalOn P) (left : a.EndsIn P) (right : b.EndsIn P)
    (inside : domain.EndsIn P) :
    (∀ c, inter? a b = some c → c.isEmpty = false ∧
      ∀ v, P v → (c.contains v = true ↔ a.contains v = true ∧ b.contains v = true)) ∧
    (inter? a b = none → ∀ v, P v → ¬(a.contains v = true ∧ b.contains v = true)) ∧
    (a.bound domain = .whole → ∀ v, P v → domain.contains v = true → a.contains v = true) ∧
    (a.bound domain = .nothing → ∀ v, P v → domain.contains v = true → a.contains v = false) ∧
    ∀ c, a.bound domain = .part c → c.isEmpty = false ∧ c.sameAs domain = false ∧
      (∀ v, P v → (c.contains v = true ↔ a.contains v = true ∧ domain.contains v = true)) ∧
      c.bound domain = .part c := by
  refine ⟨fun c common => ⟨(inter?_eq_some common).2, fun v hv => ?_⟩, fun none v hv => ?_,
    fun whole v hv member => ?_, fun nothing v hv member => ?_, fun c part => ?_⟩
  · rw [contains_of_inter? total left right common hv, Bool.and_eq_true]
  · rw [← Bool.and_eq_true, not_contains_of_inter?_eq_none total left right none hv]
    exact Bool.false_ne_true
  · rw [← contains_bound total left inside hv member, whole]
    rfl
  · rw [← contains_bound total left inside hv member, nothing]
    rfl
  · obtain ⟨common, short⟩ := bound_eq_part.1 part
    refine ⟨(inter?_eq_some common).2, short, fun v hv => ?_, bound_of_bound total inside part⟩
    rw [contains_of_inter? total left inside common hv, Bool.and_eq_true]

def tabletWidths : Interval Float := ⟨true, 600, 1200, false⟩

def upTo800 : Interval Float := ⟨true, -5, 800, true⟩

theorem endsIn_tabletWidths : tabletWidths.EndsIn fun x => Number.isNaN x = false :=
  ⟨by decide +kernel, by decide +kernel⟩

theorem endsIn_upTo800 : upTo800.EndsIn fun x => Number.isNaN x = false :=
  ⟨by decide +kernel, by decide +kernel⟩

/-- Of the widths of tablets, 600 is among those up to 800 and 1000 is not. The widths up to 800 are
part of all widths, and stay so. -/
theorem inter?_bound_exact_tablet :
    (∃ c, inter? upTo800 tabletWidths = some c ∧ c.isEmpty = false ∧ c.contains 600 = true ∧
      c.contains 1000 = false) ∧
    ∃ c, upTo800.bound numberDomain = .part c ∧ c.isEmpty = false ∧ c.contains 0 = true ∧
      c.contains (-1) = false ∧ c.bound numberDomain = .part c := by
  obtain ⟨both, _, _, _, bounded⟩ := inter?_bound_exact Number.totalOn endsIn_upTo800
    endsIn_tabletWidths numberDomain_endsIn
  refine ⟨⟨_, rfl, (both _ rfl).1, ?_, ?_⟩, ⟨_, rfl, (bounded _ rfl).1, ?_, ?_, ?_⟩⟩
  · exact ((both _ rfl).2 600 (by decide +kernel)).2 (by decide +kernel)
  · exact Bool.eq_false_iff.2 (mt ((both _ rfl).2 1000 (by decide +kernel)).1 (by decide +kernel))
  · exact ((bounded _ rfl).2.2.1 0 (by decide +kernel)).2 (by decide +kernel)
  · exact Bool.eq_false_iff.2
      (mt ((bounded _ rfl).2.2.1 (-1) (by decide +kernel)).1 (by decide +kernel))
  · exact (bounded _ rfl).2.2.2

end Restriction

section Complement

theorem length_complement_le : (complement a domain).length ≤ 2 := List.length_filterMap_le _ _

theorem precedes_gaps (total : Endpoint.TotalOn P) (ends : a.EndsIn P) (inside : domain.EndsIn P)
    (occupied : a.isEmpty = false) (first : inter? (lowerGap a domain) domain = some low)
    (second : inter? (upperGap a domain) domain = some high) : low.Precedes high := by
  obtain ⟨β, _, level, leveled⟩ := total.exists_level
  obtain ⟨rfl, _⟩ := inter?_eq_some first
  obtain ⟨rfl, _⟩ := inter?_eq_some second
  have gap := ends.lowerGap inside
  have gap' := ends.upperGap inside
  rw [precedes_iff_cuts leveled (gap.overlap inside) (gap'.overlap inside),
    upperCut_overlap leveled gap inside, lowerCut_overlap leveled gap' inside,
    lowerCut_upperGap]
  -- The cuts of an interval that is not empty keep the gaps on their own sides of it.
  rw [← Bool.not_eq_true, isEmpty_iff_cuts leveled ends, not_le] at occupied
  calc (lowerGap a domain).upperCut level ⊓ domain.upperCut level
      ≤ a.lowerCut level := inf_le_left
    _ < a.upperCut level := occupied
    _ ≤ a.upperCut level ⊔ domain.lowerCut level := le_sup_left

/-- Where a complement has two parts, they are the gaps beside the interval. -/
theorem gaps_of_complement (parts : complement a domain = [low, high]) :
    inter? (lowerGap a domain) domain = some low ∧
      inter? (upperGap a domain) domain = some high := by
  rw [complement_eq] at parts
  cases first : inter? (lowerGap a domain) domain <;>
    cases second : inter? (upperGap a domain) domain <;> simp_all

/-- The complement of an interval, empty or not, holds exactly the values of the domain that the
interval lacks. It has at most two parts, none of them empty, and the first of two lies below the
second if the interval is not empty. -/
theorem complement_exact (total : Endpoint.TotalOn P) (ends : a.EndsIn P)
    (inside : domain.EndsIn P) :
    (∀ v, P v → ((∃ c ∈ complement a domain, c.contains v = true) ↔
      domain.contains v = true ∧ a.contains v = false)) ∧
    (∀ c ∈ complement a domain, c.isEmpty = false) ∧
    (complement a domain).length ≤ 2 ∧
    (a.isEmpty = false → ∀ low high, complement a domain = [low, high] →
      low.LiesBelow P high) := by
  refine ⟨fun v hv => ?_, fun c => isEmpty_of_mem_complement, length_complement_le,
    fun occupied low high parts => ?_⟩
  · rw [← List.any_eq_true, any_contains_complement total ends inside hv, Bool.and_eq_true,
      Bool.not_eq_true']
  · obtain ⟨first, second⟩ := gaps_of_complement parts
    exact (precedes_gaps total ends inside occupied first second).liesBelow total
      ((ends.lowerGap inside).inter? inside first) ((ends.upperGap inside).inter? inside second)

/-- Beside the widths of tablets there are those below and those above, 1200 among them and 600
not. -/
theorem complement_exact_tablet :
    ∃ low high, complement tabletWidths numberDomain = [low, high] ∧
      low.LiesBelow (fun x => Number.isNaN x = false) high ∧
      low.isEmpty = false ∧ high.isEmpty = false ∧
      (∃ c ∈ [low, high], c.contains 1200 = true) ∧ ¬∃ c ∈ [low, high], c.contains 600 = true := by
  obtain ⟨values, occupied, _, ordered⟩ :=
    complement_exact Number.totalOn endsIn_tabletWidths numberDomain_endsIn
  refine ⟨_, _, rfl, ordered (by decide +kernel) _ _ rfl, occupied _ (.head _),
    occupied _ (.tail _ (.head _)), ?_, ?_⟩
  · exact (values 1200 (by decide +kernel)).2 (by decide +kernel)
  · exact mt (values 600 (by decide +kernel)).1 (by decide +kernel)

end Complement

section Union

/-- Intervals join unless the first one precedes the second. -/
theorem joins_eq_false_iff : joins low high = false ↔ low.Precedes high := by
  simp only [joins, Precedes]
  cases Endpoint.compare low.max high.min <;> simp

theorem inOrder_cases (a b : Interval α) : inOrder a b = (a, b) ∨ inOrder a b = (b, a) := by
  unfold inOrder
  split
  · exact .inr rfl
  · split
    · exact .inr rfl
    · exact .inl rfl
  · exact .inl rfl

theorem EndsIn.cover (left : low.EndsIn P) (right : high.EndsIn P) :
    (cover low high).EndsIn P := by
  unfold Interval.cover
  split
  · exact ⟨left.min, left.max⟩
  · exact ⟨left.min, right.max⟩
  · exact ⟨left.min, left.max⟩

theorem length_union (a b : Interval α) : (union a b).length = 1 ∨ (union a b).length = 2 := by
  unfold union
  split
  · exact .inl rfl
  · split
    · exact .inl rfl
    · simp only
      split
      · exact .inl rfl
      · exact .inr rfl

/-- Where a union has two parts, they are the two intervals, which are not empty and do not join. -/
theorem parts_of_union (parts : union a b = [low, high]) :
    inOrder a b = (low, high) ∧ a.isEmpty = false ∧ b.isEmpty = false ∧ low.Precedes high := by
  unfold union at parts
  split at parts
  · cases parts
  · split at parts
    · cases parts
    · rename_i emptyA emptyB
      simp only at parts
      split at parts
      · cases parts
      · rename_i apart
        cases parts
        exact ⟨rfl, by simpa using emptyA, by simpa using emptyB,
          joins_eq_false_iff.1 (by simpa using apart)⟩

theorem lowerCut_cover {level : α → β} :
    (cover low high).lowerCut level = low.lowerCut level := by
  unfold cover
  split <;> rfl

section Cuts

variable [LinearOrder β] {level : α → β} (leveled : Endpoint.Leveled P level)

include leveled

/-- Of two intervals in order, the first has the lower cut at its lower end. -/
theorem lowerCut_inOrder (left : a.EndsIn P) (right : b.EndsIn P) :
    (inOrder a b).1.lowerCut level ≤ (inOrder a b).2.lowerCut level := by
  simp only [inOrder, leveled _ _ left.min right.min]
  rcases cmp_cases (level a.min) (level b.min) with
    ⟨below, verdict⟩ | ⟨equal, verdict⟩ | ⟨above, verdict⟩ <;> rw [verdict]
  · simp [lowerCut, Prod.Lex.toLex_le_toLex, below]
  · cases first : a.minInclusive <;> cases second : b.minInclusive <;>
      simp [lowerCut, Prod.Lex.toLex_le_toLex, equal, first, second]
  · simp [lowerCut, Prod.Lex.toLex_le_toLex, above]

theorem upperCut_cover (left : low.EndsIn P) (right : high.EndsIn P) :
    (cover low high).upperCut level = low.upperCut level ⊔ high.upperCut level := by
  simp only [cover, leveled _ _ left.max right.max, upperCut, sup_toLex]
  cases cmp (level low.max) (level high.max) <;> rfl

/-- Over two intervals that join, one interval has the cuts of both. -/
theorem span_cover (left : low.EndsIn P) (right : high.EndsIn P)
    (ordered : low.lowerCut level ≤ high.lowerCut level)
    (occupied : high.isEmpty = false) (joined : ¬low.Precedes high) :
    (cover low high).span level = low.span level ∪ high.span level := by
  rw [precedes_iff_cuts leveled left right, not_lt] at joined
  rw [← Bool.not_eq_true, isEmpty_iff_cuts leveled right, not_le] at occupied
  rw [span, span, span, lowerCut_cover, upperCut_cover leveled left right,
    Set.Ico_union_Ico' joined (ordered.trans occupied.le), min_eq_left ordered]

private theorem any_contains_joined (left : low.EndsIn P) (right : high.EndsIn P)
    (ordered : low.lowerCut level ≤ high.lowerCut level) (occupied : high.isEmpty = false)
    (hv : P v) : (if joins low high then [cover low high] else [low, high]).any (·.contains v) =
      (low.contains v || high.contains v) := by
  by_cases joined : joins low high = true
  · have touch : ¬low.Precedes high := by simp [← joins_eq_false_iff, joined]
    have span := span_cover leveled left right ordered occupied touch
    rw [if_pos joined, List.any_cons, List.any_nil, Bool.or_false, Bool.eq_iff_iff,
      Bool.or_eq_true, contains_iff_mem_span leveled (left.cover right) hv,
      contains_iff_mem_span leveled left hv, contains_iff_mem_span leveled right hv, span,
      Set.mem_union]
  · rw [if_neg joined]
    simp

end Cuts

/-- The union holds the values of both intervals. -/
theorem any_contains_union (total : Endpoint.TotalOn P) (left : a.EndsIn P) (right : b.EndsIn P)
    (hv : P v) : (union a b).any (·.contains v) = (a.contains v || b.contains v) := by
  obtain ⟨β, _, level, leveled⟩ := total.exists_level
  unfold union
  by_cases emptyA : a.isEmpty = true
  · simp [emptyA, contains_of_isEmpty total left hv emptyA]
  by_cases emptyB : b.isEmpty = true
  · simp [emptyA, emptyB, contains_of_isEmpty total right hv emptyB]
  rw [if_neg emptyA, if_neg emptyB]
  -- Which of the two comes first does not change what they hold together.
  have ordered := lowerCut_inOrder leveled left right
  rcases inOrder_cases a b with same | same
  · rw [same] at ordered ⊢
    exact any_contains_joined leveled left right ordered (by simpa using emptyB) hv
  · rw [same] at ordered ⊢
    rw [Bool.or_comm]
    exact any_contains_joined leveled right left ordered (by simpa using emptyA) hv

/-- The union of two intervals, empty or not, holds exactly the values of either one. It is one
interval, or two that are not empty, of which the first lies below the second without touching
it. -/
theorem union_exact (total : Endpoint.TotalOn P) (left : a.EndsIn P) (right : b.EndsIn P) :
    (∀ v, P v → ((∃ c ∈ union a b, c.contains v = true) ↔
      a.contains v = true ∨ b.contains v = true)) ∧
    ((union a b).length = 1 ∨ (union a b).length = 2) ∧
    ∀ low high, union a b = [low, high] →
      low.isEmpty = false ∧ high.isEmpty = false ∧ low.LiesBelow P high := by
  refine ⟨fun v hv => ?_, length_union a b, fun low high parts => ?_⟩
  · rw [← List.any_eq_true, any_contains_union total left right hv, Bool.or_eq_true]
  · obtain ⟨sorted, occupiedA, occupiedB, precedes⟩ := parts_of_union parts
    rcases inOrder_cases a b with same | same
    · cases same.symm.trans sorted
      exact ⟨occupiedA, occupiedB, precedes.liesBelow total left right⟩
    · cases same.symm.trans sorted
      exact ⟨occupiedB, occupiedA, precedes.liesBelow total right left⟩

def above1200 : Interval Float := ⟨false, 1200, 1500, true⟩

/-- The numbers above 1200 and the widths of tablets meet at 1200, which neither of them holds, so
that their union has two parts. -/
theorem union_exact_tablet :
    ∃ low high, union above1200 tabletWidths = [low, high] ∧ low.isEmpty = false ∧
      high.isEmpty = false ∧ low.LiesBelow (fun x => Number.isNaN x = false) high ∧
      (∃ c ∈ [low, high], c.contains 600 = true) ∧ ¬∃ c ∈ [low, high], c.contains 1200 = true := by
  have ends : above1200.EndsIn fun x => Number.isNaN x = false :=
    ⟨by decide +kernel, by decide +kernel⟩
  obtain ⟨values, _, parts⟩ := union_exact Number.totalOn ends endsIn_tabletWidths
  obtain ⟨occupied, occupied', ordered⟩ := parts _ _ rfl
  refine ⟨_, _, rfl, occupied, occupied', ordered, ?_, ?_⟩
  · exact (values 600 (by decide +kernel)).2 (by decide +kernel)
  · exact mt (values 1200 (by decide +kernel)).1 (by decide +kernel)

end Union

end Interval

end MediaQuery
