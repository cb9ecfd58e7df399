import MediaQuery.Clause.Simplify
import MediaQuery.Proofs.Order

set_option autoImplicit false

namespace MediaQuery

/-- Whether a value of the domain belongs to what is left of an interval. -/
def Bounded.contains {α : Type} [Endpoint α] : Bounded α → α → Bool
  | .whole, _ => true
  | .nothing, _ => false
  | .part interval, v => interval.contains v

namespace Interval

variable {α : Type} {P : α → Prop}

/-- Both ends are among some values. -/
structure EndsIn (P : α → Prop) (a : Interval α) : Prop where
  min : P a.min
  max : P a.max

/-- What lies between the lower end of a domain and an interval. -/
def lowerGap (a domain : Interval α) : Interval α :=
  ⟨domain.minInclusive, domain.min, a.min, !a.minInclusive⟩

def upperGap (a domain : Interval α) : Interval α :=
  ⟨!a.maxInclusive, a.max, domain.max, domain.maxInclusive⟩

section Gaps

variable {a domain : Interval α}

theorem EndsIn.lowerGap (ends : a.EndsIn P) (inside : domain.EndsIn P) :
    (lowerGap a domain).EndsIn P := ⟨inside.min, ends.min⟩

theorem EndsIn.upperGap (ends : a.EndsIn P) (inside : domain.EndsIn P) :
    (upperGap a domain).EndsIn P := ⟨ends.max, inside.max⟩

end Gaps

variable [Endpoint α]

section Levels

variable {β : Type} [LinearOrder β] {level : α → β} {a b : Interval α} {v : α}

private theorem aboveMin_iff_level
    (spec : Endpoint.compare v a.min = cmp (level v) (level a.min)) :
    a.aboveMin v = true ↔
      level a.min < level v ∨ level a.min = level v ∧ a.minInclusive = true := by
  rcases cmp_cases (level v) (level a.min) with
    ⟨below, verdict⟩ | ⟨equal, verdict⟩ | ⟨above, verdict⟩ <;>
    simp only [aboveMin, spec, verdict]
  · simp [below.not_gt, below.ne']
  · simp [equal]
  · simp [above]

private theorem belowMax_iff_level
    (spec : Endpoint.compare v a.max = cmp (level v) (level a.max)) :
    a.belowMax v = true ↔
      level v < level a.max ∨ level v = level a.max ∧ a.maxInclusive = true := by
  rcases cmp_cases (level v) (level a.max) with
    ⟨below, verdict⟩ | ⟨equal, verdict⟩ | ⟨above, verdict⟩ <;>
    simp only [belowMax, spec, verdict]
  · simp [below]
  · simp [equal]
  · simp [above.not_gt, above.ne']

theorem contains_iff_level
    (spec : ∀ x y, P x → P y → Endpoint.compare x y = cmp (level x) (level y))
    (ends : a.EndsIn P) (hv : P v) :
    a.contains v = true ↔
      (level a.min < level v ∨ level a.min = level v ∧ a.minInclusive = true) ∧
      (level v < level a.max ∨ level v = level a.max ∧ a.maxInclusive = true) := by
  rw [contains, Bool.and_eq_true, aboveMin_iff_level (spec _ _ hv ends.min),
    belowMax_iff_level (spec _ _ hv ends.max)]

private theorem isEmpty_iff_level
    (spec : ∀ x y, P x → P y → Endpoint.compare x y = cmp (level x) (level y))
    (ends : a.EndsIn P) :
    a.isEmpty = true ↔ level a.max < level a.min ∨
      level a.min = level a.max ∧ (a.minInclusive = false ∨ a.maxInclusive = false) := by
  rcases cmp_cases (level a.min) (level a.max) with
    ⟨below, verdict⟩ | ⟨equal, verdict⟩ | ⟨above, verdict⟩ <;>
    simp only [isEmpty, spec _ _ ends.min ends.max, verdict]
  · simp [below.not_gt, below.ne]
  · simp [equal]
  · simp [above]

private theorem sameAs_iff_level
    (spec : ∀ x y, P x → P y → Endpoint.compare x y = cmp (level x) (level y))
    (left : a.EndsIn P) (right : b.EndsIn P) :
    a.sameAs b = true ↔ a.minInclusive = b.minInclusive ∧ a.maxInclusive = b.maxInclusive ∧
      level a.min = level b.min ∧ level a.max = level b.max := by
  simp [sameAs, spec _ _ left.min right.min, spec _ _ left.max right.max, and_assoc]

/-- The lower end of an intersection is the higher one of the two. -/
private theorem lowerEnd_level (level : α → β)
    (spec : Endpoint.compare a.min b.min = cmp (level a.min) (level b.min)) :
    level (lowerEnd a b).2 = level a.min ⊔ level b.min ∧
      ((lowerEnd a b).1 = true ↔
        (level b.min ≤ level a.min → a.minInclusive = true) ∧
        (level a.min ≤ level b.min → b.minInclusive = true)) := by
  rcases cmp_cases (level a.min) (level b.min) with
    ⟨below, verdict⟩ | ⟨equal, verdict⟩ | ⟨above, verdict⟩ <;>
    simp only [lowerEnd, spec, verdict]
  · simp [below.le, below.not_ge]
  · simp [equal]
  · simp [above.le, above.not_ge]

private theorem upperEnd_level (level : α → β)
    (spec : Endpoint.compare a.max b.max = cmp (level a.max) (level b.max)) :
    level (upperEnd a b).1 = level a.max ⊓ level b.max ∧
      ((upperEnd a b).2 = true ↔
        (level a.max ≤ level b.max → a.maxInclusive = true) ∧
        (level b.max ≤ level a.max → b.maxInclusive = true)) := by
  rcases cmp_cases (level a.max) (level b.max) with
    ⟨below, verdict⟩ | ⟨equal, verdict⟩ | ⟨above, verdict⟩ <;>
    simp only [upperEnd, spec, verdict]
  · simp [below.le, below.not_ge]
  · simp [equal]
  · simp [above.le, above.not_ge]

end Levels

section Sets

variable {a b c domain : Interval α} {v : α}

theorem EndsIn.overlap (left : a.EndsIn P) (right : b.EndsIn P) : (overlap a b).EndsIn P := by
  constructor
  · simp only [Interval.overlap, lowerEnd]
    split
    · exact left.min
    · exact right.min
    · exact left.min
  · simp only [Interval.overlap, upperEnd]
    split
    · exact left.max
    · exact right.max
    · exact left.max

/-- The intersection holds the values of both intervals. -/
theorem contains_overlap (total : Endpoint.TotalOn P) (left : a.EndsIn P) (right : b.EndsIn P)
    (hv : P v) : (overlap a b).contains v = (a.contains v && b.contains v) := by
  obtain ⟨β, _, level, spec⟩ := total.exists_level
  have low := lowerEnd_level level (spec _ _ left.min right.min)
  have high := upperEnd_level level (spec _ _ left.max right.max)
  rw [Bool.eq_iff_iff, Bool.and_eq_true, contains_iff_level spec (left.overlap right) hv,
    contains_iff_level spec left hv, contains_iff_level spec right hv]
  simp only [Interval.overlap, low.1, low.2, high.1, high.2]
  grind

theorem contains_of_isEmpty (total : Endpoint.TotalOn P) (ends : a.EndsIn P) (hv : P v)
    (empty : a.isEmpty = true) : a.contains v = false := by
  obtain ⟨β, _, level, spec⟩ := total.exists_level
  rw [isEmpty_iff_level spec ends] at empty
  rw [Bool.eq_false_iff, ne_eq, contains_iff_level spec ends hv]
  grind

theorem EndsIn.inter? (left : a.EndsIn P) (right : b.EndsIn P) (common : inter? a b = some c) :
    c.EndsIn P := by
  rw [(inter?_eq_some common).1]
  exact left.overlap right

/-- Where there is an intersection, it holds the values of both intervals; where there is none, no
value belongs to both. -/
theorem any_contains_inter? (total : Endpoint.TotalOn P) (left : a.EndsIn P) (right : b.EndsIn P)
    (hv : P v) : (Interval.inter? a b).any (·.contains v) = (a.contains v && b.contains v) := by
  rw [← contains_overlap total left right hv]
  cases common : Interval.inter? a b with
  | none =>
    rw [contains_of_isEmpty total (left.overlap right) hv (isEmpty_of_inter?_eq_none common)]
    rfl
  | some part => rw [(inter?_eq_some common).1, Option.any_some]

theorem contains_of_sameAs (total : Endpoint.TotalOn P) (left : a.EndsIn P) (right : b.EndsIn P)
    (hv : P v) (same : a.sameAs b = true) : a.contains v = b.contains v := by
  obtain ⟨β, _, level, spec⟩ := total.exists_level
  rw [sameAs_iff_level spec left right] at same
  rw [Bool.eq_iff_iff, contains_iff_level spec left hv, contains_iff_level spec right hv]
  obtain ⟨minFlag, maxFlag, minLevel, maxLevel⟩ := same
  rw [minFlag, maxFlag, minLevel, maxLevel]

theorem mem_complement :
    c ∈ complement a domain ↔
      Interval.inter? (lowerGap a domain) domain = some c ∨
        Interval.inter? (upperGap a domain) domain = some c := by
  simp [complement, lowerGap, upperGap, List.mem_filterMap]

/-- The gap below an interval in front of the one above it, each as far as the domain has it. -/
theorem complement_eq (a domain : Interval α) :
    Interval.complement a domain = ((Interval.lowerGap a domain).inter? domain).toList ++
      ((Interval.upperGap a domain).inter? domain).toList := by
  change List.filterMap _ [Interval.lowerGap a domain, Interval.upperGap a domain] = _
  cases lower : (Interval.lowerGap a domain).inter? domain <;>
    cases upper : (Interval.upperGap a domain).inter? domain <;> simp [lower, upper]

theorem EndsIn.complement (ends : a.EndsIn P) (inside : domain.EndsIn P)
    (mem : c ∈ complement a domain) : c.EndsIn P := by
  rcases mem_complement.1 mem with common | common
  · exact (ends.lowerGap inside).inter? inside common
  · exact (ends.upperGap inside).inter? inside common

theorem isEmpty_of_mem_complement (mem : c ∈ complement a domain) : c.isEmpty = false := by
  rcases mem_complement.1 mem with common | common
  · exact (inter?_eq_some common).2
  · exact (inter?_eq_some common).2

/-- The gaps beside an interval hold what the interval lacks of its domain. -/
private theorem contains_gaps (total : Endpoint.TotalOn P) (ends : a.EndsIn P)
    (inside : domain.EndsIn P) (hv : P v) :
    (((lowerGap a domain).contains v && domain.contains v) ||
      ((upperGap a domain).contains v && domain.contains v)) =
        (domain.contains v && !a.contains v) := by
  obtain ⟨β, _, level, spec⟩ := total.exists_level
  rw [Bool.eq_iff_iff]
  simp only [Bool.or_eq_true, Bool.and_eq_true, Bool.not_eq_true', ← Bool.not_eq_true]
  rw [contains_iff_level spec (ends.lowerGap inside) hv,
    contains_iff_level spec (ends.upperGap inside) hv, contains_iff_level spec ends hv,
    contains_iff_level spec inside hv]
  simp only [Interval.lowerGap, Interval.upperGap]
  grind

/-- The complement holds the values of the domain that the interval lacks. -/
theorem any_contains_complement (total : Endpoint.TotalOn P) (ends : a.EndsIn P)
    (inside : domain.EndsIn P) (hv : P v) :
    (complement a domain).any (·.contains v) = (domain.contains v && !a.contains v) := by
  rw [← contains_gaps total ends inside hv,
    ← any_contains_inter? total (ends.lowerGap inside) inside hv,
    ← any_contains_inter? total (ends.upperGap inside) inside hv, Bool.eq_iff_iff]
  simp [List.any_eq_true, mem_complement, or_and_right, exists_or, Option.any_eq_true_iff_get,
    Option.eq_some_iff_get_eq]

theorem inter?_of_bound (left : a.bound domain = .part c) : inter? a domain = some c := by
  rw [Interval.bound] at left
  split at left
  · cases left
  · rename_i part common
    split at left <;> cases left
    exact common

theorem EndsIn.bound (ends : a.EndsIn P) (inside : domain.EndsIn P)
    (left : a.bound domain = .part c) : c.EndsIn P :=
  ends.inter? inside (inter?_of_bound left)

/-- A value of the domain belongs to an interval iff it belongs to what the restriction to the
domain leaves of it. -/
theorem contains_bound (total : Endpoint.TotalOn P) (ends : a.EndsIn P) (inside : domain.EndsIn P)
    (hv : P v) (member : domain.contains v = true) :
    (a.bound domain).contains v = a.contains v := by
  have both := any_contains_inter? total ends inside hv
  rw [member, Bool.and_true] at both
  rw [← both, Interval.bound]
  cases common : Interval.inter? a domain with
  | none => rfl
  | some part =>
    rw [Option.any_some]
    by_cases same : part.sameAs domain = true
    · simp only [same, if_true]
      rw [contains_of_sameAs total (ends.inter? inside common) inside hv same, member]
      rfl
    · simp only [same]
      rfl

theorem contains_of_covers (total : Endpoint.TotalOn P) (left : a.EndsIn P) (right : b.EndsIn P)
    (hv : P v) (covers : Constraint.coversInterval a b = true) (member : b.contains v = true) :
    a.contains v = true := by
  obtain ⟨part, common, same⟩ := (Option.any_eq_true _ _).1 covers
  have both := any_contains_inter? total left right hv
  rw [common, Option.any_some,
    contains_of_sameAs total (left.inter? right common) right hv same, member] at both
  simpa using both.symm

/-- One interval covers another iff there is something between the ends of the other, and they lie
between its own. -/
private theorem covers_iff_level {β : Type} [LinearOrder β] {level : α → β}
    (spec : ∀ x y, P x → P y → Endpoint.compare x y = cmp (level x) (level y))
    (left : a.EndsIn P) (right : b.EndsIn P) :
    Constraint.coversInterval a b = true ↔ b.isEmpty = false ∧
      (level a.min < level b.min ∨
        level a.min = level b.min ∧ (b.minInclusive = true → a.minInclusive = true)) ∧
      (level b.max < level a.max ∨
        level b.max = level a.max ∧ (b.maxInclusive = true → a.maxInclusive = true)) := by
  have low := lowerEnd_level level (spec _ _ left.min right.min)
  have high := upperEnd_level level (spec _ _ left.max right.max)
  have both := left.overlap right
  have covers : Constraint.coversInterval a b = true ↔
      (overlap a b).isEmpty = false ∧ (overlap a b).sameAs b = true := by
    simp only [Constraint.coversInterval, Interval.inter?]
    split <;> simp [*]
  rw [covers, sameAs_iff_level spec both right, ← Bool.not_eq_true, ← Bool.not_eq_true,
    isEmpty_iff_level spec both, isEmpty_iff_level spec right, Bool.eq_iff_iff, Bool.eq_iff_iff]
  simp only [Interval.overlap, ← Bool.not_eq_true, low.1, low.2, high.1, high.2]
  grind

theorem covers_refl (total : Endpoint.TotalOn P) (ends : a.EndsIn P)
    (occupied : a.isEmpty = false) : Constraint.coversInterval a a = true := by
  obtain ⟨β, _, level, spec⟩ := total.exists_level
  rw [covers_iff_level spec ends ends]
  exact ⟨occupied, .inr ⟨rfl, id⟩, .inr ⟨rfl, id⟩⟩

theorem covers_trans (total : Endpoint.TotalOn P) (ha : a.EndsIn P) (hb : b.EndsIn P)
    (hc : c.EndsIn P) (first : Constraint.coversInterval a b = true)
    (second : Constraint.coversInterval b c = true) : Constraint.coversInterval a c = true := by
  obtain ⟨β, _, level, spec⟩ := total.exists_level
  rw [covers_iff_level spec ha hb] at first
  rw [covers_iff_level spec hb hc] at second
  rw [covers_iff_level spec ha hc]
  grind

end Sets

end Interval

theorem numberDomain_endsIn : numberDomain.EndsIn fun x => Number.isNaN x = false :=
  ⟨by decide, by decide +kernel⟩

end MediaQuery
