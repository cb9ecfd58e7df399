import MediaQuery.Proofs.Interval

set_option autoImplicit false

/- Intervals by their cuts. A cut stands before or behind all values on one level, so the values of
an interval are those between its two cuts, and the algebra of intervals is that of half-open
segments of a linear order. Unlike the values themselves, the cuts of an interval tell its ends. -/
namespace MediaQuery

/-- Some values are compared by their levels. -/
def Endpoint.Leveled {α β : Type} [Endpoint α] [LinearOrder β] (P : α → Prop) (level : α → β) :
    Prop :=
  ∀ x y, P x → P y → Endpoint.compare x y = cmp (level x) (level y)

namespace Interval

variable {α β : Type} {level : α → β} {a domain : Interval α}

/-- The cut at the lower end: before its level if the end belongs to the interval, else behind. -/
def lowerCut (level : α → β) (a : Interval α) : β ×ₗ Bool := toLex (level a.min, !a.minInclusive)

def upperCut (level : α → β) (a : Interval α) : β ×ₗ Bool := toLex (level a.max, a.maxInclusive)

theorem lowerCut_upperGap : (upperGap a domain).lowerCut level = a.upperCut level := by
  simp [lowerCut, upperCut, upperGap]

variable [LinearOrder β]

/-- The cuts from the lower one on and before the upper one. -/
def span (level : α → β) (a : Interval α) : Set (β ×ₗ Bool) :=
  Set.Ico (a.lowerCut level) (a.upperCut level)

end Interval

def Bounded.span {α β : Type} [LinearOrder β] (level : α → β) : Bounded α → Set (β ×ₗ Bool)
  | .whole => Set.univ
  | .nothing => ∅
  | .part interval => interval.span level

namespace Interval

/-- The later one of two cuts. On one level it stands behind the values if one of the two does. -/
theorem sup_toLex {β : Type} [LinearOrder β] (x y : β) (p q : Bool) :
    (toLex (x, p) : β ×ₗ Bool) ⊔ toLex (y, q) = match cmp x y with
      | .lt => toLex (y, q)
      | .eq => toLex (x, p || q)
      | .gt => toLex (x, p) := by
  rcases cmp_cases x y with ⟨below, verdict⟩ | ⟨equal, verdict⟩ | ⟨above, verdict⟩ <;> rw [verdict]
  · rw [sup_eq_right, Prod.Lex.toLex_le_toLex]
    exact .inl below
  · cases p <;> cases q <;> simp [equal, Prod.Lex.toLex_le_toLex]
  · rw [sup_eq_left, Prod.Lex.toLex_le_toLex]
    exact .inl above

variable {α β : Type} [LinearOrder β] [Endpoint α] {level : α → β} {P : α → Prop}
  {a b c domain : Interval α}

section Cuts

variable (leveled : Endpoint.Leveled P level) (left : a.EndsIn P) (right : b.EndsIn P)

include leveled left

theorem isEmpty_iff_cuts : a.isEmpty = true ↔ a.upperCut level ≤ a.lowerCut level := by
  simp only [isEmpty, leveled _ _ left.min left.max, lowerCut, upperCut, Prod.Lex.toLex_le_toLex]
  rcases cmp_cases (level a.min) (level a.max) with
    ⟨below, verdict⟩ | ⟨equal, verdict⟩ | ⟨above, verdict⟩ <;> rw [verdict]
  · simp [below.not_gt, below.ne']
  · cases a.minInclusive <;> cases a.maxInclusive <;> simp [equal]
  · simp [above]

theorem span_nonempty_iff : (a.span level).Nonempty ↔ a.isEmpty = false := by
  rw [span, Set.nonempty_Ico, ← not_le, ← isEmpty_iff_cuts leveled left, Bool.not_eq_true]

include right

theorem sameAs_iff_cuts : a.sameAs b = true ↔
    a.lowerCut level = b.lowerCut level ∧ a.upperCut level = b.upperCut level := by
  simp only [sameAs, leveled _ _ left.min right.min, leveled _ _ left.max right.max, lowerCut,
    upperCut, Bool.and_eq_true, beq_iff_eq, cmp_eq_eq_iff, EmbeddingLike.apply_eq_iff_eq,
    Prod.mk.injEq, Bool.not_inj_iff]
  tauto

theorem lowerCut_overlap :
    (overlap a b).lowerCut level = a.lowerCut level ⊔ b.lowerCut level := by
  simp only [overlap, lowerEnd, leveled _ _ left.min right.min, lowerCut, sup_toLex]
  cases cmp (level a.min) (level b.min) with
  | eq => simp only [Bool.not_and]
  | _ => rfl

theorem upperCut_overlap :
    (overlap a b).upperCut level = a.upperCut level ⊓ b.upperCut level := by
  simp only [overlap, upperEnd, leveled _ _ left.max right.max, upperCut]
  rcases cmp_cases (level a.max) (level b.max) with
    ⟨below, verdict⟩ | ⟨equal, verdict⟩ | ⟨above, verdict⟩ <;> rw [verdict]
  · rw [eq_comm, inf_eq_left, Prod.Lex.toLex_le_toLex]
    exact .inl below
  · cases a.maxInclusive <;> cases b.maxInclusive <;> simp [equal, Prod.Lex.toLex_le_toLex]
  · rw [eq_comm, inf_eq_right, Prod.Lex.toLex_le_toLex]
    exact .inl above

/-- What is empty stays so in an intersection. -/
theorem isEmpty_overlap_left (empty : a.isEmpty = true) : (overlap a b).isEmpty = true := by
  rw [isEmpty_iff_cuts leveled left] at empty
  rw [isEmpty_iff_cuts leveled (left.overlap right), lowerCut_overlap leveled left right,
    upperCut_overlap leveled left right]
  exact inf_le_left.trans (empty.trans le_sup_left)

theorem isEmpty_overlap_right (empty : b.isEmpty = true) : (overlap a b).isEmpty = true := by
  rw [isEmpty_iff_cuts leveled right] at empty
  rw [isEmpty_iff_cuts leveled (left.overlap right), lowerCut_overlap leveled left right,
    upperCut_overlap leveled left right]
  exact inf_le_right.trans (empty.trans le_sup_right)

theorem span_overlap : (overlap a b).span level = a.span level ∩ b.span level := by
  rw [span, lowerCut_overlap leveled left right, upperCut_overlap leveled left right,
    ← Set.Ico_inter_Ico]
  rfl

/-- There is no intersection where no cut lies in both intervals. -/
theorem inter?_eq_none_iff :
    Interval.inter? a b = none ↔ a.span level ∩ b.span level = ∅ := by
  rw [← span_overlap leveled left right, ← Set.not_nonempty_iff_eq_empty,
    span_nonempty_iff leveled (left.overlap right), Interval.inter?]
  simp

theorem span_of_inter? (common : Interval.inter? a b = some c) :
    c.span level = a.span level ∩ b.span level ∧ (c.span level).Nonempty := by
  obtain ⟨rfl, occupied⟩ := inter?_eq_some common
  exact ⟨span_overlap leveled left right,
    (span_nonempty_iff leveled (left.overlap right)).2 occupied⟩

/-- The cuts of an intersection are those that lie in both intervals. -/
theorem mem_span_inter? {cut : β ×ₗ Bool} :
    (∃ part, Interval.inter? a b = some part ∧ cut ∈ part.span level) ↔
      cut ∈ a.span level ∧ cut ∈ b.span level := by
  cases common : Interval.inter? a b with
  | none =>
    rw [inter?_eq_none_iff leveled left right] at common
    exact iff_of_false (by simp) fun both => common.subset both
  | some part =>
    have both := (span_of_inter? leveled left right common).1
    simp [both]

/-- Intervals with the same cuts have their ends on the same levels. -/
theorem sameAs_iff_span (occupied : (a.span level).Nonempty) :
    a.sameAs b = true ↔ a.span level = b.span level := by
  rw [sameAs_iff_cuts leveled left right]
  constructor
  · rintro ⟨lower, upper⟩
    rw [span, span, lower, upper]
  · intro same
    have within : Set.Ico (a.lowerCut level) (a.upperCut level) ⊆
        Set.Ico (b.lowerCut level) (b.upperCut level) := same.subset
    have around : Set.Ico (b.lowerCut level) (b.upperCut level) ⊆
        Set.Ico (a.lowerCut level) (a.upperCut level) := same.superset
    have first : a.lowerCut level < a.upperCut level := Set.nonempty_Ico.1 occupied
    have filled : (b.span level).Nonempty := by
      rw [← same]
      exact occupied
    have second : b.lowerCut level < b.upperCut level := Set.nonempty_Ico.1 filled
    rw [Set.Ico_subset_Ico_iff first] at within
    rw [Set.Ico_subset_Ico_iff second] at around
    exact ⟨le_antisymm around.1 within.1, le_antisymm within.2 around.2⟩

/-- One interval covers another iff the other is not empty and has no cut outside of it. -/
theorem coversInterval_iff_span : Constraint.coversInterval a b = true ↔
    (b.span level).Nonempty ∧ b.span level ⊆ a.span level := by
  rw [Constraint.coversInterval, Option.any_eq_true]
  constructor
  · rintro ⟨part, common, same⟩
    obtain ⟨both, occupied⟩ := span_of_inter? leveled left right common
    rw [sameAs_iff_span leveled (left.inter? right common) right occupied] at same
    rw [← same]
    exact ⟨occupied, both.trans_subset Set.inter_subset_left⟩
  · rintro ⟨occupied, within⟩
    have both : a.span level ∩ b.span level = b.span level := Set.inter_eq_right.2 within
    cases common : Interval.inter? a b with
    | none =>
      rw [inter?_eq_none_iff leveled left right, both] at common
      exact absurd common occupied.ne_empty
    | some part =>
      obtain ⟨same, occupied⟩ := span_of_inter? leveled left right common
      exact ⟨part, rfl, (sameAs_iff_span leveled (left.inter? right common) right occupied).2
        (same.trans both)⟩

end Cuts

section Complement

variable (leveled : Endpoint.Leveled P level) (ends : a.EndsIn P) (inside : domain.EndsIn P)

include leveled ends inside

/-- A part of the complement holds cuts of the domain outside of the interval. -/
theorem span_of_mem_complement (mem : c ∈ complement a domain) :
    (c.span level).Nonempty ∧ c.span level ⊆ domain.span level \ a.span level := by
  rcases mem_complement.1 mem with common | common
  · obtain ⟨same, occupied⟩ := span_of_inter? leveled (ends.lowerGap inside) inside common
    refine ⟨occupied, ?_⟩
    rw [same]
    rintro cut ⟨⟨_, before⟩, within⟩
    exact ⟨within, fun ⟨behind, _⟩ => absurd before behind.not_gt⟩
  · obtain ⟨same, occupied⟩ := span_of_inter? leveled (ends.upperGap inside) inside common
    refine ⟨occupied, ?_⟩
    rw [same]
    rintro cut ⟨⟨behind, _⟩, within⟩
    rw [lowerCut_upperGap] at behind
    exact ⟨within, fun ⟨_, before⟩ => absurd before behind.not_gt⟩

/-- Cuts of the domain without a gap, none of which lies in an interval, lie in one part of its
complement: they are all before the interval or all behind it. -/
theorem exists_complement_superset {cuts : Set (β ×ₗ Bool)} (connected : cuts.OrdConnected)
    (nonempty : cuts.Nonempty) (within : cuts ⊆ domain.span level)
    (occupied : (a.span level).Nonempty) (apart : ∀ cut ∈ cuts, cut ∉ a.span level) :
    ∃ part ∈ complement a domain, cuts ⊆ part.span level := by
  have fits {gap : Interval α} (gapEnds : gap.EndsIn P) (sub : cuts ⊆ gap.span level) :
      ∃ part, Interval.inter? gap domain = some part ∧ cuts ⊆ part.span level := by
    cases common : Interval.inter? gap domain with
    | none =>
      rw [inter?_eq_none_iff leveled gapEnds inside] at common
      exact absurd (Set.subset_eq_empty (Set.subset_inter sub within) common) nonempty.ne_empty
    | some part =>
      refine ⟨part, rfl, ?_⟩
      rw [(span_of_inter? leveled gapEnds inside common).1]
      exact Set.subset_inter sub within
  have lower : a.lowerCut level ∈ a.span level := ⟨le_rfl, Set.nonempty_Ico.1 occupied⟩
  have beside {cut : β ×ₗ Bool} (mem : cut ∈ cuts) (behind : a.lowerCut level ≤ cut) :
      a.upperCut level ≤ cut :=
    not_lt.1 fun before => apart cut mem ⟨behind, before⟩
  obtain ⟨first, mem⟩ := nonempty
  rcases lt_or_ge first (a.lowerCut level) with before | behind
  · obtain ⟨part, common, sub⟩ := fits (ends.lowerGap inside) fun cut mem' => by
      refine ⟨(within mem').1, lt_of_not_ge fun behind => ?_⟩
      exact apart _ (connected.out mem mem' ⟨before.le, behind⟩) lower
    exact ⟨part, mem_complement.2 (.inl common), sub⟩
  · obtain ⟨part, common, sub⟩ := fits (ends.upperGap inside) fun cut mem' => by
      refine ⟨lowerCut_upperGap.trans_le (beside mem' (not_lt.1 fun before => ?_)),
        (within mem').2⟩
      exact apart _ (connected.out mem' mem ⟨before.le, behind⟩) lower
    exact ⟨part, mem_complement.2 (.inr common), sub⟩

/-- Cuts without a gap, none of which lies both in the domain and in an interval, lie in one part of
the complement as far as they lie in the domain. -/
theorem exists_complement_of_apart {cuts : Set (β ×ₗ Bool)} (connected : cuts.OrdConnected)
    (nonempty : (cuts ∩ domain.span level).Nonempty) (occupied : a.isEmpty = false)
    (apart : ∀ cut ∈ cuts, cut ∈ domain.span level → cut ∉ a.span level) :
    ∃ part ∈ complement a domain, ∀ cut ∈ cuts, cut ∈ domain.span level →
      cut ∈ part.span level := by
  have filled := (span_nonempty_iff leveled ends).2 occupied
  obtain ⟨part, listed, sub⟩ := exists_complement_superset leveled ends inside
    (connected.inter Set.ordConnected_Ico) nonempty Set.inter_subset_right filled
    fun cut both => apart cut both.1 both.2
  exact ⟨part, listed, fun cut mem within => sub ⟨mem, within⟩⟩

/-- What a restriction to the domain leaves holds the cuts of both, unless it is all or nothing. -/
theorem span_of_bound : match a.bound domain with
    | .nothing => a.span level ∩ domain.span level = ∅
    | .whole => domain.span level ⊆ a.span level
    | .part part => part.span level = a.span level ∩ domain.span level ∧
        (part.span level).Nonempty ∧ ¬domain.span level ⊆ part.span level := by
  simp only [bound]
  cases common : Interval.inter? a domain with
  | none => exact (inter?_eq_none_iff leveled ends inside).1 common
  | some part =>
    obtain ⟨both, occupied⟩ := span_of_inter? leveled ends inside common
    have within : part.span level ⊆ domain.span level := both.trans_subset Set.inter_subset_right
    have whole : part.sameAs domain = true ↔ domain.span level ⊆ part.span level := by
      rw [sameAs_iff_span leveled (ends.inter? inside common) inside occupied]
      exact ⟨Eq.superset, within.antisymm⟩
    by_cases same : part.sameAs domain = true
    · simp only [same, if_true]
      exact (whole.1 same).trans (both.trans_subset Set.inter_subset_left)
    · simp only [same]
      exact ⟨both, occupied, fun sub => same (whole.2 sub)⟩

theorem mem_span_bound {cut : β ×ₗ Bool} (mem : cut ∈ domain.span level) :
    cut ∈ (a.bound domain).span level ↔ cut ∈ a.span level := by
  have spans := span_of_bound leveled ends inside
  cases left : a.bound domain with
  | whole =>
    rw [left] at spans
    exact iff_of_true trivial (spans mem)
  | nothing =>
    rw [left] at spans
    exact iff_of_false id fun within => spans.subset ⟨within, mem⟩
  | part part =>
    rw [left] at spans
    change cut ∈ part.span level ↔ cut ∈ a.span level
    rw [spans.1]
    exact and_iff_left mem

end Complement

end Interval

end MediaQuery
