import MediaQuery.Proofs.NormalForm

set_option autoImplicit false

namespace MediaQuery

namespace Interval

variable {α : Type} [Endpoint α] {a b c domain : Interval α}

/-- A domain that holds both of its ends. -/
structure IsClosed (domain : Interval α) : Prop where
  minInclusive : domain.minInclusive = true
  maxInclusive : domain.maxInclusive = true
  minLevel : Endpoint.compare domain.min domain.min = .eq
  maxLevel : Endpoint.compare domain.max domain.max = .eq

theorem isClosed_numberDomain : numberDomain.IsClosed :=
  ⟨rfl, rfl, Number.order_self _, Number.order_self _⟩

theorem isClosed_ratioDomain : ratioDomain.IsClosed :=
  ⟨rfl, rfl, Ratio.order_self _, Ratio.order_self _⟩

/-- An interval as a domain may leave it: not empty, between the ends of the domain, and not the
same as all of it. -/
structure IsShare (domain a : Interval α) : Prop where
  occupied : a.isEmpty = false
  above : Endpoint.compare a.min domain.min ≠ .lt
  below : Endpoint.compare a.max domain.max ≠ .gt
  short : a.sameAs domain = false

theorem IsClosed.between_overlap (closed : domain.IsClosed) (a : Interval α) :
    Endpoint.compare (overlap a domain).min domain.min ≠ .lt ∧
      Endpoint.compare (overlap a domain).max domain.max ≠ .gt := by
  constructor
  · simp only [overlap, lowerEnd]
    split
    · simp_all
    · simp [closed.minLevel]
    · simp_all
  · simp only [overlap, upperEnd]
    split
    · simp_all
    · simp [closed.maxLevel]
    · simp_all

theorem IsClosed.overlap_eq_left (closed : domain.IsClosed)
    (above : Endpoint.compare a.min domain.min ≠ .lt)
    (below : Endpoint.compare a.max domain.max ≠ .gt) : overlap a domain = a := by
  have lower : lowerEnd a domain = (a.minInclusive, a.min) := by
    unfold lowerEnd
    split
    · rfl
    · contradiction
    · rw [closed.minInclusive, Bool.and_true]
  have upper : upperEnd a domain = (a.max, a.maxInclusive) := by
    unfold upperEnd
    split
    · rfl
    · contradiction
    · rw [closed.maxInclusive, Bool.and_true]
  rw [overlap, lower, upper]

theorem IsClosed.isShare_of_bound (closed : domain.IsClosed) (left : a.bound domain = .part c) :
    domain.IsShare c := by
  unfold bound at left
  split at left
  · cases left
  · rename_i part common
    split at left
    · cases left
    · rename_i short
      cases left
      obtain ⟨rfl, occupied⟩ := inter?_eq_some common
      obtain ⟨above, below⟩ := closed.between_overlap a
      exact ⟨occupied, above, below, by simpa using short⟩

theorem IsShare.bound_eq (share : domain.IsShare a) (closed : domain.IsClosed) :
    a.bound domain = .part a := by
  have whole := closed.overlap_eq_left share.above share.below
  have common : inter? a domain = some a := by
    rw [inter?, whole, share.occupied]
    rfl
  rw [bound, common]
  simp [share.short]

theorem coversInterval_of_sameAs (occupied : a.isEmpty = false) (same : a.sameAs b = true) :
    Constraint.coversInterval a b = true := by
  have level := same
  simp only [sameAs, Bool.and_eq_true, beq_iff_eq] at level
  obtain ⟨⟨⟨lower, upper⟩, min⟩, max⟩ := level
  have whole : overlap a b = a := by
    simp [overlap, lowerEnd, upperEnd, min, max, ← lower, ← upper]
  rw [Constraint.coversInterval, inter?, whole, occupied]
  exact same

end Interval

namespace Constraint

/-- A constraint that asks for something possible, for no more than the domain of its feature
holds, and for less than all of it. -/
def IsNormal : Constraint → Prop
  | .always | .never => False
  | .discrete _ => True
  | .gamut mask => mask.isEmpty = false ∧ mask.isFull = false
  | .number interval => numberDomain.IsShare interval
  | .ratio interval => ratioDomain.IsShare interval

variable {a b c : Constraint}

/-- A domain leaves all, nothing, or a constraint in normal form. -/
theorem simplify_cases (c : Constraint) :
    c.simplify = .always ∨ c.simplify = .never ∨ c.simplify.IsNormal := by
  cases c with
  | always => exact .inl rfl
  | never => exact .inr (.inl rfl)
  | discrete value => exact .inr (.inr trivial)
  | gamut mask =>
    rw [simplify]
    by_cases empty : mask.isEmpty = true
    · exact .inr (.inl (if_pos empty))
    · by_cases full : mask.isFull = true
      · exact .inl (by rw [if_neg empty, if_pos full])
      · rw [if_neg empty, if_neg full]
        exact .inr (.inr ⟨by simpa using empty, by simpa using full⟩)
  | number interval =>
    rw [simplify]
    cases left : interval.bound numberDomain with
    | whole => exact .inl rfl
    | nothing => exact .inr (.inl rfl)
    | part part => exact .inr (.inr (Interval.isClosed_numberDomain.isShare_of_bound left))
  | ratio interval =>
    rw [simplify]
    cases left : interval.bound ratioDomain with
    | whole => exact .inl rfl
    | nothing => exact .inr (.inl rfl)
    | part part => exact .inr (.inr (Interval.isClosed_ratioDomain.isShare_of_bound left))

/-- A constraint in normal form is left as it is. -/
theorem IsNormal.simplify_eq (normal : c.IsNormal) : c.simplify = c := by
  cases c with
  | always | never => exact normal.elim
  | discrete value => rfl
  | gamut mask => simp [simplify, normal.1, normal.2]
  | number interval =>
    rw [simplify, Interval.IsShare.bound_eq normal Interval.isClosed_numberDomain]
    rfl
  | ratio interval =>
    rw [simplify, Interval.IsShare.bound_eq normal Interval.isClosed_ratioDomain]
    rfl

theorem IsNormal.covers_self (normal : c.IsNormal) : c.covers c = true := by
  cases c with
  | always | never => exact normal.elim
  | discrete value => simp [covers]
  | gamut mask => simp [covers, GamutMask.inter]
  | number interval =>
    refine Interval.coversInterval_of_sameAs normal.occupied ?_
    simp [Interval.sameAs, Endpoint.compare, Number.order_self]
  | ratio interval =>
    refine Interval.coversInterval_of_sameAs normal.occupied ?_
    simp [Interval.sameAs, Endpoint.compare, Ratio.order_self]

/-- What the domain leaves of a constraint covers itself. -/
theorem covers_self_of_simplify (c : Constraint) : c.simplify.covers c.simplify = true := by
  rcases c.simplify_cases with all | never | normal
  · rw [all]
    rfl
  · rw [never]
    rfl
  · exact normal.covers_self

end Constraint

end MediaQuery
