import MediaQuery.Compile
import MediaQuery.Proofs.Domain
import MediaQuery.Proofs.Irredundant

set_option autoImplicit false

namespace MediaQuery

namespace Interval

variable {α : Type} [Endpoint α] {a b c domain : Interval α}

/-- An interval that is not empty and that its domain leaves as it is. -/
def IsKept (domain a : Interval α) : Prop := a.inter? domain = some a

theorem IsClosed.isKept (closed : domain.IsClosed) (occupied : a.isEmpty = false)
    (above : Endpoint.compare a.min domain.min ≠ .lt)
    (below : Endpoint.compare a.max domain.max ≠ .gt) : domain.IsKept a := by
  rw [IsKept, inter?, closed.overlap_eq_left above below, occupied]
  rfl

theorem IsClosed.isKept_of_inter? (closed : domain.IsClosed) (common : a.inter? domain = some c) :
    domain.IsKept c := by
  obtain ⟨rfl, occupied⟩ := inter?_eq_some common
  obtain ⟨above, below⟩ := closed.between_overlap a
  exact closed.isKept occupied above below

theorem IsClosed.isKept_of_mem_complement (closed : domain.IsClosed)
    (mem : c ∈ a.complement domain) : domain.IsKept c := by
  rcases mem_complement.1 mem with common | common <;> exact closed.isKept_of_inter? common

theorem IsKept.between (kept : domain.IsKept a) (closed : domain.IsClosed) :
    Endpoint.compare a.min domain.min ≠ .lt ∧ Endpoint.compare a.max domain.max ≠ .gt := by
  have whole := (inter?_eq_some kept).1
  have ends := closed.between_overlap a
  rwa [← whole] at ends

theorem IsKept.inter? (first : domain.IsKept a) (second : domain.IsKept b)
    (closed : domain.IsClosed) (common : a.inter? b = some c) : domain.IsKept c := by
  obtain ⟨rfl, occupied⟩ := inter?_eq_some common
  obtain ⟨above, below⟩ := first.between closed
  obtain ⟨above', below'⟩ := second.between closed
  refine closed.isKept occupied ?_ ?_
  · simp only [overlap, lowerEnd]
    split <;> assumption
  · simp only [overlap, upperEnd]
    split <;> assumption

end Interval

namespace Constraint

/-- A constraint that asks for something possible: it is not `never`, its set of bands is not empty,
and neither is its interval inside the domain. -/
def IsFeasible : Constraint → Prop
  | .always | .discrete _ => True
  | .never => False
  | .gamut mask => mask.isEmpty = false
  | .number interval => (interval.inter? numberDomain).isSome = true
  | .ratio interval => (interval.inter? ratioDomain).isSome = true

/-- A constraint whose interval, if it is one, is kept by its domain. -/
def IsKept : Constraint → Prop
  | .number interval => numberDomain.IsKept interval
  | .ratio interval => ratioDomain.IsKept interval
  | _ => True

variable {a b c : Constraint}

theorem isKept_ofNumbers? {interval : Option (Interval Float)}
    (kept : ∀ part, interval = some part → numberDomain.IsKept part) :
    (ofNumbers? interval).IsKept := by
  cases interval with
  | none => trivial
  | some part => exact kept part rfl

theorem isKept_ofRatios? {interval : Option (Interval Ratio)}
    (kept : ∀ part, interval = some part → ratioDomain.IsKept part) :
    (ofRatios? interval).IsKept := by
  cases interval with
  | none => trivial
  | some part => exact kept part rfl

theorem IsKept.inter (first : a.IsKept) (second : b.IsKept) : (a.inter b).IsKept := by
  cases a with
  | always => rwa [always_inter]
  | never => trivial
  | discrete x =>
    cases b with
    | discrete y =>
      rw [inter_discrete]
      split <;> trivial
    | _ => trivial
  | gamut x => cases b <;> trivial
  | number x =>
    cases b with
    | number y =>
      exact isKept_ofNumbers? fun part common =>
        Interval.IsKept.inter? first second Interval.isClosed_numberDomain common
    | always => exact first
    | _ => trivial
  | ratio x =>
    cases b with
    | ratio y =>
      exact isKept_ofRatios? fun part common =>
        Interval.IsKept.inter? first second Interval.isClosed_ratioDomain common
    | always => exact first
    | _ => trivial

/-- What is kept and does not contradict itself asks for something possible. -/
theorem IsKept.isFeasible (kept : c.IsKept) (sound : c.isContradiction = false) : c.IsFeasible := by
  cases c with
  | always | discrete value => trivial
  | never => cases sound
  | gamut mask => exact sound
  | number interval => exact Option.isSome_iff_exists.2 ⟨interval, kept⟩
  | ratio interval => exact Option.isSome_iff_exists.2 ⟨interval, kept⟩

theorem IsFeasible.simplify_isNever (feasible : c.IsFeasible) : c.simplify.isNever = false := by
  cases c with
  | always | discrete value => rfl
  | never => exact feasible.elim
  | gamut mask =>
    rw [simplify, show mask.isEmpty = false from feasible]
    simp only [Bool.false_eq_true, if_false]
    split <;> rfl
  | number interval =>
    obtain ⟨part, common⟩ := Option.isSome_iff_exists.1 feasible
    simp only [simplify, Interval.bound, common]
    split <;> rfl
  | ratio interval =>
    obtain ⟨part, common⟩ := Option.isSome_iff_exists.1 feasible
    simp only [simplify, Interval.bound, common]
    split <;> rfl

end Constraint

namespace Clause

variable {a b c r : Clause} {cs done : List Clause}

def IsKept (c : Clause) : Prop :=
  ∀ key constraint, c.tests.get? key = some constraint → constraint.IsKept

/-- A clause whose constraints all ask for something possible. -/
def IsFeasible (c : Clause) : Prop :=
  ∀ key constraint, c.tests.get? key = some constraint → constraint.IsFeasible

theorem isKept_top : top.IsKept := nofun

theorem isKept_single {key : String} {constraint : Constraint} (kept : constraint.IsKept) :
    (single key constraint).IsKept := by
  intro name x found
  rw [single, KeyMap.get?_single] at found
  split at found
  · cases found
    exact kept
  · cases found

theorem IsKept.and (first : a.IsKept) (second : b.IsKept) : (a.and b).IsKept := by
  intro key x found
  rw [get?_and] at found
  cases left : a.tests.get? key with
  | none =>
    rw [left] at found
    exact second key x found
  | some y =>
    cases right : b.tests.get? key with
    | none =>
      rw [left, right] at found
      cases found
      exact first key _ left
    | some z =>
      rw [left, right] at found
      cases found
      exact (first key y left).inter (second key z right)

/-- The parts of a negation are kept, whatever is negated. -/
theorem isKept_of_mem_constraint_negate {key : String} {x : Constraint} (mem : c ∈ x.negate key) :
    c.IsKept := by
  cases x with
  | always => cases mem
  | never =>
    rw [List.mem_singleton.1 mem]
    exact isKept_top
  | discrete value =>
    rw [Constraint.negate] at mem
    split at mem
    · obtain ⟨other, _, rfl⟩ := List.mem_map.1 mem
      exact isKept_single trivial
    · rw [List.mem_singleton.1 mem]
      intro _ _ found
      cases found
  | gamut mask =>
    rw [List.mem_singleton.1 mem]
    exact isKept_single trivial
  | number interval =>
    obtain ⟨part, gap, rfl⟩ := List.mem_map.1 mem
    exact isKept_single (Interval.isClosed_numberDomain.isKept_of_mem_complement gap)
  | ratio interval =>
    obtain ⟨part, gap, rfl⟩ := List.mem_map.1 mem
    exact isKept_single (Interval.isClosed_ratioDomain.isKept_of_mem_complement gap)

theorem isKept_of_mem_negate (mem : r ∈ c.negate) : r.IsKept := by
  unfold negate at mem
  split at mem
  · rw [List.mem_singleton.1 mem]
    exact isKept_top
  · split at mem
    · rw [List.mem_singleton.1 mem]
      exact isKept_top
    · obtain ⟨entry, _, mem⟩ := List.mem_flatMap.1 mem
      exact isKept_of_mem_constraint_negate mem

/-- What a negation holds at each step: clauses inside the domains that are not understood or do not
contradict themselves. -/
def IsSifted (c : Clause) : Prop := c.IsKept ∧ (c.isInvalid = true ∨ c.isContradiction = false)

theorem isSifted_step (before : ∀ d ∈ done, d.IsSifted)
    (mem : r ∈ dropContradictions (product done c.negate)) : r.IsSifted := by
  obtain ⟨inside, left⟩ := List.mem_filter.1 mem
  obtain ⟨d, first, part, second, rfl⟩ := mem_product.1 inside
  refine ⟨(before d first).1.and (isKept_of_mem_negate second), ?_⟩
  rwa [Bool.or_eq_true, Bool.not_eq_true'] at left

theorem isSifted_foldl (before : ∀ d ∈ done, d.IsSifted)
    (mem : r ∈ cs.foldl (fun done c => dropContradictions (product done c.negate)) done) :
    r.IsSifted := by
  induction cs generalizing done with
  | nil => exact before r mem
  | cons c rest ih => exact ih (fun d mem => isSifted_step before mem) mem

theorem isSifted_of_mem_negateAll (mem : r ∈ negateAll cs) : r.IsSifted :=
  isSifted_foldl (List.forall_mem_singleton.2 ⟨isKept_top, .inr rfl⟩) mem

theorem IsSifted.isFeasible (sifted : r.IsSifted) (readable : r.isInvalid = false) :
    r.IsFeasible := by
  intro key x found
  refine (sifted.1 key x found).isFeasible ?_
  rcases sifted.2 with invalid | sound
  · rw [readable] at invalid
    cases invalid
  · exact Bool.eq_false_iff.2 fun never =>
      Bool.eq_false_iff.1 sound (KeyMap.any_values.2 ⟨key, x, found, never⟩)

theorem IsFeasible.falseKeys_eq_nil (feasible : c.IsFeasible) : c.falseKeys = [] := by
  refine List.eq_nil_iff_forall_not_mem.2 fun key listed => ?_
  obtain ⟨x, found, never⟩ := mem_falseKeys.1 listed
  rw [(feasible key x found).simplify_isNever] at never
  cases never

end Clause

namespace Outcome

variable {cs : List Clause}

/-- Only readable clauses with an impossible constraint are reported. -/
theorem falsified_eq_nil (feasible : ∀ c ∈ cs, c.isInvalid = true ∨ c.IsFeasible) :
    (ofClauses cs).falsified = [] := by
  have none : (cs.filter fun c => !c.isInvalid).flatMap Clause.falseKeys = [] := by
    refine List.flatMap_eq_nil_iff.2 fun c mem => ?_
    obtain ⟨mem, readable⟩ := List.mem_filter.1 mem
    rcases feasible c mem with invalid | feasible
    · rw [invalid] at readable
      cases readable
    · exact feasible.falseKeys_eq_nil
  rw [ofClauses, none]
  rfl

end Outcome

/-- Negations ask for nothing impossible. A clause of a negation was not understood, or each of its
constraints asks for something possible; so nothing impossible is reported for a negation, nor for a
list of one query that is the negation of an item. -/
theorem Clause.feasible_negateAll (cs : List Clause) (m : Metrics) (item : InParens) :
    (∀ r ∈ Clause.negateAll cs, r.isInvalid = true ∨ r.IsFeasible) ∧
      (Outcome.ofClauses (Clause.negateAll cs)).falsified = [] ∧
      (QueryList.compile m [.ofCondition (.not item)]).falsified = [] := by
  have feasible (bs : List Clause) (r : Clause) (mem : r ∈ Clause.negateAll bs) :
      r.isInvalid = true ∨ r.IsFeasible := by
    cases readable : r.isInvalid with
    | true => exact .inl rfl
    | false => exact .inr ((Clause.isSifted_of_mem_negateAll mem).isFeasible readable)
  have compiled : QueryList.compile m [.ofCondition (.not item)] =
      Outcome.ofClauses ((Clause.negateAll (item.clauses m)).map fun c => c.tagged .all) := by
    simp [QueryList.compile, QueryList.clauses, Query.clauses, Query.ofCondition,
      MediaType.tag?, Condition.clauses]
  refine ⟨feasible cs, Outcome.falsified_eq_nil (feasible cs), ?_⟩
  rw [compiled]
  refine Outcome.falsified_eq_nil fun c inside => ?_
  obtain ⟨r, mem, rfl⟩ := List.mem_map.1 inside
  exact feasible _ r mem

end MediaQuery
