import MediaQuery.Proofs.Cut
import MediaQuery.Proofs.Knowledge
import MediaQuery.Proofs.NormalForm

set_option autoImplicit false

/- The sign of zero. No comparison sees it, so the algebra of clauses commutes with leaving it out;
and without it, numbers on one level are equal. This makes the order in which clauses are joined
invisible, although an intersection takes its ends from one side. -/
namespace MediaQuery

namespace Number

/-- A double without the sign of zero. -/
def unsigned (x : Float) : Float := if isZero x then 0 else x

theorem isNaN_unsigned (x : Float) : isNaN (unsigned x) = isNaN x := by
  unfold unsigned
  split
  · rename_i zero
    rw [isZero, beq_iff_eq] at zero
    rw [isNaN_zero, isNaN, zero]
    rfl
  · rfl

theorem rank_unsigned (x : Float) : rank (unsigned x) = rank x := by
  unfold unsigned
  split
  · rename_i zero
    rw [rank_zero, (isZero_iff_rank x).1 zero]
  · rfl

theorem order_unsigned (x y : Float) : order (unsigned x) (unsigned y) = order x y := by
  simp [order, isNaN_unsigned, rank_unsigned]

theorem unsigned_unsigned (x : Float) : unsigned (unsigned x) = unsigned x := by
  by_cases zero : isZero x = true
  · simp only [unsigned, zero, if_true]
    rfl
  · simp only [unsigned, zero, if_false, Bool.false_eq_true]

/-- Without the sign of zero, numbers on one level are equal. -/
theorem unsigned_eq_of_order {x y : Float} (hx : isNaN x = false) (hy : isNaN y = false)
    (level : order x y = .eq) : unsigned x = unsigned y := by
  rw [order_eq_compare_rank hx hy, compare_eq_iff_eq] at level
  by_cases zero : rank x = 0
  · have left := (isZero_iff_rank x).2 zero
    have right := (isZero_iff_rank y).2 (level ▸ zero)
    rw [unsigned, unsigned, if_pos left, if_pos right]
  · rw [eq_of_rank level zero]

end Number

namespace Interval

variable {α : Type} {f : α → α} {a b c domain : Interval α}

def map (f : α → α) (a : Interval α) : Interval α :=
  ⟨a.minInclusive, f a.min, f a.max, a.maxInclusive⟩

variable [Endpoint α]

section Unseen

variable (unseen : ∀ x y, Endpoint.compare (f x) (f y) = Endpoint.compare x y)

include unseen

theorem isEmpty_map (a : Interval α) : (a.map f).isEmpty = a.isEmpty := by
  simp only [isEmpty, map, unseen]

theorem sameAs_map (a b : Interval α) : (a.map f).sameAs (b.map f) = a.sameAs b := by
  simp only [sameAs, map, unseen]

theorem overlap_map (a b : Interval α) : overlap (a.map f) (b.map f) = (overlap a b).map f := by
  simp only [overlap, lowerEnd, upperEnd, map, unseen]
  cases Endpoint.compare a.min b.min <;> cases Endpoint.compare a.max b.max <;> rfl

theorem inter?_map (a b : Interval α) :
    inter? (a.map f) (b.map f) = (inter? a b).map (map f) := by
  simp only [inter?, overlap_map unseen, isEmpty_map unseen]
  split <;> rfl

theorem coversInterval_map (a b : Interval α) :
    Constraint.coversInterval (a.map f) (b.map f) = Constraint.coversInterval a b := by
  simp only [Constraint.coversInterval, inter?_map unseen, Option.any_map,
    sameAs_map unseen]

theorem complement_map (fixed : domain.map f = domain) (a : Interval α) :
    complement (a.map f) domain = (complement a domain).map (map f) := by
  have gap (x : Interval α) : inter? (x.map f) domain = (inter? x domain).map (map f) := by
    rw [← inter?_map unseen, fixed]
  have lower : lowerGap (a.map f) domain = (lowerGap a domain).map f := by
    have least : domain.min = f domain.min := congrArg Interval.min fixed.symm
    simp only [lowerGap, map]
    rw [← least]
  have upper : upperGap (a.map f) domain = (upperGap a domain).map f := by
    have greatest : domain.max = f domain.max := congrArg Interval.max fixed.symm
    simp only [upperGap, map]
    rw [← greatest]
  change [lowerGap (a.map f) domain, upperGap (a.map f) domain].filterMap (inter? · domain) =
    ([lowerGap a domain, upperGap a domain].filterMap (inter? · domain)).map (map f)
  rw [lower, upper, List.map_filterMap]
  simp only [List.filterMap_cons, List.filterMap_nil, gap]

theorem bound_map (fixed : domain.map f = domain) (a : Interval α) :
    (a.map f).bound domain = match a.bound domain with
      | .whole => .whole
      | .nothing => .nothing
      | .part part => .part (part.map f) := by
  have common : inter? (a.map f) domain = (inter? a domain).map (map f) := by
    rw [← inter?_map unseen, fixed]
  simp only [bound, common]
  cases inter? a domain with
  | none => rfl
  | some part =>
    have same : (part.map f).sameAs domain = part.sameAs domain := by
      rw [← sameAs_map unseen part domain, fixed]
    simp only [Option.map_some, same]
    split <;> rfl

end Unseen

end Interval

namespace Constraint

def unsigned : Constraint → Constraint
  | .number interval => .number (interval.map Number.unsigned)
  | c => c

variable {a b : Constraint}

theorem unsigned_unsigned (a : Constraint) : a.unsigned.unsigned = a.unsigned := by
  cases a <;> simp only [unsigned, Interval.map, Number.unsigned_unsigned]

theorem unsigned_ofNumbers? (interval : Option (Interval Float)) :
    (ofNumbers? interval).unsigned = ofNumbers? (interval.map (Interval.map Number.unsigned)) := by
  cases interval <;> rfl

theorem inter_unsigned (a b : Constraint) : a.unsigned.inter b.unsigned = (a.inter b).unsigned := by
  cases a <;> cases b <;> try rfl
  case discrete.discrete x y =>
    simp only [unsigned, inter]
    split <;> rfl
  case number.number x y =>
    simp only [unsigned, inter, Interval.inter?_map Number.order_unsigned]
    exact (unsigned_ofNumbers? _).symm
  case ratio.ratio x y =>
    simp only [unsigned, inter]
    cases Interval.inter? x y <;> rfl

theorem isContradiction_unsigned (a : Constraint) :
    a.unsigned.isContradiction = a.isContradiction := by
  cases a <;> rfl

theorem isNever_unsigned (a : Constraint) : a.unsigned.isNever = a.isNever := by
  cases a <;> rfl

theorem numberDomain_unsigned : numberDomain.map Number.unsigned = numberDomain := by
  have least : Number.unsigned 0 = 0 := rfl
  have greatest : Number.unsigned Number.infinity = Number.infinity := rfl
  simp only [Interval.map, numberDomain, Interval.nonNegative, Endpoint.zero, Endpoint.infinity,
    least, greatest]

theorem simplify_unsigned (a : Constraint) : a.unsigned.simplify = a.simplify.unsigned := by
  cases a <;> try rfl
  case gamut mask =>
    simp only [unsigned, simplify]
    split
    · rfl
    · split <;> rfl
  case number interval =>
    simp only [unsigned, simplify]
    rw [Interval.bound_map Number.order_unsigned numberDomain_unsigned]
    cases interval.bound numberDomain <;> rfl
  case ratio interval =>
    simp only [unsigned, simplify]
    cases interval.bound ratioDomain <;> rfl

theorem covers_unsigned (a b : Constraint) : a.unsigned.covers b.unsigned = a.covers b := by
  cases a <;> cases b <;> try rfl
  exact Interval.coversInterval_map Number.order_unsigned _ _

end Constraint

namespace Clause

variable {a b c : Clause} {as bs cs : List Clause}

def unsigned (c : Clause) : Clause :=
  { c with tests := c.tests.filterMap fun _ constraint => some constraint.unsigned }

theorem get?_unsigned (c : Clause) (key : String) :
    c.unsigned.tests.get? key = (c.tests.get? key).map Constraint.unsigned := by
  rw [unsigned, KeyMap.get?_filterMap]
  cases c.tests.get? key <;> rfl

theorem entries_unsigned (c : Clause) :
    c.unsigned.tests.entries = c.tests.entries.map fun e => (e.1, e.2.unsigned) := by
  simp [unsigned, KeyMap.filterMap, List.filterMap_eq_map']

theorem ext_get? (tags : a.tag = b.tag) (texts : a.invalid = b.invalid)
    (tests : ∀ key, a.tests.get? key = b.tests.get? key) : a = b := by
  cases a
  cases b
  cases tags
  cases texts
  cases KeyMap.ext_get? tests
  rfl

theorem unsigned_unsigned (c : Clause) : c.unsigned.unsigned = c.unsigned := by
  refine ext_get? rfl rfl fun key => ?_
  simp only [get?_unsigned, Option.map_map, Function.comp_def, Constraint.unsigned_unsigned]

theorem and_unsigned (a b : Clause) : a.unsigned.and b.unsigned = (a.and b).unsigned := by
  refine ext_get? rfl rfl fun key => ?_
  simp only [get?_and, get?_unsigned]
  cases a.tests.get? key <;> cases b.tests.get? key <;> try rfl
  exact congrArg some (Constraint.inter_unsigned _ _)

theorem isContradiction_unsigned (c : Clause) : c.unsigned.isContradiction = c.isContradiction := by
  simp only [isContradiction, KeyMap.values, entries_unsigned, List.map_map, List.any_map,
    Function.comp_def, Constraint.isContradiction_unsigned]

theorem anyNever_unsigned (c : Clause) :
    c.unsigned.tests.values.any Constraint.isNever = c.tests.values.any Constraint.isNever := by
  simp only [KeyMap.values, entries_unsigned, List.map_map, List.any_map, Function.comp_def,
    Constraint.isNever_unsigned]

theorem negateConstraint_unsigned (key : String) (a : Constraint) :
    a.unsigned.negate key = (a.negate key).map unsigned := by
  cases a with
  | always => rfl
  | never => rfl
  | gamut mask => rfl
  | discrete value =>
    simp only [Constraint.unsigned, Constraint.negate]
    split
    · rw [List.map_map]
      rfl
    · rfl
  | number interval =>
    simp only [Constraint.unsigned, Constraint.negate,
      Interval.complement_map Number.order_unsigned Constraint.numberDomain_unsigned, List.map_map]
    rfl
  | ratio interval =>
    simp only [Constraint.unsigned, Constraint.negate, List.map_map]
    rfl

theorem negate_unsigned (c : Clause) : c.unsigned.negate = c.negate.map unsigned := by
  have invalid : c.unsigned.isInvalid = c.isInvalid := rfl
  simp only [negate, invalid, anyNever_unsigned]
  split
  · rfl
  · split
    · rfl
    · simp only [entries_unsigned, List.flatMap_map, List.map_flatMap, negateConstraint_unsigned]

theorem product_unsigned (as bs : List Clause) :
    product (as.map unsigned) (bs.map unsigned) = (product as bs).map unsigned := by
  simp only [product, List.flatMap_map, List.map_flatMap, List.map_map, Function.comp_def,
    and_unsigned]

theorem dropContradictions_unsigned (cs : List Clause) :
    dropContradictions (cs.map unsigned) = (dropContradictions cs).map unsigned := by
  simp only [dropContradictions, List.filter_map, Function.comp_def, isContradiction_unsigned]
  rfl

theorem negateAll_unsigned (cs : List Clause) :
    negateAll (cs.map unsigned) = (negateAll cs).map unsigned := by
  have steps (done : List Clause) :
      (cs.map unsigned).foldl (fun done c => dropContradictions (product done c.negate))
        (done.map unsigned) =
      (cs.foldl (fun done c => dropContradictions (product done c.negate)) done).map unsigned := by
    induction cs generalizing done with
    | nil => rfl
    | cons c rest ih =>
      rw [List.map_cons, List.foldl_cons, List.foldl_cons, negate_unsigned, product_unsigned,
        dropContradictions_unsigned, ih]
  exact steps [top]

theorem simplify_unsigned (c : Clause) : c.unsigned.simplify = c.simplify.unsigned := by
  refine ext_get? rfl rfl fun key => ?_
  simp only [get?_unsigned, simplify, simplifyTests, KeyMap.get?_filterMap]
  cases c.tests.get? key with
  | none => rfl
  | some constraint =>
    simp only [Option.map_some, Option.bind_some, Constraint.simplify_unsigned]
    cases constraint.simplify <;> rfl

theorem falseKeys_unsigned (c : Clause) : c.unsigned.falseKeys = c.falseKeys := by
  refine KeyMap.keys_eq_of_mem_iff fun key => ?_
  simp only [KeyMap.mem_keys, KeyMap.get?_filterMap, get?_unsigned]
  cases c.tests.get? key with
  | none => rfl
  | some constraint =>
    simp only [Option.map_some, Option.bind_some, Constraint.simplify_unsigned,
      Constraint.isNever_unsigned]

theorem covers_unsigned (a b : Clause) : a.unsigned.covers b.unsigned = a.covers b := by
  have tests : (a.unsigned.tests.entries.all fun entry =>
      (b.unsigned.tests.get? entry.1).any fun other => entry.2.covers other) =
      a.tests.entries.all fun entry =>
        (b.tests.get? entry.1).any fun other => entry.2.covers other := by
    simp only [entries_unsigned, List.all_map, Function.comp_def, get?_unsigned, Option.any_map,
      Constraint.covers_unsigned]
  exact congrArg _ tests

end Clause

end MediaQuery
