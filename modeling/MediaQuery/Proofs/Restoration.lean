import MediaQuery.Proofs.DeviceSets
import MediaQuery.Proofs.Negation

set_option autoImplicit false

/- The double negation of one clause in normal form. Negated once, a clause becomes one clause for
each part of each of its constraints. Negated again, the parts of one constraint leave a single
constraint, the one that was there, before those of the next one are reached; so one clause is left
after each feature, and no product grows beyond the values of one feature. -/
namespace MediaQuery

namespace Interval

variable {α β : Type} {level : α → β} {P : α → Prop} {a b c domain : Interval α}
  {lower upper lower' upper' : β ×ₗ Bool}

/-- An interval with given cuts, and with ends among some values. -/
structure HasCuts (P : α → Prop) (level : α → β) (lower upper : β ×ₗ Bool) (a : Interval α) :
    Prop where
  ends : a.EndsIn P
  lower : a.lowerCut level = lower
  upper : a.upperCut level = upper

theorem EndsIn.hasCuts (ends : a.EndsIn P) :
    a.HasCuts P level (a.lowerCut level) (a.upperCut level) := ⟨ends, rfl, rfl⟩

theorem HasCuts.lowerGap (cuts : a.HasCuts P level lower upper) (inside : domain.EndsIn P) :
    (lowerGap a domain).HasCuts P level (domain.lowerCut level) lower :=
  ⟨cuts.ends.lowerGap inside, rfl, cuts.lower⟩

theorem HasCuts.upperGap (cuts : a.HasCuts P level lower upper) (inside : domain.EndsIn P) :
    (upperGap a domain).HasCuts P level upper (domain.upperCut level) :=
  ⟨cuts.ends.upperGap inside, lowerCut_upperGap.trans cuts.upper, rfl⟩

variable [LinearOrder β] [Endpoint α]

section Parts

variable (leveled : Endpoint.Leveled P level)

include leveled

theorem HasCuts.inter?_eq_none (first : a.HasCuts P level lower upper)
    (second : b.HasCuts P level lower' upper') (empty : upper ⊓ upper' ≤ lower ⊔ lower') :
    a.inter? b = none := by
  rw [inter?, if_pos]
  rw [isEmpty_iff_cuts leveled (first.ends.overlap second.ends),
    lowerCut_overlap leveled first.ends second.ends,
    upperCut_overlap leveled first.ends second.ends, first.lower, first.upper, second.lower,
    second.upper]
  exact empty

theorem HasCuts.exists_inter? (first : a.HasCuts P level lower upper)
    (second : b.HasCuts P level lower' upper') (occupied : lower ⊔ lower' < upper ⊓ upper') :
    ∃ p, a.inter? b = some p ∧ p.HasCuts P level (lower ⊔ lower') (upper ⊓ upper') := by
  have cuts : (overlap a b).HasCuts P level (lower ⊔ lower') (upper ⊓ upper') :=
    ⟨first.ends.overlap second.ends,
      by rw [lowerCut_overlap leveled first.ends second.ends, first.lower, second.lower],
      by rw [upperCut_overlap leveled first.ends second.ends, first.upper, second.upper]⟩
  refine ⟨overlap a b, ?_, cuts⟩
  rw [inter?, if_neg]
  rw [isEmpty_iff_cuts leveled cuts.ends, cuts.lower, cuts.upper]
  exact occupied.not_ge

theorem HasCuts.sameAs (first : a.HasCuts P level lower upper)
    (second : b.HasCuts P level lower upper) : a.sameAs b = true :=
  (sameAs_iff_cuts leveled first.ends second.ends).2
    ⟨first.lower.trans second.lower.symm, first.upper.trans second.upper.symm⟩

variable (inside : domain.EndsIn P)

include inside

/-- The complement of what reaches the upper end of the domain is what lies below it. -/
theorem HasCuts.complement_of_top (cuts : a.HasCuts P level lower (domain.upperCut level))
    (above : domain.lowerCut level < lower) (below : lower ≤ domain.upperCut level) :
    ∃ p, a.complement domain = [p] ∧ p.HasCuts P level (domain.lowerCut level) lower := by
  obtain ⟨p, first, kept⟩ := (cuts.lowerGap inside).exists_inter? leveled inside.hasCuts
    (by simpa [above] using above.trans_le below)
  have second := (cuts.upperGap inside).inter?_eq_none leveled inside.hasCuts (by simp)
  refine ⟨p, ?_, by simpa [below] using kept⟩
  rw [complement_eq, first, second]
  rfl

/-- The complement of what reaches the lower end of the domain is what lies above it. -/
theorem HasCuts.complement_of_bottom (cuts : a.HasCuts P level (domain.lowerCut level) upper)
    (above : domain.lowerCut level ≤ upper) (below : upper < domain.upperCut level) :
    ∃ p, a.complement domain = [p] ∧ p.HasCuts P level upper (domain.upperCut level) := by
  have first := (cuts.lowerGap inside).inter?_eq_none leveled inside.hasCuts (by simp)
  obtain ⟨p, second, kept⟩ := (cuts.upperGap inside).exists_inter? leveled inside.hasCuts
    (by simpa [below] using above.trans_lt below)
  refine ⟨p, ?_, by simpa [above] using kept⟩
  rw [complement_eq, first, second]
  rfl

/-- The complement of what reaches neither end of the domain has two parts. -/
theorem HasCuts.complement_of_inner (cuts : a.HasCuts P level lower upper)
    (above : domain.lowerCut level < lower) (occupied : lower ≤ upper)
    (below : upper < domain.upperCut level) :
    ∃ p q, a.complement domain = [p, q] ∧ p.HasCuts P level (domain.lowerCut level) lower ∧
      q.HasCuts P level upper (domain.upperCut level) := by
  have filled := above.trans_le (occupied.trans below.le)
  obtain ⟨p, first, kept⟩ := (cuts.lowerGap inside).exists_inter? leveled inside.hasCuts
    (by simp [above, filled])
  obtain ⟨q, second, kept'⟩ := (cuts.upperGap inside).exists_inter? leveled inside.hasCuts
    (by simp [below, filled])
  refine ⟨p, q, ?_, by simpa [occupied.trans below.le] using kept,
    by simpa [above.le.trans occupied] using kept'⟩
  rw [complement_eq, first, second]
  rfl

theorem IsShare.cuts (share : domain.IsShare a) (closed : domain.IsClosed) (ends : a.EndsIn P) :
    domain.lowerCut level ≤ a.lowerCut level ∧ a.lowerCut level < a.upperCut level ∧
      a.upperCut level ≤ domain.upperCut level ∧
      ¬(a.lowerCut level = domain.lowerCut level ∧ a.upperCut level = domain.upperCut level) := by
  have whole := closed.overlap_eq_left share.above share.below
  have lower := lowerCut_overlap leveled ends inside
  have upper := upperCut_overlap leveled ends inside
  rw [whole, eq_comm] at lower upper
  refine ⟨sup_eq_left.1 lower, ?_, inf_eq_left.1 upper, fun same => ?_⟩
  · rw [← not_le, ← isEmpty_iff_cuts leveled ends, share.occupied]
    exact Bool.false_ne_true
  · have apart := share.short
    rw [(sameAs_iff_cuts leveled ends inside).2 same] at apart
    cases apart

/-- The complement of each part of the complement of an interval is one interval, and together these
are the interval again. -/
theorem IsShare.restored (share : domain.IsShare a) (closed : domain.IsClosed)
    (ends : a.EndsIn P) :
    (∃ p q, a.complement domain = [p] ∧ p.complement domain = [q] ∧ q.sameAs a = true) ∨
      ∃ p p' q q' c, a.complement domain = [p, p'] ∧ p.complement domain = [q] ∧
        p'.complement domain = [q'] ∧ q.inter? q' = some c ∧ c.sameAs a = true := by
  obtain ⟨above, occupied, below, short⟩ := share.cuts leveled inside closed ends
  have cuts : a.HasCuts P level (a.lowerCut level) (a.upperCut level) := ends.hasCuts
  rcases below.eq_or_lt with top | inner
  · have apart := above.lt_of_ne fun bottom => short ⟨bottom.symm, top⟩
    rw [top] at cuts occupied
    obtain ⟨p, first, kept⟩ := cuts.complement_of_top leveled inside apart occupied.le
    obtain ⟨q, second, kept'⟩ := kept.complement_of_bottom leveled inside above occupied
    exact .inl ⟨p, q, first, second, kept'.sameAs leveled cuts⟩
  rcases above.eq_or_lt with bottom | inner'
  · rw [← bottom] at cuts occupied
    obtain ⟨p, first, kept⟩ := cuts.complement_of_bottom leveled inside occupied.le inner
    obtain ⟨q, second, kept'⟩ := kept.complement_of_top leveled inside occupied inner.le
    exact .inl ⟨p, q, first, second, kept'.sameAs leveled cuts⟩
  · obtain ⟨p, p', first, kept, kept'⟩ :=
      cuts.complement_of_inner leveled inside inner' occupied.le inner
    obtain ⟨q, second, left⟩ :=
      kept.complement_of_bottom leveled inside above (occupied.trans_le below)
    obtain ⟨q', third, left'⟩ :=
      kept'.complement_of_top leveled inside (inner'.trans occupied) below
    obtain ⟨c, common, both⟩ := left.exists_inter? leveled left' (by simp [above, below, occupied])
    refine .inr ⟨p, p', q, q', c, first, second, third, common, ?_⟩
    exact HasCuts.sameAs leveled (by simpa [above, below] using both) cuts

end Parts

end Interval

theorem FeatureTable.nodup_values : ∀ spec ∈ FeatureTable.all, spec.kind.values.Nodup := by
  decide +kernel

theorem FeatureTable.nodup_of_kind? {key : String} {values : List DiscreteValue}
    (known : FeatureTable.kind? key = some (.discrete values)) : values.Nodup := by
  obtain ⟨spec, found, kind⟩ := Option.map_eq_some_iff.1 known
  have nodup := nodup_values spec (lookup?_mem found)
  rwa [kind] at nodup

namespace Constraint

/-- The same value or set of bands, or intervals with their ends on the same levels. -/
def IsLevelWith : Constraint → Constraint → Prop
  | .discrete x, .discrete y => x = y
  | .gamut x, .gamut y => x = y
  | .number x, .number y => x.sameAs y = true
  | .ratio x, .ratio y => x.sameAs y = true
  | _, _ => False

/-- The constraints of which one holds exactly where a constraint of a kind fails. -/
def parts (kind : FeatureKind) : Constraint → List Constraint
  | .always | .never => []
  | .discrete value => (kind.values.filter (· ≠ value)).map .discrete
  | .gamut mask => [.gamut mask.complement]
  | .number interval => (interval.complement numberDomain).map .number
  | .ratio interval => (interval.complement ratioDomain).map .ratio

/-- Each constraint of one list with each of another one, as far as they do not contradict. -/
def meets (xs ys : List Constraint) : List Constraint :=
  (xs.flatMap fun x => ys.map x.inter).filter fun z => !z.isContradiction

/-- The constraints that are left where all of a list fail. -/
def excluding (kind : FeatureKind) (done xs : List Constraint) : List Constraint :=
  xs.foldl (fun done x => meets done (x.parts kind)) done

variable {key : String} {kind : FeatureKind} {P : Ratio → Prop} {x y z : Constraint}
  {values : List DiscreteValue}

theorem negate_eq_parts (known : FeatureTable.kind? key = some kind) (suits : x.Suits P kind)
    (possible : x.isNever = false) : x.negate key = (x.parts kind).map (Clause.single key) := by
  cases suits with
  | always => rfl
  | never => cases possible
  | discrete listed =>
    rw [FeatureTable.kind?] at known
    simp only [negate, known, parts, FeatureKind.values, List.map_map]
    rfl
  | gamut => rfl
  | number ends => simp [negate, parts]
  | ratio ends => simp [negate, parts]

theorem ne_always_of_mem_parts (mem : z ∈ x.parts kind) : z ≠ .always := by
  rintro rfl
  cases x <;> simp [parts] at mem

theorem meets_cons (x : Constraint) (xs ys : List Constraint) :
    meets (x :: xs) ys = meets [x] ys ++ meets xs ys := by
  simp [meets]

/-- Of all values but one, a listed value meets only itself. -/
theorem meets_discrete (nodup : values.Nodup) {value : DiscreteValue} (listed : value ∈ values)
    (other : DiscreteValue) :
    meets [.discrete value] ((Constraint.discrete other).parts (.discrete values)) =
      if value ≠ other then [.discrete value] else [] := by
  have met : (fun z => !z.isContradiction) ∘
      (fun w => (Constraint.discrete value).inter (.discrete w)) = (· == value) := by
    funext w
    by_cases same : w = value
    · simp [inter_discrete, same, isContradiction]
    · simp [inter_discrete, same, Ne.symm same, isContradiction]
  have single : meets [.discrete value] ((Constraint.discrete other).parts (.discrete values)) =
      (List.replicate ((values.filter (· ≠ other)).count value) value).map fun w =>
        (Constraint.discrete value).inter (.discrete w) := by
    rw [← List.filter_beq, ← met, ← List.filter_map]
    simp [meets, parts, FeatureKind.values, Function.comp_def]
  rw [single]
  by_cases same : value = other
  · rw [if_neg (by simpa using same), List.count_eq_zero.2 (by simp [same])]
    rfl
  · rw [if_pos same, List.count_eq_one_of_mem (nodup.filter _) (by simp [listed, same])]
    simp [inter_discrete]

theorem meets_map_discrete (nodup : values.Nodup) {left : List DiscreteValue}
    (sub : ∀ value ∈ left, value ∈ values) (other : DiscreteValue) :
    meets (left.map .discrete) ((Constraint.discrete other).parts (.discrete values)) =
      (left.filter (· ≠ other)).map .discrete := by
  induction left with
  | nil => rfl
  | cons value left ih =>
    obtain ⟨listed, sub⟩ := List.forall_mem_cons.1 sub
    rw [List.map_cons, meets_cons, meets_discrete nodup listed, ih sub]
    by_cases same : value = other <;> simp [same]

/-- Without one value after another, the others are left. -/
theorem excluding_map_discrete (nodup : values.Nodup) {left : List DiscreteValue}
    (sub : ∀ value ∈ left, value ∈ values) (others : List DiscreteValue) :
    excluding (.discrete values) (left.map .discrete) (others.map .discrete) =
      (left.filter (· ∉ others)).map .discrete := by
  induction others generalizing left with
  | nil => simp [excluding]
  | cons other others ih =>
    rw [List.map_cons, excluding, List.foldl_cons, meets_map_discrete nodup sub]
    refine (ih fun value mem => sub value (List.mem_filter.1 mem).1).trans ?_
    rw [List.filter_filter]
    congr 1
    refine List.filter_congr fun value _ => ?_
    simp [Bool.and_comm]

theorem always_meets {ys : List Constraint} (sound : ∀ y ∈ ys, y.isContradiction = false) :
    meets [.always] ys = ys := by
  have same : ys.map Constraint.always.inter = ys := by
    simp [List.map_congr_left fun y _ => always_inter y]
  rw [meets, List.flatMap_singleton, same]
  exact List.filter_eq_self.2 fun y mem => by simp [sound y mem]

/-- Without all values but one, this one is left. -/
theorem excluding_parts_discrete (known : FeatureTable.kind? key = some (.discrete values))
    {value : DiscreteValue} (listed : value ∈ values) :
    excluding (.discrete values) [.always] ((discrete value).parts (.discrete values)) =
      [.discrete value] := by
  have nodup := FeatureTable.nodup_of_kind? known
  have begun (other : DiscreteValue) :
      meets [.always] ((discrete other).parts (.discrete values)) =
        meets (values.map .discrete) ((discrete other).parts (.discrete values)) := by
    rw [meets_map_discrete nodup fun _ mem => mem]
    refine always_meets fun y mem => ?_
    obtain ⟨w, _, rfl⟩ := List.mem_map.1 mem
    rfl
  have left : values.filter (· ∉ values.filter (· ≠ value)) = [value] := by
    have single : values.filter (· ∉ values.filter (· ≠ value)) = values.filter (· == value) :=
      List.filter_congr fun w mem => by simp [mem, beq_eq_decide]
    rw [single, List.filter_beq, List.count_eq_one_of_mem nodup listed]
    rfl
  have all := excluding_map_discrete nodup (fun _ mem => mem) (values.filter (· ≠ value))
  rw [left] at all
  refine Eq.trans ?_ all
  change excluding _ _ ((values.filter (· ≠ value)).map .discrete) = _
  obtain ⟨other, mem, ne⟩ := FeatureTable.exists_other known value
  cases others : values.filter (· ≠ value) with
  | nil =>
    have inside : other ∈ values.filter (· ≠ value) := by simp [mem, ne]
    rw [others] at inside
    cases inside
  | cons w ws => rw [List.map_cons, excluding, excluding, List.foldl_cons, List.foldl_cons, begun]

/-- Excluding the parts of a constraint in normal form one after another leaves the constraint. -/
theorem IsNormal.exists_excluding_parts (normal : x.IsNormal) (total : Endpoint.TotalOn P)
    (ends : ratioDomain.EndsIn P) (known : FeatureTable.kind? key = some kind)
    (suits : x.Suits P kind) :
    ∃ y, excluding kind [.always] (x.parts kind) = [y] ∧ y.IsLevelWith x := by
  cases suits with
  | always | never => exact normal.elim
  | discrete listed => exact ⟨_, excluding_parts_discrete known listed, rfl⟩
  | @gamut mask =>
    have back : mask.complement.complement = mask := by simp [GamutMask.complement]
    refine ⟨.gamut mask, ?_, rfl⟩
    simp only [parts, excluding, List.foldl_cons, List.foldl_nil, back]
    exact always_meets (by simpa [isContradiction] using normal.1)
  | @number _ interval inside =>
    have closed := Interval.isClosed_numberDomain
    rcases Interval.IsShare.restored Number.leveled numberDomain_endsIn normal closed inside with
      ⟨p, q, first, second, level⟩ | ⟨p, p', q, q', c, first, second, third, common, level⟩
    · refine ⟨.number q, ?_, level⟩
      simp [parts, excluding, first, second, meets, isContradiction]
    · refine ⟨.number c, ?_, level⟩
      simp [parts, excluding, first, second, third, meets, isContradiction, inter_number, common,
        ofNumbers?]
  | @ratio interval inside =>
    obtain ⟨β, _, level, leveled⟩ := total.exists_level
    have closed := Interval.isClosed_ratioDomain
    rcases Interval.IsShare.restored leveled ends normal closed inside with
      ⟨p, q, first, second, level⟩ | ⟨p, p', q, q', c, first, second, third, common, level⟩
    · refine ⟨.ratio q, ?_, level⟩
      simp [parts, excluding, first, second, meets, isContradiction]
    · refine ⟨.ratio c, ?_, level⟩
      simp [parts, excluding, first, second, third, meets, isContradiction, inter_ratio, common,
        ofRatios?]

theorem IsLevelWith.isContradiction (level : y.IsLevelWith x) (normal : x.IsNormal) :
    y.isContradiction = false := by
  cases y with
  | never => cases x <;> exact level.elim
  | gamut mask =>
    cases x with
    | gamut other =>
      cases level
      exact normal.1
    | _ => exact level.elim
  | _ => rfl

theorem IsLevelWith.ne_always (level : y.IsLevelWith x) : y ≠ .always := by
  rintro rfl
  cases x <;> exact level

theorem IsNormal.suits_parts (normal : x.IsNormal) (ends : ratioDomain.EndsIn P)
    (suits : x.Suits P kind) {z : Constraint} (mem : z ∈ x.parts kind) :
    z.Suits P kind ∧ z.isContradiction = false := by
  cases suits with
  | always | never => exact normal.elim
  | discrete listed =>
    obtain ⟨other, inside, rfl⟩ := List.mem_map.1 mem
    exact ⟨.discrete (List.mem_filter.1 inside).1, rfl⟩
  | @gamut mask =>
    have full := normal.2
    rw [List.mem_singleton.1 mem]
    refine ⟨.gamut, ?_⟩
    simp only [GamutMask.isFull, isContradiction, GamutMask.isEmpty, GamutMask.complement,
      Bool.not_not] at full ⊢
    exact full
  | number inside =>
    obtain ⟨part, gap, rfl⟩ := List.mem_map.1 mem
    exact ⟨.number (inside.complement numberDomain_endsIn gap), rfl⟩
  | ratio inside =>
    obtain ⟨part, gap, rfl⟩ := List.mem_map.1 mem
    exact ⟨.ratio (inside.complement ends gap), rfl⟩

theorem IsNormal.isNever_eq_false (normal : x.IsNormal) : x.isNever = false := by
  cases x with
  | never => exact normal.elim
  | _ => rfl

theorem isNever_eq_false (sound : x.isContradiction = false) : x.isNever = false := by
  cases x with
  | never => cases sound
  | _ => rfl

theorem inter_ne_always (asks : y ≠ .always) : y.inter z ≠ .always := by
  cases y with
  | always => exact absurd rfl asks
  | never => exact nofun
  | discrete v =>
    cases z with
    | discrete w =>
      rw [inter_discrete]
      split <;> exact nofun
    | _ => exact nofun
  | gamut mask => cases z <;> exact nofun
  | number interval =>
    cases z with
    | number other =>
      rw [inter_number]
      cases interval.inter? other <;> exact nofun
    | _ => exact nofun
  | ratio interval =>
    cases z with
    | ratio other =>
      rw [inter_ratio]
      cases interval.inter? other <;> exact nofun
    | _ => exact nofun

end Constraint

namespace Clause

variable {key : String} {kind : FeatureKind} {P : Ratio → Prop} {x y z : Constraint}
  {c d r : Clause} {xs ys : List Constraint}

/-- A clause with a further constraint, unless this one asks for nothing. -/
def extend (d : Clause) (key : String) : Constraint → Clause
  | .always => d
  | x => d.and (single key x)

theorem extend_of_ne (asks : x ≠ .always) : d.extend key x = d.and (single key x) := by
  cases x with
  | always => exact absurd rfl asks
  | _ => rfl

theorem get?_and_single (other : String) : (d.and (single key x)).tests.get? other =
    if other = key then some ((d.tests.get? key).elim x (·.inter x)) else d.tests.get? other := by
  rw [get?_and, single, KeyMap.get?_single]
  split
  · rename_i same
    rw [same]
    cases d.tests.get? key <;> rfl
  · cases d.tests.get? other <;> rfl

/-- A readable clause that does not contradict itself and asks nothing of a feature. -/
structure IsOpen (key : String) (d : Clause) : Prop where
  readable : d.invalid = []
  sound : d.isContradiction = false
  lacks : d.tests.get? key = none

theorem IsOpen.extend_and (opened : d.IsOpen key) (asks : z ≠ .always) :
    (d.extend key y).and (single key z) = d.extend key (y.inter z) := by
  by_cases always : y = .always
  · rw [always, Constraint.always_inter, extend_of_ne asks]
    rfl
  · rw [extend_of_ne always, extend_of_ne (Constraint.inter_ne_always always)]
    refine ext_get? ?_ ?_ fun other => ?_
    · simp [Clause.and, single]
    · simp [Clause.and, single]
    · simp only [get?_and_single, opened.lacks]
      split <;> simp

/-- A further constraint on another feature brings no contradiction but its own. -/
theorem IsOpen.isContradiction_and_single (opened : d.IsOpen key) (x : Constraint) :
    (d.and (single key x)).isContradiction = x.isContradiction := by
  rw [Bool.eq_iff_iff, isContradiction, KeyMap.any_values]
  constructor
  · rintro ⟨other, y, found, never⟩
    rw [get?_and_single, opened.lacks] at found
    split at found
    · cases found
      exact never
    · have sound := opened.sound
      rw [isContradiction, KeyMap.any_values.2 ⟨other, y, found, never⟩] at sound
      cases sound
  · intro never
    exact ⟨key, x, by simp [get?_and_single, opened.lacks], never⟩

theorem IsOpen.isContradiction_extend (opened : d.IsOpen key) (x : Constraint) :
    (d.extend key x).isContradiction = x.isContradiction := by
  by_cases always : x = .always
  · rw [always]
    exact opened.sound
  · rw [extend_of_ne always, opened.isContradiction_and_single]

theorem IsOpen.isInvalid_extend (opened : d.IsOpen key) (x : Constraint) :
    (d.extend key x).isInvalid = false := by
  by_cases always : x = .always
  · rw [always]
    simp [extend, isInvalid, opened.readable]
  · rw [extend_of_ne always, isInvalid_and]
    simp [isInvalid, single, opened.readable]

theorem negate_single (possible : x.isNever = false) :
    (single key x).negate = x.negate key := by
  simp [negate, single, isInvalid, KeyMap.single, KeyMap.values, possible]

/-- Negating one more part changes the constraints on its feature alone. -/
theorem IsOpen.negate_step (opened : d.IsOpen key)
    (known : FeatureTable.kind? key = some kind) (suits : x.Suits P kind)
    (possible : x.isNever = false) (ys : List Constraint) :
    dropContradictions (product (ys.map (d.extend key)) (single key x).negate) =
      (Constraint.meets ys (x.parts kind)).map (d.extend key) := by
  have products : product (ys.map (d.extend key)) (single key x).negate =
      (ys.flatMap fun y => (x.parts kind).map y.inter).map (d.extend key) := by
    rw [negate_single possible, Constraint.negate_eq_parts known suits possible, product,
      List.flatMap_map, List.map_flatMap]
    refine List.flatMap_congr fun y _ => ?_
    rw [List.map_map, List.map_map]
    exact List.map_congr_left fun z mem =>
      opened.extend_and (Constraint.ne_always_of_mem_parts mem)
  rw [products, dropContradictions, List.filter_map, Constraint.meets]
  congr 2
  funext z
  simp [opened.isContradiction_extend, opened.isInvalid_extend]

theorem IsOpen.negate_foldl (opened : d.IsOpen key)
    (known : FeatureTable.kind? key = some kind)
    (suits : ∀ x ∈ xs, x.Suits P kind ∧ x.isContradiction = false) (ys : List Constraint) :
    (xs.map (single key)).foldl (fun done c => dropContradictions (product done c.negate))
        (ys.map (d.extend key)) =
      (Constraint.excluding kind ys xs).map (d.extend key) := by
  induction xs generalizing ys with
  | nil => rfl
  | cons x xs ih =>
    obtain ⟨⟨first, sound⟩, rest⟩ := List.forall_mem_cons.1 suits
    rw [List.map_cons, List.foldl_cons,
      opened.negate_step known first (Constraint.isNever_eq_false sound), ih rest]
    rfl

/-- The parts of one constraint in normal form leave one clause, with the constraint in it. -/
theorem IsOpen.exists_foldl_negate (opened : d.IsOpen key) (normal : x.IsNormal)
    (total : Endpoint.TotalOn P) (ends : ratioDomain.EndsIn P)
    (known : FeatureTable.kind? key = some kind) (suits : x.Suits P kind) :
    ∃ y : Constraint, y.IsLevelWith x ∧
      (x.negate key).foldl (fun done c => dropContradictions (product done c.negate)) [d] =
        [d.and (single key y)] := by
  have possible := normal.isNever_eq_false
  obtain ⟨y, left, level⟩ := normal.exists_excluding_parts total ends known suits
  refine ⟨y, level, ?_⟩
  have run := opened.negate_foldl known (fun z mem => normal.suits_parts ends suits mem) [.always]
  rw [left, List.map_singleton, List.map_singleton, extend_of_ne level.ne_always] at run
  rw [Constraint.negate_eq_parts known suits possible]
  exact run

/-- A clause after some constraints are put into it, each with its ends on the same levels. -/
structure Restores (entries : List (String × Constraint)) (d r : Clause) : Prop where
  tag : r.tag = d.tag
  readable : r.invalid = []
  others : ∀ key, (∀ e ∈ entries, e.1 ≠ key) → r.tests.get? key = d.tests.get? key
  restored : ∀ e ∈ entries, ∃ y, r.tests.get? e.1 = some y ∧ y.IsLevelWith e.2

variable {ratios : String → Ratio → Prop} {entries : List (String × Constraint)}

/-- The parts of all constraints leave one clause, with all of the constraints in it. -/
theorem exists_restores (ordered : Ratio.Ordered ratios)
    (sorted : entries.Pairwise fun e f => e.1 < f.1)
    (suits : ∀ e ∈ entries, ∃ kind, FeatureTable.kind? e.1 = some kind ∧
      e.2.Suits (ratios e.1) kind)
    (normal : ∀ e ∈ entries, e.2.IsNormal) (opened : ∀ e ∈ entries, d.IsOpen e.1)
    (readable : d.invalid = []) :
    ∃ r, (entries.flatMap fun e => e.2.negate e.1).foldl
        (fun done c => dropContradictions (product done c.negate)) [d] = [r] ∧
      Restores entries d r := by
  induction entries generalizing d with
  | nil => exact ⟨d, rfl, rfl, readable, fun _ _ => rfl, nofun⟩
  | cons e rest ih =>
    obtain ⟨key, x⟩ := e
    obtain ⟨lower, sorted⟩ := List.pairwise_cons.1 sorted
    obtain ⟨⟨kind, known, here⟩, suits⟩ := List.forall_mem_cons.1 suits
    obtain ⟨within, normal⟩ := List.forall_mem_cons.1 normal
    obtain ⟨first, opened⟩ := List.forall_mem_cons.1 opened
    obtain ⟨y, level, run⟩ :=
      first.exists_foldl_negate within (ordered.total key) (ordered.ends key) known here
    have apart (f : String × Constraint) (mem : f ∈ rest) : f.1 ≠ key := by
      intro same
      have above := lower f mem
      rw [same] at above
      exact String.lt_irrefl _ above
    have readable' : (d.and (single key y)).invalid = [] := by simp [Clause.and, single, readable]
    have opened' (f : String × Constraint) (mem : f ∈ rest) :
        (d.and (single key y)).IsOpen f.1 := by
      refine ⟨readable', ?_, ?_⟩
      · rw [first.isContradiction_and_single, level.isContradiction within]
      · rw [get?_and_single, if_neg (apart f mem), (opened f mem).lacks]
    obtain ⟨r, left, kept⟩ := ih sorted suits normal opened' readable'
    refine ⟨r, ?_, kept.tag.trans ?_, kept.readable, fun other absent => ?_, ?_⟩
    · rw [List.flatMap_cons, List.foldl_append, run, left]
    · simp [Clause.and, single]
    · obtain ⟨here, absent⟩ := List.forall_mem_cons.1 absent
      rw [kept.others other absent, get?_and_single, if_neg (Ne.symm here)]
    · refine List.forall_mem_cons.2 ⟨⟨y, ?_, level⟩, kept.restored⟩
      rw [kept.others key apart, get?_and_single, if_pos rfl, first.lacks]
      rfl

/-- Negating a clause in normal form drops none of its parts. -/
theorem negateAll_singleton (ordered : Ratio.Ordered ratios) (plain : c.Plain ratios)
    (normal : c.IsNormal) :
    negateAll [c] = c.tests.entries.flatMap fun e => e.2.negate e.1 := by
  have noNever : c.tests.values.any Constraint.isNever = false := by
    rw [← Bool.not_eq_true, KeyMap.any_values]
    rintro ⟨key, x, found, never⟩
    have within := normal.tests key x found
    cases x <;> cases never
    exact within
  have parts : c.negate = c.tests.entries.flatMap fun e => e.2.negate e.1 := by
    rw [negate, plain.readable, noNever]
    rfl
  have part (p : Clause) (mem : p ∈ c.negate) :
      ∃ key z, p = single key z ∧ z.isContradiction = false := by
    rw [parts] at mem
    obtain ⟨⟨key, x⟩, entry, mem⟩ := List.mem_flatMap.1 mem
    have found := KeyMap.mem_entries.1 entry
    obtain ⟨kind, known, suits⟩ := plain.suits key x found
    have within := normal.tests key x found
    rw [Constraint.negate_eq_parts known suits within.isNever_eq_false] at mem
    obtain ⟨z, inside, rfl⟩ := List.mem_map.1 mem
    exact ⟨key, z, rfl, (within.suits_parts (ordered.ends key) suits inside).2⟩
  have start : product [top] c.negate = c.negate := by
    rw [product, List.flatMap_singleton]
    refine (List.map_congr_left fun p mem => ?_).trans (List.map_id _)
    obtain ⟨key, z, rfl, _⟩ := part p mem
    exact ext_get? rfl rfl fun other => get?_and top _ other
  rw [negateAll, List.foldl_cons, List.foldl_nil, start, ← parts]
  refine List.filter_eq_self.2 fun p mem => ?_
  obtain ⟨key, z, rfl, sound⟩ := part p mem
  simp [isContradiction, single, KeyMap.single, KeyMap.values, sound]

/-- Negating one clause in normal form twice gives it back: one clause that asks the same of the
same features. -/
theorem negateAll_negateAll_singleton (ordered : Ratio.Ordered ratios) (plain : c.Plain ratios)
    (normal : c.IsNormal) :
    ∃ r, negateAll (negateAll [c]) = [r] ∧ r.tag = none ∧ r.invalid = [] ∧
      r.tests.keys = c.tests.keys ∧
      ∀ key x, c.tests.get? key = some x →
        ∃ y, r.tests.get? key = some y ∧ y.IsLevelWith x := by
  have suits (e : String × Constraint) (mem : e ∈ c.tests.entries) :
      ∃ kind, FeatureTable.kind? e.1 = some kind ∧ e.2.Suits (ratios e.1) kind :=
    plain.suits e.1 e.2 (KeyMap.mem_entries.1 mem)
  obtain ⟨r, run, kept⟩ := exists_restores ordered c.tests.sorted suits
    (fun e mem => normal.tests e.1 e.2 (KeyMap.mem_entries.1 mem))
    (fun e mem => (⟨rfl, rfl, rfl⟩ : top.IsOpen e.1)) rfl
  refine ⟨r, ?_, kept.tag, kept.readable, ?_, fun key x found =>
    kept.restored (key, x) (KeyMap.mem_entries.2 found)⟩
  · rw [negateAll_singleton ordered plain normal]
    exact run
  · refine KeyMap.keys_eq_of_mem_iff fun key => ?_
    rw [KeyMap.mem_keys, KeyMap.mem_keys]
    cases found : c.tests.get? key with
    | none =>
      have absent : r.tests.get? key = none :=
        kept.others key fun e mem same => by
          have here := KeyMap.mem_entries.1 (show (e.1, e.2) ∈ c.tests.entries from mem)
          rw [same, found] at here
          cases here
      rw [absent]
    | some x =>
      obtain ⟨y, left, _⟩ := kept.restored (key, x) (KeyMap.mem_entries.2 found)
      rw [left]
      rfl

/-- `(pointer: coarse) and (hover: none) and (0px < width < 600px) and (aspect-ratio > 1/1)` -/
def tablet : Clause :=
  (single "pointer" (.discrete (.keyword "coarse"))).and (handheld.and landscape)

theorem plain_tablet : tablet.Plain fun _ r => r ∈ screenRatios :=
  (plain_single (by decide +kernel : FeatureTable.kind? "pointer" =
      some (.discrete [.keyword "none", .keyword "coarse", .keyword "fine"]))
    (.discrete (by simp))).and (plain_handheld.and plain_landscape)

theorem isNormal_tablet : tablet.IsNormal where
  readable := rfl
  tagged := nofun
  tests key x found := by
    have entry : (key, x) ∈
        [("aspect-ratio", Constraint.ratio ⟨false, ⟨1, 1⟩, ratioDomain.max, true⟩),
          ("hover", .discrete (.keyword "none")), ("pointer", .discrete (.keyword "coarse")),
          ("width", .number ⟨false, 0, 600, false⟩)] := KeyMap.mem_entries.2 found
    simp only [List.mem_cons, Prod.mk.injEq, List.not_mem_nil, or_false] at entry
    rcases entry with ⟨rfl, rfl⟩ | ⟨rfl, rfl⟩ | ⟨rfl, rfl⟩ | ⟨rfl, rfl⟩
    · exact ⟨by decide +kernel, by decide +kernel, by decide +kernel, by decide +kernel⟩
    · trivial
    · trivial
    · exact ⟨by decide +kernel, by decide +kernel, by decide +kernel, by decide +kernel⟩

/-- What is asked of a tablet is asked again after two negations, with the same keyword for the
pointer. -/
theorem negateAll_negateAll_singleton_tablet :
    ∃ r, negateAll (negateAll [tablet]) = [r] ∧ r.tests.keys = tablet.tests.keys ∧
      r.tests.get? "pointer" = some (.discrete (.keyword "coarse")) := by
  obtain ⟨r, twice, _, _, keys, restored⟩ :=
    negateAll_negateAll_singleton ordered_screenRatios plain_tablet isNormal_tablet
  obtain ⟨y, found, level⟩ := restored "pointer" (.discrete (.keyword "coarse")) rfl
  cases y <;> cases level
  exact ⟨r, twice, keys, found⟩

end Clause

end MediaQuery
