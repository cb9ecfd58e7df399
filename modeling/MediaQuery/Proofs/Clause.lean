import MediaQuery.Proofs.Constraint

set_option autoImplicit false

namespace MediaQuery

namespace Clause

variable {d : Device} {key : String} {c : Clause}

theorem holds_iff : c.holds d = true ↔
    c.isInvalid = false ∧ c.tag.all (·.holds d.mediaType) = true ∧
      ∀ key, (c.tests.get? key).all (·.holds d key) = true := by
  rw [holds, Bool.and_eq_true, Bool.and_eq_true, Bool.not_eq_true', KeyMap.all_entries, and_assoc]
  simp only [Option.all_eq_true]

@[simp] theorem holds_top : top.holds d = true := rfl

@[simp] theorem holds_single (constraint : Constraint) :
    (single key constraint).holds d = constraint.holds d key := by
  simp [holds, single, KeyMap.single, isInvalid]

end Clause

namespace Constraint

variable {d : Device} {ratios : String → Ratio → Prop} {key : String} {kind : FeatureKind}
  {a : Constraint}

/-- One of the constraints of a negation holds exactly where the constraint fails. -/
theorem anyHolds_negate (sound : d.Sound ratios) (known : FeatureTable.kind? key = some kind)
    (suits : a.Suits (ratios key) kind) : Clause.anyHolds d (a.negate key) = !a.holds d key := by
  cases suits with
  | always => rfl
  | never => rfl
  | @discrete values value listed =>
    obtain ⟨actual, legal, found⟩ := Device.answers_of_kind? (d := d) known
    rw [FeatureTable.kind?] at known
    rw [holds_discrete, found, negate, known, Bool.eq_iff_iff]
    simp only [Clause.anyHolds, List.any_map, List.any_filter, List.any_eq_true,
      Function.comp_apply, Clause.holds_single, holds_discrete, found, Bool.and_eq_true,
      decide_eq_true_iff, Bool.not_eq_true', beq_iff_eq, beq_eq_false_iff_ne, Option.some.injEq]
    constructor
    · rintro ⟨other, _, ne, rfl⟩
      simpa using ne
    · intro ne
      exact ⟨actual, legal, by simpa using ne, rfl⟩
  | @gamut mask =>
    obtain ⟨band, found⟩ := Device.answers_of_kind? (d := d) known
    simp [negate, Clause.anyHolds, holds_gamut found, GamutMask.contains_complement]
  | @number _ interval ends =>
    obtain ⟨v, found, placed⟩ := sound.number known
    have gaps := Interval.any_contains_complement placed.total ends placed.ends placed.among
    rw [placed.inside, Bool.true_and] at gaps
    rw [holds_number found, ← gaps]
    simp [negate, Clause.anyHolds, List.any_map, Function.comp_def, holds_number found]
  | @ratio interval ends =>
    obtain ⟨v, found, placed⟩ := sound.ratio known
    have gaps := Interval.any_contains_complement placed.total ends placed.ends placed.among
    rw [placed.inside, Bool.true_and] at gaps
    rw [holds_ratio found, ← gaps]
    simp [negate, Clause.anyHolds, List.any_map, Function.comp_def, holds_ratio found]

end Constraint

namespace Clause

/-- Every constraint is of the kind of its feature, with ends that are numbers or such ratios. -/
def Suits (ratios : String → Ratio → Prop) (c : Clause) : Prop :=
  ∀ key constraint, c.tests.get? key = some constraint →
    ∃ kind, FeatureTable.kind? key = some kind ∧ constraint.Suits (ratios key) kind

theorem Suits.of_kind {ratios : String → Ratio → Prop} {c : Clause} (suits : c.Suits ratios)
    {key : String} {kind : FeatureKind} {constraint : Constraint}
    (known : FeatureTable.kind? key = some kind)
    (found : c.tests.get? key = some constraint) : constraint.Suits (ratios key) kind := by
  obtain ⟨kind', known', suits⟩ := suits key constraint found
  cases known.symm.trans known'
  exact suits

/-- A clause as conditions give it: understood, and for every medium. -/
structure Plain (ratios : String → Ratio → Prop) (c : Clause) : Prop where
  readable : c.isInvalid = false
  untagged : c.tag = none
  suits : c.Suits ratios

section Conjunction

variable {d : Device} {ratios : String → Ratio → Prop} {a b c : Clause} {as bs cs : List Clause}

theorem plain_top : top.Plain ratios := ⟨rfl, rfl, fun _ _ found => by cases found⟩

theorem plain_single {key : String} {kind : FeatureKind} {constraint : Constraint}
    (known : FeatureTable.kind? key = some kind)
    (suits : constraint.Suits (ratios key) kind) : (single key constraint).Plain ratios := by
  refine ⟨rfl, rfl, fun j other found => ?_⟩
  rw [single, KeyMap.get?_single] at found
  split at found
  · rename_i same
    cases found
    subst same
    exact ⟨kind, known, suits⟩
  · cases found

theorem Plain.holds_iff (plain : c.Plain ratios) :
    c.holds d = true ↔ ∀ key, (c.tests.get? key).all (·.holds d key) = true := by
  rw [Clause.holds_iff, plain.readable, plain.untagged]
  simp

theorem get?_and (a b : Clause) (key : String) :
    (a.and b).tests.get? key =
      KeyMap.joined Constraint.inter (a.tests.get? key) (b.tests.get? key) :=
  KeyMap.get?_merge Constraint.inter a.tests b.tests key

theorem Suits.and (left : a.Suits ratios) (right : b.Suits ratios) : (a.and b).Suits ratios := by
  intro key constraint found
  rw [get?_and] at found
  cases first : a.tests.get? key with
  | none =>
    rw [first] at found
    exact right key constraint found
  | some x =>
    obtain ⟨kind, known, hx⟩ := left key x first
    cases second : b.tests.get? key with
    | none =>
      rw [first, second] at found
      cases found
      exact ⟨kind, known, hx⟩
    | some y =>
      rw [first, second] at found
      cases found
      obtain ⟨kind', known', hy⟩ := right key y second
      cases known.symm.trans known'
      exact ⟨kind, known, hx.inter hy⟩

theorem Plain.and (left : a.Plain ratios) (right : b.Plain ratios) : (a.and b).Plain ratios where
  readable := by rw [isInvalid_and, left.readable, right.readable, Bool.or_self]
  untagged := by simp [Clause.and, left.untagged, right.untagged]
  suits := left.suits.and right.suits

/-- On each feature, both clauses at once. -/
private theorem met_and (sound : d.Sound ratios) (left : a.Suits ratios) (right : b.Suits ratios)
    (key : String) :
    ((a.and b).tests.get? key).all (·.holds d key) =
      ((a.tests.get? key).all (·.holds d key) && (b.tests.get? key).all (·.holds d key)) := by
  rw [get?_and]
  cases first : a.tests.get? key with
  | none => rfl
  | some x =>
    cases second : b.tests.get? key with
    | none => simp [KeyMap.joined]
    | some y =>
      obtain ⟨kind, known, hx⟩ := left key x first
      obtain ⟨kind', known', hy⟩ := right key y second
      cases known.symm.trans known'
      exact Constraint.holds_inter sound known hx hy

theorem holds_and (sound : d.Sound ratios) (left : a.Plain ratios) (right : b.Plain ratios) :
    (a.and b).holds d = (a.holds d && b.holds d) := by
  rw [Bool.eq_iff_iff, Bool.and_eq_true, (left.and right).holds_iff, left.holds_iff,
    right.holds_iff, ← forall_and]
  refine forall_congr' fun key => ?_
  rw [met_and sound left.suits right.suits, Bool.and_eq_true]

theorem anyHolds_append : anyHolds d (as ++ bs) = (anyHolds d as || anyHolds d bs) :=
  List.any_append

theorem plain_product (left : ∀ a ∈ as, a.Plain ratios) (right : ∀ b ∈ bs, b.Plain ratios) :
    ∀ c ∈ product as bs, c.Plain ratios := by
  intro c mem
  obtain ⟨a, ha, b, hb, rfl⟩ := mem_product.1 mem
  exact (left a ha).and (right b hb)

/-- A product of disjunctions is their conjunction. -/
theorem anyHolds_product (sound : d.Sound ratios) (left : ∀ a ∈ as, a.Plain ratios)
    (right : ∀ b ∈ bs, b.Plain ratios) :
    anyHolds d (product as bs) = (anyHolds d as && anyHolds d bs) := by
  rw [Bool.eq_iff_iff, Bool.and_eq_true]
  simp only [anyHolds, List.any_eq_true, mem_product]
  constructor
  · rintro ⟨_, ⟨a, ha, b, hb, rfl⟩, holds⟩
    rw [holds_and sound (left a ha) (right b hb), Bool.and_eq_true] at holds
    exact ⟨⟨a, ha, holds.1⟩, b, hb, holds.2⟩
  · rintro ⟨⟨a, ha, first⟩, b, hb, second⟩
    refine ⟨a.and b, ⟨a, ha, b, hb, rfl⟩, ?_⟩
    rw [holds_and sound (left a ha) (right b hb), first, second]
    rfl

end Conjunction

section Negation

variable {d : Device} {ratios : String → Ratio → Prop} {c : Clause} {cs done : List Clause}

/-- The clauses of a negation, where no constraint is impossible on its face. -/
theorem mem_negate (readable : c.isInvalid = false) {part : Clause}
    (mem : part ∈ c.negate) : part = top ∨ ∃ key constraint,
      c.tests.get? key = some constraint ∧ part ∈ constraint.negate key := by
  rw [negate, readable] at mem
  simp only [Bool.false_eq_true, if_false] at mem
  split at mem
  · exact .inl (List.mem_singleton.1 mem)
  · obtain ⟨⟨key, constraint⟩, entry, part⟩ := List.mem_flatMap.1 mem
    exact .inr ⟨key, constraint, KeyMap.mem_entries.1 entry, part⟩

theorem plain_negate (sound : d.Sound ratios) (plain : c.Plain ratios) :
    ∀ part ∈ c.negate, part.Plain ratios := by
  intro part mem
  rcases mem_negate plain.readable mem with rfl | ⟨key, constraint, found, mem⟩
  · exact plain_top
  · obtain ⟨kind, known, suits⟩ := plain.suits key constraint found
    rcases Constraint.suits_negate sound known suits mem with rfl | ⟨other, suits', rfl⟩
    · exact plain_top
    · exact plain_single known suits'

theorem anyHolds_negate (sound : d.Sound ratios) (plain : c.Plain ratios) :
    anyHolds d c.negate = !c.holds d := by
  have fails : c.holds d = false ↔
      ∃ key constraint, c.tests.get? key = some constraint ∧ constraint.holds d key = false := by
    rw [← Bool.not_eq_true, plain.holds_iff]
    simp [Option.all_eq_true]
  rw [negate, plain.readable]
  simp only [Bool.false_eq_true, if_false]
  split
  · rename_i never
    obtain ⟨key, constraint, found, never⟩ := KeyMap.any_values.1 never
    cases constraint <;> cases never
    rw [fails.2 ⟨key, .never, found, rfl⟩]
    rfl
  · rw [Bool.eq_iff_iff, Bool.not_eq_true', fails]
    simp only [anyHolds, List.any_flatMap, List.any_eq_true, Prod.exists, KeyMap.mem_entries]
    refine exists_congr fun key => exists_congr fun constraint => and_congr_right fun found => ?_
    obtain ⟨kind, known, suits⟩ := plain.suits key constraint found
    have part := Constraint.anyHolds_negate sound known suits
    rw [← Bool.not_eq_true', ← part, anyHolds, List.any_eq_true]

theorem dropContradictions_eq_filter (plain : ∀ c ∈ cs, c.Plain ratios) :
    dropContradictions cs = cs.filter fun c => !c.isContradiction := by
  refine List.filter_congr fun c mem => ?_
  rw [(plain c mem).readable, Bool.false_or]

/-- Only clauses that hold nowhere are dropped. -/
theorem anyHolds_dropContradictions (plain : ∀ c ∈ cs, c.Plain ratios) :
    anyHolds d (dropContradictions cs) = anyHolds d cs := by
  rw [dropContradictions_eq_filter plain, Bool.eq_iff_iff]
  simp only [anyHolds, List.any_eq_true, List.mem_filter, Bool.not_eq_true']
  constructor
  · rintro ⟨c, ⟨mem, _⟩, holds⟩
    exact ⟨c, mem, holds⟩
  · rintro ⟨c, mem, holds⟩
    refine ⟨c, ⟨mem, ?_⟩, holds⟩
    rw [← Bool.not_eq_true]
    intro contradiction
    obtain ⟨key, constraint, found, never⟩ := KeyMap.any_values.1 contradiction
    obtain ⟨kind, known, suits⟩ := (plain c mem).suits key constraint found
    have met := (plain c mem).holds_iff.1 holds key
    rw [found, Option.all_some, Constraint.not_holds_of_isContradiction known suits never] at met
    cases met

/-- Each step of a negation leaves plain clauses, of which one holds exactly where one of those
before holds and the next clause fails. -/
private theorem negate_step (sound : d.Sound ratios) (plainDone : ∀ c ∈ done, c.Plain ratios)
    (plain : c.Plain ratios) :
    (∀ part ∈ dropContradictions (product done c.negate), part.Plain ratios) ∧
      anyHolds d (dropContradictions (product done c.negate)) =
        (anyHolds d done && !c.holds d) := by
  have parts := plain_negate sound plain
  have products := plain_product plainDone parts
  refine ⟨fun part mem => products part (List.mem_filter.1 mem).1, ?_⟩
  rw [anyHolds_dropContradictions products, anyHolds_product sound plainDone parts,
    anyHolds_negate sound plain]

private theorem negate_foldl (sound : d.Sound ratios) (plainDone : ∀ c ∈ done, c.Plain ratios)
    (plain : ∀ c ∈ cs, c.Plain ratios) :
    (∀ part ∈ cs.foldl (fun done c => dropContradictions (product done c.negate)) done,
        part.Plain ratios) ∧
      anyHolds d (cs.foldl (fun done c => dropContradictions (product done c.negate)) done) =
        (anyHolds d done && !anyHolds d cs) := by
  induction cs generalizing done with
  | nil => exact ⟨plainDone, by simp [anyHolds]⟩
  | cons c cs ih =>
    obtain ⟨plainNext, holdsNext⟩ := negate_step sound plainDone (plain c List.mem_cons_self)
    obtain ⟨plainAll, holdsAll⟩ := ih plainNext fun c mem => plain c (List.mem_cons_of_mem _ mem)
    refine ⟨plainAll, ?_⟩
    rw [List.foldl_cons, holdsAll, holdsNext]
    simp [anyHolds, Bool.and_assoc]

theorem plain_negateAll (sound : d.Sound ratios) (plain : ∀ c ∈ cs, c.Plain ratios) :
    ∀ part ∈ negateAll cs, part.Plain ratios :=
  (negate_foldl sound (by simp [plain_top]) plain).1

/-- One of the clauses of a negation holds exactly where all of the given ones fail. -/
theorem anyHolds_negateAll (sound : d.Sound ratios) (plain : ∀ c ∈ cs, c.Plain ratios) :
    anyHolds d (negateAll cs) = !anyHolds d cs := by
  rw [negateAll, (negate_foldl sound (by simp [plain_top]) plain).2]
  simp [anyHolds]

end Negation

end Clause

end MediaQuery
