import MediaQuery.Proofs.Compile

set_option autoImplicit false

/- What is not understood never makes a match. Text that is neither a condition nor a test and tests
without a meaning may be true or false, each at its own place in the tree; a device that matches the
compiled query makes the query true whichever they are. The invariant has two halves: where a clause
holds, the value can only be true, and where no clause holds and all of them are understood, it can
only be false. The second half is what a negation turns into the first. -/
namespace MediaQuery

/-- What a test is known to be on a device: one without a meaning is open. -/
def Feature.reading (d : Device) (m : Metrics) (f : Feature) : Option Bool :=
  if f.isUnreadable m then none else some (Clause.anyHolds d (f.clauses m))

mutual

/-- The truth values that an item may have. Every open leaf may have both, whatever the others
have. -/
inductive InParens.May (value : Feature → Option Bool) : InParens → Bool → Prop where
  | condition {c : Condition} {b : Bool} (inner : Condition.May value c b) :
      InParens.May value (.condition c) b
  | known {f : Feature} {b : Bool} (known : value f = some b) : InParens.May value (.feature f) b
  | unknown {f : Feature} (unknown : value f = none) (b : Bool) : InParens.May value (.feature f) b
  | enclosed (text : String) (b : Bool) : InParens.May value (.enclosed text) b

inductive InParens.AllMay (value : Feature → Option Bool) : List InParens → Bool → Prop where
  | nil : InParens.AllMay value [] true
  | cons {item : InParens} {items : List InParens} {a b : Bool}
      (first : InParens.May value item a) (rest : InParens.AllMay value items b) :
      InParens.AllMay value (item :: items) (a && b)

inductive InParens.AnyMay (value : Feature → Option Bool) : List InParens → Bool → Prop where
  | nil : InParens.AnyMay value [] false
  | cons {item : InParens} {items : List InParens} {a b : Bool}
      (first : InParens.May value item a) (rest : InParens.AnyMay value items b) :
      InParens.AnyMay value (item :: items) (a || b)

inductive Condition.May (value : Feature → Option Bool) : Condition → Bool → Prop where
  | and {items : List InParens} {b : Bool} (all : InParens.AllMay value items b) :
      Condition.May value (.and items) b
  | or {items : List InParens} {b : Bool} (any : InParens.AnyMay value items b) :
      Condition.May value (.or items) b
  | not {item : InParens} {b : Bool} (inner : InParens.May value item b) :
      Condition.May value (.not item) (!b)

end

/-- The truth values that the condition of a query may have; without a condition, only true. -/
def Query.ConditionMay (value : Feature → Option Bool) (q : Query) (b : Bool) : Prop :=
  match q.condition with
  | some condition => Condition.May value condition b
  | none => b = true

/-- The truth values that a query may have on a device of some medium. -/
inductive Query.May (medium : Medium) (value : Feature → Option Bool) (q : Query) :
    Bool → Prop where
  | affirmed {b : Bool} (affirmed : q.qualifier ≠ some .not) (inner : q.ConditionMay value b) :
      Query.May medium value q (q.mediaType.holds medium && b)
  | negated {b : Bool} (negated : q.qualifier = some .not) (inner : q.ConditionMay value b) :
      Query.May medium value q (!(q.mediaType.holds medium && b))

inductive QueryList.May (medium : Medium) (value : Feature → Option Bool) :
    QueryList → Bool → Prop where
  | nil : QueryList.May medium value [] false
  | cons {q : Query} {list : QueryList} {a b : Bool} (first : Query.May medium value q a)
      (rest : QueryList.May medium value list b) : QueryList.May medium value (q :: list) (a || b)

section Exists

variable (value : Feature → Option Bool)

mutual

theorem InParens.exists_may : ∀ item : InParens, ∃ b, InParens.May value item b
  | .condition c => by
    obtain ⟨b, may⟩ := Condition.exists_may c
    exact ⟨b, .condition may⟩
  | .feature f => by
    cases reading : value f with
    | none => exact ⟨true, .unknown reading true⟩
    | some b => exact ⟨b, .known reading⟩
  | .enclosed text => ⟨true, .enclosed text true⟩

theorem InParens.exists_allMay : ∀ items : List InParens, ∃ b, InParens.AllMay value items b
  | [] => ⟨true, .nil⟩
  | item :: items => by
    obtain ⟨a, first⟩ := InParens.exists_may item
    obtain ⟨b, rest⟩ := InParens.exists_allMay items
    exact ⟨a && b, .cons first rest⟩

theorem InParens.exists_anyMay : ∀ items : List InParens, ∃ b, InParens.AnyMay value items b
  | [] => ⟨false, .nil⟩
  | item :: items => by
    obtain ⟨a, first⟩ := InParens.exists_may item
    obtain ⟨b, rest⟩ := InParens.exists_anyMay items
    exact ⟨a || b, .cons first rest⟩

theorem Condition.exists_may : ∀ condition : Condition, ∃ b, Condition.May value condition b
  | .and items => by
    obtain ⟨b, all⟩ := InParens.exists_allMay items
    exact ⟨b, .and all⟩
  | .or items => by
    obtain ⟨b, any⟩ := InParens.exists_anyMay items
    exact ⟨b, .or any⟩
  | .not item => by
    obtain ⟨b, inner⟩ := InParens.exists_may item
    exact ⟨!b, .not inner⟩

end

theorem Query.exists_may (medium : Medium) (q : Query) : ∃ b, q.May medium value b := by
  have inner : ∃ b, q.ConditionMay value b := by
    unfold Query.ConditionMay
    cases q.condition with
    | none => exact ⟨true, rfl⟩
    | some c => exact Condition.exists_may value c
  obtain ⟨b, inner⟩ := inner
  by_cases negated : q.qualifier = some .not
  · exact ⟨_, .negated negated inner⟩
  · exact ⟨_, .affirmed negated inner⟩

/-- Every list has a truth value that it may have. -/
theorem QueryList.exists_may (medium : Medium) (list : QueryList) :
    ∃ b, list.May medium value b := by
  induction list with
  | nil => exact ⟨false, .nil⟩
  | cons q list ih =>
    obtain ⟨a, first⟩ := Query.exists_may value medium q
    obtain ⟨b, rest⟩ := ih
    exact ⟨a || b, .cons first rest⟩

end Exists

namespace Clause

variable {d : Device} {ratios : String → Ratio → Prop} {a b c : Clause}
  {as bs cs done : List Clause}

/-- A clause as conditions give it, understood or not. -/
structure Regular (ratios : String → Ratio → Prop) (c : Clause) : Prop where
  untagged : c.tag = none
  suits : c.Suits ratios

theorem Plain.regular (plain : c.Plain ratios) : c.Regular ratios :=
  ⟨plain.untagged, plain.suits⟩

theorem Regular.plain (regular : c.Regular ratios) (readable : c.isInvalid = false) :
    c.Plain ratios :=
  ⟨readable, regular.untagged, regular.suits⟩

theorem regular_of_noTests (untagged : c.tag = none) (none : c.tests = KeyMap.empty) :
    c.Regular ratios :=
  ⟨untagged, fun key constraint found => by rw [none] at found; cases found⟩

theorem Regular.and (left : a.Regular ratios) (right : b.Regular ratios) :
    (a.and b).Regular ratios where
  untagged := by simp [Clause.and, left.untagged, right.untagged]
  suits := left.suits.and right.suits

theorem holds_of_isInvalid (invalid : c.isInvalid = true) : c.holds d = false := by
  simp [holds, invalid]

/-- Both clauses at once, where one that is not understood holds nowhere. -/
theorem Regular.holds_and (sound : d.Sound ratios) (left : a.Regular ratios)
    (right : b.Regular ratios) : (a.and b).holds d = (a.holds d && b.holds d) := by
  cases first : a.isInvalid with
  | true => simp [holds_of_isInvalid, isInvalid_and, first]
  | false =>
    cases second : b.isInvalid with
    | true => simp [holds_of_isInvalid, isInvalid_and, second]
    | false => exact Clause.holds_and sound (left.plain first) (right.plain second)

theorem regular_product (left : ∀ a ∈ as, a.Regular ratios) (right : ∀ b ∈ bs, b.Regular ratios) :
    ∀ c ∈ product as bs, c.Regular ratios := by
  intro c mem
  obtain ⟨a, ha, b, hb, rfl⟩ := mem_product.1 mem
  exact (left a ha).and (right b hb)

theorem regular_negate (sound : d.Sound ratios) (regular : c.Regular ratios) :
    ∀ part ∈ c.negate, part.Regular ratios := by
  cases readable : c.isInvalid with
  | false => exact fun part mem => (plain_negate sound (regular.plain readable) part mem).regular
  | true =>
    intro part mem
    rw [negate, if_pos readable, List.mem_singleton] at mem
    subst mem
    exact regular_of_noTests rfl rfl

/-- Whether a clause holds or is not understood. -/
def isLive (d : Device) (c : Clause) : Bool := c.isInvalid || c.holds d

theorem isLive_and (sound : d.Sound ratios) (left : a.Regular ratios) (right : b.Regular ratios)
    (first : a.isLive d = true) (second : b.isLive d = true) : (a.and b).isLive d = true := by
  rw [isLive, isInvalid_and, left.holds_and sound right]
  simp only [isLive, Bool.or_eq_true, Bool.and_eq_true] at first second ⊢
  tauto

theorem isContradiction_of_holds (suits : c.Suits ratios) (holds : c.holds d = true) :
    c.isContradiction = false := by
  rw [← Bool.not_eq_true]
  intro contradiction
  obtain ⟨key, constraint, found, never⟩ := KeyMap.any_values.1 contradiction
  obtain ⟨kind, known, suits⟩ := suits key constraint found
  have met := (holds_iff.1 holds).2.2 key
  rw [found, Option.all_some, Constraint.not_holds_of_isContradiction known suits never] at met
  cases met

/-- Where a clause of a negation holds, the clause that is negated is understood and fails. -/
theorem readable_of_holds_negate (sound : d.Sound ratios) (regular : c.Regular ratios)
    (holds : anyHolds d c.negate = true) : c.isInvalid = false ∧ c.holds d = false := by
  cases readable : c.isInvalid with
  | false =>
    rw [anyHolds_negate sound (regular.plain readable), Bool.not_eq_true'] at holds
    exact ⟨rfl, holds⟩
  | true =>
    rw [negate, if_pos readable] at holds
    simp [anyHolds, Clause.holds, isInvalid] at holds
    simp [isInvalid, holds] at readable

/-- The negation of a clause that does not hold has a clause that holds or is not understood. -/
theorem exists_isLive_negate (sound : d.Sound ratios) (regular : c.Regular ratios)
    (fails : c.holds d = false) : ∃ part ∈ c.negate, part.isLive d = true := by
  cases readable : c.isInvalid with
  | false =>
    have holds := anyHolds_negate sound (regular.plain readable)
    rw [fails, anyHolds, Bool.not_false, List.any_eq_true] at holds
    obtain ⟨part, mem, holds⟩ := holds
    exact ⟨part, mem, by simp [isLive, holds]⟩
  | true =>
    refine ⟨{ top with invalid := c.invalid }, by simp [negate, readable], ?_⟩
    rw [isLive, Bool.or_eq_true]
    exact .inl readable

theorem regular_negateAll (sound : d.Sound ratios) (regular : ∀ c ∈ cs, c.Regular ratios) :
    ∀ part ∈ negateAll cs, part.Regular ratios := by
  suffices all : ∀ done : List Clause, (∀ a ∈ done, a.Regular ratios) →
      ∀ part ∈ cs.foldl (fun done c => dropContradictions (product done c.negate)) done,
        part.Regular ratios from
    all [top] (by simp [plain_top.regular])
  induction cs with
  | nil => exact fun done regularDone => regularDone
  | cons c cs ih =>
    rw [List.forall_mem_cons] at regular
    intro done regularDone
    refine ih regular.2 _ fun part mem => ?_
    exact regular_product regularDone (regular_negate sound regular.1) part
      (List.mem_filter.1 mem).1

/-- Where a clause of a negation holds, all clauses that are negated are understood and fail. -/
theorem of_anyHolds_negateAll (sound : d.Sound ratios) (regular : ∀ c ∈ cs, c.Regular ratios)
    (holds : anyHolds d (negateAll cs) = true) :
    (∀ c ∈ cs, c.isInvalid = false) ∧ anyHolds d cs = false := by
  suffices all : ∀ done : List Clause, (∀ a ∈ done, a.Regular ratios) →
      anyHolds d (cs.foldl (fun done c => dropContradictions (product done c.negate)) done) =
        true →
      anyHolds d done = true ∧ ∀ c ∈ cs, c.isInvalid = false ∧ c.holds d = false by
    have each := (all [top] (by simp [plain_top.regular]) holds).2
    exact ⟨fun c mem => (each c mem).1, List.any_eq_false.2 fun c mem => by simp [(each c mem).2]⟩
  clear holds
  induction cs with
  | nil => exact fun done _ holds => ⟨holds, by simp⟩
  | cons c cs ih =>
    rw [List.forall_mem_cons] at regular
    intro done regularDone holds
    have regularParts := regular_negate sound regular.1
    have regularNext : ∀ part ∈ dropContradictions (product done c.negate),
        part.Regular ratios := fun part mem =>
      regular_product regularDone regularParts part (List.mem_filter.1 mem).1
    obtain ⟨here, behind⟩ := ih regular.2 _ regularNext holds
    rw [anyHolds, List.any_eq_true] at here
    obtain ⟨_, mem, both⟩ := here
    obtain ⟨a, ha, part, hpart, rfl⟩ := mem_product.1 (List.mem_filter.1 mem).1
    rw [(regularDone a ha).holds_and sound (regularParts part hpart), Bool.and_eq_true] at both
    have fails := readable_of_holds_negate sound regular.1
      (List.any_eq_true.2 ⟨part, hpart, both.2⟩)
    refine ⟨List.any_eq_true.2 ⟨a, ha, both.1⟩, ?_⟩
    rw [List.forall_mem_cons]
    exact ⟨fails, behind⟩

/-- The negation of clauses that do not hold has a clause that holds or is not understood: such
a clause is never dropped as a contradiction. -/
theorem exists_isLive_negateAll (sound : d.Sound ratios) (regular : ∀ c ∈ cs, c.Regular ratios)
    (fails : anyHolds d cs = false) : ∃ part ∈ negateAll cs, part.isLive d = true := by
  suffices all : ∀ done : List Clause, (∀ a ∈ done, a.Regular ratios) →
      (∃ a ∈ done, a.isLive d = true) →
      ∃ part ∈ cs.foldl (fun done c => dropContradictions (product done c.negate)) done,
        part.isLive d = true from
    all [top] (by simp [plain_top.regular]) ⟨top, by simp, rfl⟩
  induction cs with
  | nil => exact fun done _ live => live
  | cons c cs ih =>
    rw [List.forall_mem_cons] at regular
    simp only [anyHolds, List.any_cons, Bool.or_eq_false_iff] at fails
    rintro done regularDone ⟨a, ha, live⟩
    have regularParts := regular_negate sound regular.1
    have regularNext := regular_product regularDone regularParts
    refine ih regular.2 fails.2 _ (fun part mem => regularNext part (List.mem_filter.1 mem).1) ?_
    obtain ⟨part, hpart, livePart⟩ := exists_isLive_negate sound regular.1 fails.1
    have mem : a.and part ∈ product done c.negate := mem_product.2 ⟨a, ha, part, hpart, rfl⟩
    have both := isLive_and sound (regularDone a ha) (regularParts part hpart) live livePart
    refine ⟨a.and part, List.mem_filter.2 ⟨mem, ?_⟩, both⟩
    rw [isLive, Bool.or_eq_true] at both
    rcases both with invalid | holds
    · simp [invalid]
    · simp [isContradiction_of_holds (regularNext _ mem).suits holds]

/-- What clauses tell about a truth value that may be open: where one of them holds it can only be
true, and where none holds and all are understood it can only be false. -/
structure Tell (d : Device) (ratios : String → Ratio → Prop) (cs : List Clause)
    (may : Bool → Prop) : Prop where
  regular : ∀ c ∈ cs, c.Regular ratios
  met : anyHolds d cs = true → ¬may false
  failed : anyHolds d cs = false → (∀ c ∈ cs, c.isInvalid = false) → ¬may true

variable {may may' : Bool → Prop}

theorem Tell.mono (tell : Tell d ratios cs may) (sub : ∀ b, may' b → may b) :
    Tell d ratios cs may' where
  regular := tell.regular
  met holds value := tell.met holds (sub _ value)
  failed fails readable value := tell.failed fails readable (sub _ value)

theorem Tell.nil : Tell d ratios [] (· = false) where
  regular := by simp
  met holds := by cases holds
  failed _ _ value := by cases value

theorem Tell.top : Tell d ratios [top] (· = true) where
  regular := by simp [plain_top.regular]
  met _ value := by cases value
  failed fails := by cases fails

theorem Tell.unreadable (text : String) : Tell d ratios [unreadable text] may where
  regular := by
    rintro c mem
    cases List.mem_singleton.1 mem
    exact regular_of_noTests rfl rfl
  met holds := by cases holds
  failed _ readable := by cases readable _ List.mem_cons_self

theorem Tell.product (sound : d.Sound ratios) (left : Tell d ratios as may)
    (right : Tell d ratios bs may') :
    Tell d ratios (product as bs) fun b => ∃ x y, may x ∧ may' y ∧ b = (x && y) where
  regular := regular_product left.regular right.regular
  met holds := by
    rw [anyHolds, List.any_eq_true] at holds
    obtain ⟨_, mem, both⟩ := holds
    obtain ⟨a, ha, b, hb, rfl⟩ := mem_product.1 mem
    rw [(left.regular a ha).holds_and sound (right.regular b hb), Bool.and_eq_true] at both
    have first := left.met (List.any_eq_true.2 ⟨a, ha, both.1⟩)
    have second := right.met (List.any_eq_true.2 ⟨b, hb, both.2⟩)
    rintro ⟨x, y, hx, hy, value⟩
    cases x with
    | false => exact first hx
    | true =>
      cases y with
      | false => exact second hy
      | true => cases value
  failed fails readable := by
    -- A factor without clauses tells on its own that its value is false; with clauses on both
    -- sides no factor has a mark, since each of its clauses is part of a clause of the product.
    rintro ⟨x, y, hx, hy, value⟩
    obtain ⟨rfl, rfl⟩ : x = true ∧ y = true := by simpa using value.symm
    have parts : ∀ a ∈ as, ∀ b ∈ bs, a.isInvalid = false ∧ b.isInvalid = false := by
      intro a ha b hb
      have joined := readable _ (mem_product.2 ⟨a, ha, b, hb, rfl⟩)
      rwa [isInvalid_and, Bool.or_eq_false_iff] at joined
    cases as with
    | nil => exact left.failed rfl (by simp) hx
    | cons a as =>
      cases bs with
      | nil => exact right.failed rfl (by simp) hy
      | cons b bs =>
        have readableLeft := fun a' ha => (parts a' ha b List.mem_cons_self).1
        have readableRight := fun b' hb => (parts a List.mem_cons_self b' hb).2
        have plainLeft := fun a' ha => (left.regular a' ha).plain (readableLeft a' ha)
        have plainRight := fun b' hb => (right.regular b' hb).plain (readableRight b' hb)
        rw [anyHolds_product sound plainLeft plainRight, Bool.and_eq_false_iff] at fails
        rcases fails with fails | fails
        · exact left.failed fails readableLeft hx
        · exact right.failed fails readableRight hy

theorem Tell.append (left : Tell d ratios as may) (right : Tell d ratios bs may') :
    Tell d ratios (as ++ bs) fun b => ∃ x y, may x ∧ may' y ∧ b = (x || y) where
  regular := by
    rw [List.forall_mem_append]
    exact ⟨left.regular, right.regular⟩
  met holds := by
    rw [anyHolds_append, Bool.or_eq_true] at holds
    rintro ⟨x, y, hx, hy, value⟩
    obtain ⟨rfl, rfl⟩ : x = false ∧ y = false := by simpa using value.symm
    exact holds.elim (fun holds => left.met holds hx) fun holds => right.met holds hy
  failed fails readable := by
    rw [anyHolds_append, Bool.or_eq_false_iff] at fails
    rw [List.forall_mem_append] at readable
    rintro ⟨x, y, hx, hy, value⟩
    rcases Bool.or_eq_true_iff.1 value.symm with rfl | rfl
    · exact left.failed fails.1 readable.1 hx
    · exact right.failed fails.2 readable.2 hy

theorem Tell.negateAll (sound : d.Sound ratios) (tell : Tell d ratios cs may) :
    Tell d ratios (negateAll cs) fun b => ∃ x, may x ∧ b = !x where
  regular := regular_negateAll sound tell.regular
  met holds := by
    obtain ⟨readable, fails⟩ := of_anyHolds_negateAll sound tell.regular holds
    rintro ⟨x, hx, value⟩
    obtain rfl : x = true := by simpa using value.symm
    exact tell.failed fails readable hx
  failed fails readable := by
    rintro ⟨x, hx, value⟩
    obtain rfl : x = false := by simpa using value.symm
    refine tell.met (Bool.not_eq_false _ ▸ fun none => ?_) hx
    obtain ⟨part, mem, live⟩ := exists_isLive_negateAll sound tell.regular none
    rw [isLive, readable part mem, Bool.false_or] at live
    exact List.any_eq_false.1 fails part mem live

end Clause

section Trees

variable {d : Device} {ratios : String → Ratio → Prop} {m : Metrics}
  {value : Feature → Option Bool}

def Feature.Tells (d : Device) (ratios : String → Ratio → Prop) (m : Metrics)
    (value : Feature → Option Bool) (f : Feature) : Prop :=
  Clause.Tell d ratios (f.clauses m) (InParens.May value (.feature f))

mutual

theorem InParens.tell_clauses (sound : d.Sound ratios) : ∀ item : InParens,
    (∀ f ∈ item.features, f.Tells d ratios m value) →
      Clause.Tell d ratios (item.clauses m) (InParens.May value item)
  | .condition c, leaves => by
    rw [InParens.clauses]
    refine (Condition.tell_clauses sound c leaves).mono fun b may => ?_
    cases may with
    | condition inner => exact inner
  | .feature f, leaves => leaves f (by simp [InParens.features])
  | .enclosed text, leaves => .unreadable text

theorem InParens.tell_allClauses (sound : d.Sound ratios) : ∀ (items : List InParens)
    (done : List Clause) (may : Bool → Prop),
    (∀ f ∈ InParens.allFeatures items, f.Tells d ratios m value) → Clause.Tell d ratios done may →
      Clause.Tell d ratios (InParens.allClauses m done items)
        fun b => ∃ x y, may x ∧ InParens.AllMay value items y ∧ b = (x && y)
  | [], done, may, leaves, tell => by
    refine tell.mono fun b => ?_
    rintro ⟨x, y, hx, all, rfl⟩
    cases all with
    | nil => rwa [Bool.and_true]
  | item :: items, done, may, leaves, tell => by
    simp only [InParens.allFeatures, List.mem_append] at leaves
    have here := InParens.tell_clauses sound item fun f mem => leaves f (.inl mem)
    refine (InParens.tell_allClauses sound items _ _ (fun f mem => leaves f (.inr mem))
      (tell.product sound here)).mono fun b => ?_
    rintro ⟨x, y, hx, all, rfl⟩
    cases all with
    | @cons _ _ a y first rest =>
      exact ⟨x && a, y, ⟨x, a, hx, first, rfl⟩, rest, (Bool.and_assoc x a y).symm⟩

theorem InParens.tell_anyClauses (sound : d.Sound ratios) : ∀ items : List InParens,
    (∀ f ∈ InParens.allFeatures items, f.Tells d ratios m value) →
      Clause.Tell d ratios (InParens.anyClauses m items) (InParens.AnyMay value items)
  | [], leaves => by
    refine Clause.Tell.nil.mono fun b may => ?_
    cases may with
    | nil => rfl
  | item :: items, leaves => by
    simp only [InParens.allFeatures, List.mem_append] at leaves
    have here := InParens.tell_clauses sound item fun f mem => leaves f (.inl mem)
    have behind := InParens.tell_anyClauses sound items fun f mem => leaves f (.inr mem)
    refine (here.append behind).mono fun b may => ?_
    cases may with
    | @cons _ _ a y first rest => exact ⟨a, y, first, rest, rfl⟩

theorem Condition.tell_clauses (sound : d.Sound ratios) : ∀ condition : Condition,
    (∀ f ∈ condition.features, f.Tells d ratios m value) →
      Clause.Tell d ratios (condition.clauses m) (Condition.May value condition)
  | .and items, leaves => by
    rw [Condition.clauses]
    refine (InParens.tell_allClauses sound items _ _ leaves .top).mono fun b may => ?_
    cases may with
    | and all => exact ⟨true, b, rfl, all, rfl⟩
  | .or items, leaves => by
    rw [Condition.clauses]
    refine (InParens.tell_anyClauses sound items leaves).mono fun b may => ?_
    cases may with
    | or any => exact any
  | .not item, leaves => by
    rw [Condition.clauses]
    refine (InParens.tell_clauses sound item leaves).negateAll sound |>.mono fun b may => ?_
    cases may with
    | @not _ b inner => exact ⟨b, inner, rfl⟩

end

/-- Where a clause holds under a tag, its medium is the device's and the clause holds without the
tag. -/
theorem Clause.anyHolds_of_tagged {cs : List Clause} (regular : ∀ c ∈ cs, c.Regular ratios)
    {tag : MediaTag} (holds : anyHolds d (cs.map fun c => c.tagged tag) = true) :
    tag.holds d.mediaType = true ∧ anyHolds d cs = true := by
  simp only [anyHolds, List.any_map, List.any_eq_true, Function.comp_apply] at holds
  obtain ⟨c, mem, holds⟩ := holds
  obtain ⟨readable, medium, met⟩ := holds_iff.1 holds
  have untagged := (regular c mem).untagged
  have holds : c.holds d = true := holds_iff.2 ⟨readable, by rw [untagged]; rfl, met⟩
  exact ⟨by simpa [tagged] using medium, List.any_eq_true.2 ⟨c, mem, holds⟩⟩

/-- The clauses of the condition of a query tell which values it may have. -/
theorem Query.tell_ownClauses (sound : d.Sound ratios) (q : Query)
    (leaves : ∀ f ∈ q.features, f.Tells d ratios m value) :
    Clause.Tell d ratios (q.ownClauses m) (q.ConditionMay value) := by
  unfold Query.features at leaves
  unfold Query.ownClauses Query.ConditionMay
  cases condition : q.condition with
  | none => exact .top
  | some c =>
    rw [condition] at leaves
    exact Condition.tell_clauses sound c leaves

/-- Where one of the clauses of a query holds, the query is true whatever its open leaves are. -/
theorem Query.not_may_false (sound : d.Sound ratios) (q : Query)
    (leaves : ∀ f ∈ q.features, f.Tells d ratios m value)
    (holds : Clause.anyHolds d (q.clauses m) = true) : ¬q.May d.mediaType value false := by
  have tell := Query.tell_ownClauses sound q leaves
  generalize made : false = b
  rintro (⟨affirmed, inner⟩ | ⟨negated, inner⟩)
  · rw [q.clauses_of_affirmed affirmed] at holds
    cases named : q.mediaType.tag? with
    | none =>
      rw [named] at holds
      cases holds
    | some tag =>
      rw [named] at holds
      obtain ⟨medium, holds⟩ := Clause.anyHolds_of_tagged tell.regular holds
      rw [MediaType.tag?_holds named] at medium
      rw [medium, Bool.true_and] at made
      exact tell.met holds (made ▸ inner)
  · rename_i b
    rw [q.clauses_of_negated negated, Clause.anyHolds_append, Bool.or_eq_true,
      MediaType.anyHolds_negated] at holds
    obtain ⟨medium, rfl⟩ : q.mediaType.holds d.mediaType = true ∧ b = true := by
      simpa using made.symm
    rcases holds with absent | holds
    · rw [medium] at absent
      cases absent
    · have turned := tell.negateAll sound
      exact turned.met (Clause.anyHolds_of_tagged turned.regular holds).2 ⟨true, inner, rfl⟩

theorem QueryList.not_may_false (sound : d.Sound ratios) (list : QueryList)
    (leaves : ∀ f ∈ list.features, f.Tells d ratios m value)
    (holds : Clause.anyHolds d (list.clauses m) = true) : ¬list.May d.mediaType value false := by
  induction list with
  | nil => cases holds
  | cons q list ih =>
    simp only [QueryList.features, List.flatMap_cons, List.mem_append] at leaves
    simp only [QueryList.clauses, List.flatMap_cons, Clause.anyHolds_append, Bool.or_eq_true]
      at holds
    generalize made : false = value
    intro may
    cases may with | @cons _ _ a b first rest =>
    obtain ⟨rfl, rfl⟩ : a = false ∧ b = false := by simpa using made.symm
    rcases holds with holds | holds
    · exact Query.not_may_false sound q (fun f mem => leaves f (.inl mem)) holds first
    · exact ih (fun f mem => leaves f (.inr mem)) holds rest

theorem Query.suits_clauses (sound : d.Sound ratios) (q : Query)
    (leaves : ∀ f ∈ q.features, f.Tells d ratios m value) :
    ∀ c ∈ q.clauses m, c.Suits ratios := by
  have tell := Query.tell_ownClauses sound q leaves
  have under {cs : List Clause} {tag : MediaTag} (regular : ∀ c ∈ cs, c.Regular ratios) :
      ∀ c ∈ cs.map fun c => c.tagged tag, c.Suits ratios := by
    intro c mem
    obtain ⟨untagged, inside, rfl⟩ := List.mem_map.1 mem
    exact (regular untagged inside).suits
  by_cases negated : q.qualifier = some .not
  · rw [q.clauses_of_negated negated, List.forall_mem_append]
    exact ⟨q.mediaType.suits_negated, under (tell.negateAll sound).regular⟩
  · rw [q.clauses_of_affirmed negated]
    cases q.mediaType.tag? with
    | none => simp
    | some tag => exact under tell.regular

theorem QueryList.suits_clauses (sound : d.Sound ratios) (list : QueryList)
    (leaves : ∀ f ∈ list.features, f.Tells d ratios m value) :
    ∀ c ∈ list.clauses m, c.Suits ratios := by
  intro c mem
  obtain ⟨q, listed, inside⟩ := List.mem_flatMap.1 mem
  exact Query.suits_clauses sound q
    (fun f own => leaves f (List.mem_flatMap.2 ⟨q, listed, own⟩)) c inside

end Trees

section Meaning

variable {d : Device} {ratios : String → Ratio → Prop} {m : Metrics}

/-- A test tells its own value, or is open where it has no meaning. -/
theorem Feature.tells_reading {f : Feature}
    (plain : f.isUnreadable m = false → ∀ c ∈ f.clauses m, c.Plain ratios) :
    f.Tells d ratios m (Feature.reading d m) := by
  unfold Feature.Tells
  cases unread : f.isUnreadable m with
  | true =>
    have missing : f.constraints? m = none := Option.isNone_iff_eq_none.1 unread
    rw [Feature.clauses, missing]
    exact .unreadable f.name
  | false =>
    have reading : Feature.reading d m f = some (Clause.anyHolds d (f.clauses m)) := by
      simp [Feature.reading, unread]
    have only {b : Bool} (may : InParens.May (Feature.reading d m) (.feature f) b) :
        b = Clause.anyHolds d (f.clauses m) := by
      cases may with
      | known known =>
        rw [reading] at known
        exact (Option.some.inj known).symm
      | unknown unknown =>
        rw [reading] at unknown
        cases unknown
    exact {
      regular := fun c mem => (plain unread c mem).regular
      met := fun holds may => by rw [← only may] at holds; cases holds
      failed := fun fails _ may => by rw [← only may] at fails; cases fails }

/-- A match rests on nothing that is not understood. A device that matches the compiled list makes
the list true whatever truth value each unread text and each test without a meaning has at each
place where it stands, if no end of an interval is no number and the ratios that are compared are
totally ordered. -/
theorem QueryList.may_of_matches (list : QueryList) (m : Metrics) (d : Device)
    (numbers : ∀ f ∈ list.features, ∀ c ∈ f.clauses m, ∀ x ∈ c.numberEnds,
      Number.isNaN x = false)
    (total : Endpoint.TotalOn (· ∈ list.comparedRatios m d))
    (matched : (list.compile m).matches d = .ok true) (b : Bool) :
    list.May d.mediaType (Feature.reading d m) b ↔ b = true := by
  have valid : d.validate = .ok () := by
    cases checked : d.validate with
    | ok => rfl
    | error problem => simp [Outcome.matches, checked] at matched
  have sound := list.sound_comparedRatios valid total
  have leaves : ∀ f ∈ list.features,
      f.Tells d (fun _ r => r ∈ list.comparedRatios m d) m (Feature.reading d m) :=
    fun f mem => Feature.tells_reading fun readable =>
      list.plain_clauses_of_mem mem readable (numbers f mem)
  have holds : Clause.anyHolds d (list.clauses m) = true := by
    rw [← Outcome.anyHolds_ofClauses sound (QueryList.suits_clauses sound list leaves)]
    simp only [Outcome.matches, valid] at matched
    exact Except.ok.inj matched
  have never := QueryList.not_may_false sound list leaves holds
  constructor
  · intro may
    exact Bool.eq_true_of_not_eq_false fun value => never (value ▸ may)
  · rintro rfl
    obtain ⟨value, may⟩ := list.exists_may (Feature.reading d m) d.mediaType
    cases value with
    | false => exact absurd may never
    | true => exact may

/-- `print and (future words), not screen and (unknown) and (not (orientation)),
(hover) or (not (unknown: 3))` -/
def openLeaves : QueryList :=
  [⟨none, .print, some (.and [.enclosed "(future words)"])⟩,
   ⟨some .not, .screen, some (.and [.feature (.boolean "unknown"),
      .condition (.not (.feature (.boolean "orientation")))])⟩,
   .ofCondition (.or [.feature (.boolean "hover"),
      .condition (.not (.feature (.plain "unknown" (.number 3 true))))])]

/-- A desktop computer matches a list with open leaves under every connective. -/
theorem QueryList.may_of_matches_desktop :
    (QueryList.compile {} openLeaves).matches {} = .ok true ∧
      ¬openLeaves.May .screen (Feature.reading {} {}) false := by
  have holds : Clause.anyHolds {} (QueryList.compile {} openLeaves).clauses = true := by
    decide +kernel
  have matched : (QueryList.compile {} openLeaves).matches {} = .ok true :=
    congrArg Except.ok holds
  refine ⟨matched, fun may => ?_⟩
  have value := (QueryList.may_of_matches openLeaves {} {} (by decide +kernel)
    (Endpoint.totalOn_mem (by decide +kernel) (by decide +kernel)) matched false).1 may
  cases value

end Meaning

end MediaQuery
