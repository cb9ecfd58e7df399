import MediaQuery.Proofs.Clause

set_option autoImplicit false

/- The normal form of a list of clauses holds on the same devices. Covering is a preorder on the
clauses that hold on a device, so of the clauses that hold one that is covered by no strictly larger
one is kept, or an equivalent one in front of it. -/
namespace MediaQuery

namespace Clause

variable {d : Device} {ratios : String → Ratio → Prop} {a b c : Clause} {cs : List Clause}

theorem tag_simplify (c : Clause) :
    c.simplify.tag.all (·.holds d.mediaType) = c.tag.all (·.holds d.mediaType) := by
  rw [simplify]
  cases c.tag with
  | none => rfl
  | some tag => cases tag <;> rfl

/-- A readable clause asks for the same inside the domains of its features. -/
theorem holds_simplify (sound : d.Sound ratios) (readable : c.isInvalid = false)
    (suits : c.Suits ratios) : c.simplify.holds d = c.holds d := by
  have met (key : String) : ((simplifyTests c.tests).get? key).all (·.holds d key) =
      (c.tests.get? key).all (·.holds d key) := by
    rw [simplifyTests, KeyMap.get?_filterMap]
    cases found : c.tests.get? key with
    | none => rfl
    | some constraint =>
      obtain ⟨kind, known, suits⟩ := suits key constraint found
      have same := Constraint.holds_simplify sound known suits
      rw [Option.bind_some, Option.all_some, ← same]
      cases constraint.simplify <;> rfl
  have understood : c.simplify.isInvalid = false := rfl
  rw [Bool.eq_iff_iff, holds_iff, holds_iff, readable, understood, tag_simplify]
  simp only [simplify, met]

/-- What is left of a constraint inside its domain is asked for, unless it is everything. -/
theorem get?_simplify_eq_some {key : String} {x : Constraint} :
    c.simplify.tests.get? key = some x ↔
      ∃ before, c.tests.get? key = some before ∧ before.simplify = x ∧ x ≠ .always := by
  rw [simplify, simplifyTests, KeyMap.get?_filterMap, Option.bind_eq_some_iff]
  refine exists_congr fun before => and_congr_right fun _ => ?_
  constructor
  · intro kept
    split at kept
    · cases kept
    · rename_i asks
      cases kept
      exact ⟨rfl, asks⟩
  · rintro ⟨rfl, asks⟩
    split
    · rename_i all
      exact absurd all asks
    · rfl

theorem Suits.simplify (sound : d.Sound ratios) (suits : c.Suits ratios) :
    c.simplify.Suits ratios := by
  intro key constraint found
  obtain ⟨before, written, rfl, _⟩ := get?_simplify_eq_some.1 found
  obtain ⟨kind, known, suits⟩ := suits key before written
  exact ⟨kind, known, suits.simplify sound known⟩

theorem not_holds_of_falseKeys (sound : d.Sound ratios) (suits : c.Suits ratios)
    (impossible : c.falseKeys.isEmpty = false) : c.holds d = false := by
  rw [← Bool.not_eq_true] at impossible ⊢
  intro holds
  refine impossible (KeyMap.isEmpty_keys.2 fun key => ?_)
  rw [KeyMap.get?_filterMap]
  cases found : c.tests.get? key with
  | none => rfl
  | some constraint =>
    obtain ⟨kind, known, suits⟩ := suits key constraint found
    have met := (holds_iff.1 holds).2.2 key
    rw [found, Option.all_some, ← Constraint.holds_simplify sound known suits] at met
    rw [Option.bind_some]
    cases simple : constraint.simplify with
    | never =>
      rw [simple] at met
      cases met
    | _ => rfl

theorem covers_iff : a.covers b = true ↔
    (∀ tag, a.tag = some tag → b.tag = some tag) ∧
      ∀ key constraint, a.tests.get? key = some constraint →
        ∃ other, b.tests.get? key = some other ∧ constraint.covers other = true := by
  rw [covers, Bool.and_eq_true, KeyMap.all_entries]
  simp only [Option.any_eq_true]
  refine and_congr_left fun _ => ?_
  cases a.tag with
  | none => simp
  | some tag => simp

/-- What covers a clause holds where the clause does. -/
theorem holds_of_covers (sound : d.Sound ratios) (readable : a.isInvalid = false)
    (left : a.Suits ratios) (right : b.Suits ratios) (covers : a.covers b = true)
    (holds : b.holds d = true) : a.holds d = true := by
  rw [covers_iff] at covers
  obtain ⟨tags, tests⟩ := covers
  obtain ⟨_, medium, met⟩ := holds_iff.1 holds
  refine holds_iff.2 ⟨readable, ?_, fun key => ?_⟩
  · rw [Option.all_eq_true] at medium ⊢
    exact fun tag found => medium tag (tags tag found)
  · rw [Option.all_eq_true]
    intro constraint found
    obtain ⟨other, found', covers⟩ := tests key constraint found
    obtain ⟨kind, known, suits⟩ := left key constraint found
    obtain ⟨kind', known', suits'⟩ := right key other found'
    cases known.symm.trans known'
    have other := met key
    rw [found', Option.all_some] at other
    exact Constraint.holds_of_covers sound known suits suits' covers other

theorem covers_refl (sound : d.Sound ratios) (suits : c.Suits ratios) (holds : c.holds d = true) :
    c.covers c = true := by
  rw [covers_iff]
  refine ⟨fun tag found => found, fun key constraint found => ⟨constraint, found, ?_⟩⟩
  obtain ⟨kind, known, suits⟩ := suits key constraint found
  have met := (holds_iff.1 holds).2.2 key
  rw [found, Option.all_some] at met
  exact Constraint.covers_refl sound known suits met

theorem covers_trans (sound : d.Sound ratios) (ha : a.Suits ratios) (hb : b.Suits ratios)
    (hc : c.Suits ratios) (first : a.covers b = true) (second : b.covers c = true) :
    a.covers c = true := by
  rw [covers_iff] at first second ⊢
  refine ⟨fun tag found => second.1 tag (first.1 tag found), fun key x found => ?_⟩
  obtain ⟨y, found', covers⟩ := first.2 key x found
  obtain ⟨z, found'', covers'⟩ := second.2 key y found'
  obtain ⟨kind, known, hx⟩ := ha key x found
  obtain ⟨kind', known', hy⟩ := hb key y found'
  obtain ⟨kind'', known'', hz⟩ := hc key z found''
  cases known.symm.trans known'
  cases known.symm.trans known''
  exact ⟨z, found'', Constraint.covers_trans sound known hx hy hz covers covers'⟩

/-- A clause stays iff it is not redundant at its place. -/
theorem mem_dropRedundant {before : List Clause} :
    c ∈ dropRedundant before cs ↔
      ∃ front behind, cs = front ++ c :: behind ∧
        isRedundant (front.reverse ++ before) c behind = false := by
  induction cs generalizing before with
  | nil => simp [dropRedundant]
  | cons x rest ih =>
    have here : (∃ front behind, x :: rest = front ++ c :: behind ∧
        isRedundant (front.reverse ++ before) c behind = false) ↔
        (x = c ∧ isRedundant before x rest = false) ∨
          ∃ front behind, rest = front ++ c :: behind ∧
            isRedundant (front.reverse ++ x :: before) c behind = false := by
      constructor
      · rintro ⟨front, behind, split, kept⟩
        cases front with
        | nil =>
          cases split
          exact .inl ⟨rfl, kept⟩
        | cons y front =>
          cases split
          exact .inr ⟨front, behind, rfl, by simpa using kept⟩
      · rintro (⟨rfl, kept⟩ | ⟨front, behind, rfl, kept⟩)
        · exact ⟨[], rest, rfl, kept⟩
        · exact ⟨x :: front, behind, rfl, by simpa using kept⟩
    rw [here, ← ih, dropRedundant]
    split
    · rename_i redundant
      simp [redundant]
    · rename_i kept
      have kept : isRedundant before x rest = false := by simpa using kept
      simp [kept, eq_comm]

/-- Above each element of a list there is one, itself or an element of the list, that is on a level
with all elements above it. -/
private theorem exists_maximal (above : Clause → Clause → Prop)
    (trans : ∀ x y z, above x y → above y z → above x z) (xs : List Clause) (x : Clause) :
    ∃ top ∈ x :: xs, (top = x ∨ above top x) ∧ ∀ y ∈ xs, above y top → above top y := by
  induction xs generalizing x with
  | nil => exact ⟨x, List.mem_cons_self, .inl rfl, by simp⟩
  | cons y rest ih =>
    obtain ⟨top, mem, higher, maximal⟩ := ih x
    by_cases larger : above y top ∧ ¬ above top y
    · obtain ⟨top', mem', higher', maximal'⟩ := ih y
      have overTop : above top' top := by
        rcases higher' with rfl | higher'
        · exact larger.1
        · exact trans _ _ _ higher' larger.1
      refine ⟨top', List.mem_cons_of_mem _ mem', .inr ?_, ?_⟩
      · rcases higher with rfl | higher
        · exact overTop
        · exact trans _ _ _ overTop higher
      · intro z hz above
        rcases List.mem_cons.1 hz with rfl | hz
        · rcases higher' with rfl | higher'
          · exact above
          · exact higher'
        · exact maximal' z hz above
    · refine ⟨top, ?_, higher, ?_⟩
      · rcases List.mem_cons.1 mem with rfl | mem
        · exact List.mem_cons_self
        · exact List.mem_cons_of_mem _ (List.mem_cons_of_mem _ mem)
      · intro z hz above
        rcases List.mem_cons.1 hz with rfl | hz
        · by_contra strict
          exact larger ⟨above, strict⟩
        · exact maximal z hz above

/-- Where covering is a preorder of the clauses of some sort, each of them is covered by one that is
kept, if what covers one of them is of the sort, too: by the first of those that cover a largest one
above it. -/
theorem exists_kept_above (live : Clause → Prop)
    (refl : ∀ x ∈ cs, live x → x.covers x = true)
    (trans : ∀ x ∈ cs, ∀ y ∈ cs, ∀ z ∈ cs, live z → x.covers y = true → y.covers z = true →
      x.covers z = true)
    (up : ∀ x ∈ cs, ∀ y ∈ cs, x.covers y = true → live y → live x)
    (mem : c ∈ cs) (alive : live c) :
    ∃ kept ∈ dropRedundant [] cs, live kept ∧ kept.covers c = true := by
  obtain ⟨top, topMem, higher, maximal⟩ :=
    exists_maximal (fun x y => x ∈ cs ∧ y ∈ cs ∧ live y ∧ x.covers y = true)
      (fun x y z xy yz => ⟨xy.1, yz.2.1, yz.2.2.1,
        trans x xy.1 y xy.2.1 z yz.2.1 yz.2.2.1 xy.2.2.2 yz.2.2.2⟩) cs c
  have inside : top ∈ cs := by
    rcases List.mem_cons.1 topMem with rfl | inside
    · exact mem
    · exact inside
  have overCovers : top = c ∨ top.covers c = true :=
    higher.imp_right fun higher => higher.2.2.2
  have topAlive : live top := by
    rcases overCovers with rfl | covers
    · exact alive
    · exact up top inside c mem covers alive
  have self : top.covers top = true := refl top inside topAlive
  obtain ⟨first, found⟩ := Option.isSome_iff_exists.1
    (List.find?_isSome (p := fun x : Clause => x.covers top) |>.2 ⟨top, inside, self⟩)
  obtain ⟨firstCovers, front, behind, split, earlier⟩ := List.find?_eq_some_iff_append.1 found
  have firstMem : first ∈ cs := by simp [split]
  have firstAlive := up first firstMem top inside firstCovers topAlive
  refine ⟨first, mem_dropRedundant.2 ⟨front, behind, split, ?_⟩, firstAlive, ?_⟩
  · rw [isRedundant, List.append_nil, Bool.or_eq_false_iff, List.any_eq_false, List.any_eq_false]
    constructor
    · intro other before covers
      have before : other ∈ front := List.mem_reverse.1 before
      have otherMem : other ∈ cs := by simp [split, before]
      have covers := trans other otherMem first firstMem top inside topAlive covers firstCovers
      simpa [covers] using earlier other before
    · intro other after covers
      have otherMem : other ∈ cs := by simp [split, after]
      rw [Bool.and_eq_true, Bool.not_eq_true'] at covers
      have otherCovers :=
        trans other otherMem first firstMem top inside topAlive covers.1 firstCovers
      have level := maximal other otherMem ⟨otherMem, inside, topAlive, otherCovers⟩
      have back := trans first firstMem top inside other otherMem level.2.2.1 firstCovers
        level.2.2.2
      rw [covers.2] at back
      cases back
  · rcases overCovers with rfl | covers
    · exact firstCovers
    · exact trans first firstMem top inside c mem alive firstCovers covers

/-- Every clause that holds on a device is covered by a clause that is kept. -/
theorem exists_kept (sound : d.Sound ratios) (readable : ∀ c ∈ cs, c.isInvalid = false)
    (suits : ∀ c ∈ cs, c.Suits ratios) (mem : c ∈ cs) (met : c.holds d = true) :
    ∃ kept ∈ dropRedundant [] cs, kept.holds d = true ∧ kept.covers c = true := by
  refine exists_kept_above (fun x => x.holds d = true) ?_ ?_ ?_ mem met
  · intro x hx
    exact covers_refl sound (suits x hx)
  · intro x hx y hy z hz _
    exact covers_trans sound (suits x hx) (suits y hy) (suits z hz)
  · intro x hx y hy
    exact holds_of_covers sound (readable x hx) (suits x hx) (suits y hy)

theorem mem_of_mem_dropRedundant (kept : c ∈ dropRedundant [] cs) : c ∈ cs := by
  obtain ⟨front, behind, split, _⟩ := mem_dropRedundant.1 kept
  simp [split]

/-- Dropping what others imply changes nothing. -/
theorem anyHolds_dropRedundant (sound : d.Sound ratios) (readable : ∀ c ∈ cs, c.isInvalid = false)
    (suits : ∀ c ∈ cs, c.Suits ratios) : anyHolds d (dropRedundant [] cs) = anyHolds d cs := by
  rw [Bool.eq_iff_iff]
  simp only [anyHolds, List.any_eq_true]
  constructor
  · rintro ⟨c, kept, met⟩
    exact ⟨c, mem_of_mem_dropRedundant kept, met⟩
  · rintro ⟨c, mem, met⟩
    obtain ⟨kept, keptMem, holds, _⟩ := exists_kept sound readable suits mem met
    exact ⟨kept, keptMem, holds⟩

end Clause

namespace Outcome

variable {d : Device} {ratios : String → Ratio → Prop} {cs : List Clause}

/-- The normal form of a list of clauses holds on the devices on which one of the clauses does. -/
theorem anyHolds_ofClauses (sound : d.Sound ratios) (suits : ∀ c ∈ cs, c.Suits ratios) :
    Clause.anyHolds d (ofClauses cs).clauses = Clause.anyHolds d cs := by
  simp only [ofClauses]
  rw [Clause.anyHolds_dropRedundant sound]
  · rw [Bool.eq_iff_iff]
    simp only [Clause.anyHolds, List.any_eq_true, List.mem_map, List.mem_filter,
      Bool.not_eq_true']
    constructor
    · rintro ⟨_, ⟨c, ⟨⟨mem, readable⟩, _⟩, rfl⟩, met⟩
      rw [Clause.holds_simplify sound readable (suits c mem)] at met
      exact ⟨c, mem, met⟩
    · rintro ⟨c, mem, met⟩
      have readable := (Clause.holds_iff.1 met).1
      refine ⟨c.simplify, ⟨c, ⟨⟨mem, readable⟩, ?_⟩, rfl⟩, ?_⟩
      · by_contra impossible
        rw [Bool.not_eq_true] at impossible
        rw [Clause.not_holds_of_falseKeys sound (suits c mem) impossible] at met
        cases met
      · rw [Clause.holds_simplify sound readable (suits c mem), met]
  · intro c mem
    obtain ⟨before, _, rfl⟩ := List.mem_map.1 mem
    rfl
  · intro c mem
    simp only [List.mem_map, List.mem_filter] at mem
    obtain ⟨before, ⟨⟨mem, _⟩, _⟩, rfl⟩ := mem
    exact (suits before mem).simplify sound

end Outcome

end MediaQuery
