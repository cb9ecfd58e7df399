import MediaQuery.Proofs.Agreement
import MediaQuery.Proofs.Extremes

set_option autoImplicit false

namespace MediaQuery

namespace Constraint

/-- A constraint that comes out the same on a device whatever the ratios of the device are. -/
def Outright (d : Device) (key : String) : Bool → Constraint → Prop
  | true, .ratio a => a.Wide
  | false, .ratio a => a.Low
  | b, c => c.holds d key = b

/-- A constraint is of the kind of its feature, and the ends of a ratio are those of tests, but for
the least one. -/
inductive Fits (P : Ratio → Prop) : FeatureKind → Constraint → Prop where
  | ratio {a : Interval Ratio} (loose : a.Loose P) : Fits P .ratio (.ratio a)
  | plain {kind : FeatureKind} {c : Constraint} (suits : c.Suits (fun _ => False) kind) :
      Fits P kind c

variable {d : Device} {key : String} {kind : FeatureKind} {P Q : Ratio → Prop}
  {a c : Constraint} {b : Bool}

theorem Suits.of_noRatio (suits : c.Suits P kind) (noRatio : ∀ interval, c ≠ .ratio interval) :
    c.Suits Q kind := by
  cases suits with
  | always => exact .always
  | never => exact .never
  | discrete listed => exact .discrete listed
  | gamut => exact .gamut
  | number ends => exact .number ends
  | ratio ends => exact absurd rfl (noRatio _)

theorem Suits.noRatio (suits : c.Suits (fun _ => False) kind) {interval : Interval Ratio} :
    c ≠ .ratio interval := by
  rintro rfl
  cases suits with
  | ratio ends => exact ends.min

theorem Suits.sides (suits : c.Suits (fun _ => False) kind) : c.Suits (d.Sides key) kind :=
  suits.of_noRatio fun _ => suits.noRatio

theorem Suits.outright_iff (suits : c.Suits (fun _ => False) kind) :
    c.Outright d key b ↔ c.holds d key = b := by
  cases c with
  | ratio interval => exact absurd rfl suits.noRatio
  | _ => cases b <;> rfl

/-- Of the constraints on a ratio, those that are no interval ask for everything or for nothing. -/
theorem Suits.always_or_never (suits : c.Suits (fun _ => False) .ratio) :
    c = .always ∨ c = .never := by
  cases suits with
  | always => exact .inl rfl
  | never => exact .inr rfl
  | ratio ends => exact ends.min.elim

section Operations

variable (valid : d.Valid) (ends : Ratio.Ends P) (known : FeatureTable.kind? key = some kind)

omit valid ends known in
theorem fits_ofRatios? {part : Option (Interval Ratio)}
    (loose : ∀ interval, part = some interval → interval.Loose P) :
    (ofRatios? part).Fits P .ratio := by
  cases part with
  | none => exact .plain .never
  | some interval => exact .ratio (loose interval rfl)

omit valid ends known in
/-- Two constraints of one kind are both on ratios or both on none, or one of them asks for
everything or for nothing. -/
theorem Fits.pair_cases (left : a.Fits P kind) (right : c.Fits P kind) :
    (kind = .ratio ∧ ∃ x y, a = .ratio x ∧ c = .ratio y ∧ x.Loose P ∧ y.Loose P) ∨
      (a.Suits (fun _ => False) kind ∧ c.Suits (fun _ => False) kind) ∨
      (a = .always ∨ a = .never) ∨ c = .always ∨ c = .never := by
  cases left with
  | ratio loose =>
    cases right with
    | ratio loose' => exact .inl ⟨rfl, _, _, rfl, rfl, loose, loose'⟩
    | plain suits' => exact .inr (.inr (.inr suits'.always_or_never))
  | plain suits =>
    cases right with
    | ratio loose' => exact .inr (.inr (.inl suits.always_or_never))
    | plain suits' => exact .inr (.inl ⟨suits, suits'⟩)

omit valid ends known in
theorem Fits.inter (left : a.Fits P kind) (right : c.Fits P kind) : (a.inter c).Fits P kind := by
  obtain ⟨rfl, x, y, rfl, rfl, loose, loose'⟩ | ⟨suits, suits'⟩ | (rfl | rfl) | rfl | rfl :=
    left.pair_cases right
  · exact fits_ofRatios? fun part common => loose.inter? loose' common
  · exact .plain (suits.inter suits')
  · rwa [always_inter]
  · exact .plain .never
  · rwa [inter_always]
  · rwa [inter_never]

include valid ends known

/-- What both constraints ask for is sure if both are. -/
theorem Outright.inter_true (left : a.Fits P kind) (right : c.Fits P kind)
    (first : a.Outright d key true) (second : c.Outright d key true) :
    (a.inter c).Outright d key true := by
  obtain ⟨rfl, x, y, rfl, rfl, loose, loose'⟩ | ⟨suits, suits'⟩ | (rfl | rfl) | rfl | rfl :=
    left.pair_cases right
  · obtain ⟨part, common, wide⟩ := Interval.Wide.inter? ends first loose second loose'
    rw [inter_ratio, common]
    exact wide
  · rw [suits.outright_iff] at first
    rw [suits'.outright_iff] at second
    rw [(suits.inter suits').outright_iff, holds_inter valid.sound_sides known suits.sides
      suits'.sides, first, second]
    rfl
  · rwa [always_inter]
  · exact absurd first Bool.false_ne_true
  · rwa [inter_always]
  · exact absurd second Bool.false_ne_true

/-- What both constraints ask for is in vain if one of them is. -/
theorem Outright.inter_false (left : a.Fits P kind) (right : c.Fits P kind)
    (vain : a.Outright d key false ∨ c.Outright d key false) :
    (a.inter c).Outright d key false := by
  obtain ⟨rfl, x, y, rfl, rfl, loose, loose'⟩ | ⟨suits, suits'⟩ | (rfl | rfl) | rfl | rfl :=
    left.pair_cases right
  · rw [inter_ratio]
    cases common : x.inter? y with
    | none => rfl
    | some part => exact Interval.Low.of_inter? ends vain loose loose' common
  · rw [suits.outright_iff, suits'.outright_iff, ← Bool.and_eq_false_iff] at vain
    rw [(suits.inter suits').outright_iff, holds_inter valid.sound_sides known suits.sides
      suits'.sides, vain]
  · rw [always_inter]
    exact vain.resolve_left Bool.false_ne_true.symm
  · rfl
  · rw [inter_always]
    exact vain.resolve_right Bool.false_ne_true.symm
  · rw [inter_never]
    rfl

/-- What the domain leaves of a constraint is sure or in vain as the constraint is. -/
theorem Outright.holds_simplify (fits : a.Fits P kind) (outright : a.Outright d key b) :
    a.simplify.holds d key = b := by
  cases fits with
  | ratio loose =>
    cases b with
    | true => rw [simplify, Interval.Wide.bound ends outright loose, ofBoundedRatios, holds_always]
    | false => rw [simplify, Interval.Low.bound ends outright loose, ofBoundedRatios, holds_never]
  | plain suits =>
    rw [Constraint.holds_simplify valid.sound_sides known suits.sides]
    exact suits.outright_iff.1 outright

omit valid known in
/-- A sure constraint that still asks for something inside the domain asks for no ratio. -/
theorem Outright.suits_simplify (fits : a.Fits P kind) (sure : a.Outright d key true)
    (asks : a.simplify ≠ .always) : a.simplify.Suits (fun _ => False) kind := by
  cases fits with
  | ratio loose =>
    refine absurd ?_ asks
    rw [simplify, Interval.Wide.bound ends sure loose]
    rfl
  | plain suits => exact suits.simplify_of fun interval same => absurd same suits.noRatio

omit valid known in
theorem Fits.simplify (fits : a.Fits P kind) : a.simplify.Fits P kind := by
  cases fits with
  | @ratio interval loose =>
    rw [Constraint.simplify]
    cases left : interval.bound ratioDomain with
    | whole => exact .plain .always
    | nothing => exact .plain .never
    | part part =>
      exact .ratio (loose.inter? (Interval.loose_ratioDomain ends) (Interval.inter?_of_bound left))
  | plain suits =>
    exact .plain (suits.simplify_of fun interval same => absurd same suits.noRatio)

omit valid ends in
theorem Outright.not_isContradiction (fits : a.Fits P kind) (sure : a.Outright d key true) :
    a.isContradiction = false := by
  cases fits with
  | ratio loose => rfl
  | plain suits =>
    rw [← Bool.not_eq_true]
    intro never
    have sides : a.Suits (d.Sides key) kind := suits.sides
    rw [suits.outright_iff, not_holds_of_isContradiction known sides never] at sure
    cases sure

omit valid in
theorem Fits.negate (fits : a.Fits P kind) {part : Clause} (mem : part ∈ a.negate key) :
    part = Clause.top ∨ ∃ c : Constraint, c.Fits P kind ∧ part = Clause.single key c := by
  cases fits with
  | ratio loose =>
    obtain ⟨interval, gap, rfl⟩ := List.mem_map.1 mem
    exact .inr ⟨_, .ratio (loose.complement ends gap), rfl⟩
  | plain suits =>
    refine (suits_negate_of known (fun interval same => absurd same suits.noRatio) suits
      mem).imp_right ?_
    rintro ⟨c, suits', rfl⟩
    exact ⟨c, .plain suits', rfl⟩

end Operations

end Constraint

namespace Clause

variable {d : Device} {P : String → Ratio → Prop} {key : String} {kind : FeatureKind}
  {a b c : Clause} {as bs cs done : List Clause}

structure Fits (P : String → Ratio → Prop) (c : Clause) : Prop where
  readable : c.isInvalid = false
  tests : ∀ key x, c.tests.get? key = some x →
    ∃ kind, FeatureTable.kind? key = some kind ∧ x.Fits (P key) kind

/-- A clause that holds on a device whatever the ratios of the device are. -/
structure Sure (d : Device) (c : Clause) : Prop where
  tag : c.tag.all (·.holds d.mediaType) = true
  tests : ∀ key x, c.tests.get? key = some x → x.Outright d key true

/-- A clause that fails on a device whatever the ratios of the device are. -/
def Vain (d : Device) (c : Clause) : Prop :=
  ∃ key x, c.tests.get? key = some x ∧ x.Outright d key false

theorem fits_top : top.Fits P := ⟨rfl, fun _ _ found => by cases found⟩

theorem sure_top : top.Sure d := ⟨rfl, fun _ _ found => by cases found⟩

theorem get?_single_eq_some {j : String} {x y : Constraint} :
    (single key x).tests.get? j = some y ↔ j = key ∧ x = y := by
  rw [single, KeyMap.get?_single]
  split <;> simp_all

theorem fits_single (known : FeatureTable.kind? key = some kind) {x : Constraint}
    (fits : x.Fits (P key) kind) : (single key x).Fits P := by
  refine ⟨rfl, fun j y found => ?_⟩
  obtain ⟨rfl, rfl⟩ := get?_single_eq_some.1 found
  exact ⟨kind, known, fits⟩

theorem sure_single {x : Constraint} (sure : x.Outright d key true) : (single key x).Sure d := by
  refine ⟨rfl, fun j y found => ?_⟩
  obtain ⟨rfl, rfl⟩ := get?_single_eq_some.1 found
  exact sure

theorem vain_single {x : Constraint} (vain : x.Outright d key false) : (single key x).Vain d :=
  ⟨key, x, get?_single_eq_some.2 ⟨rfl, rfl⟩, vain⟩

end Clause

section Negation

variable {d : Device} {P : Ratio → Prop} {key : String} {kind : FeatureKind} {a : Constraint}
  (valid : d.Valid) (ends : Ratio.Ends P) (known : FeatureTable.kind? key = some kind)

include valid ends known

/-- All that is outside of a sure constraint is in vain. -/
theorem Constraint.Outright.vain_negate (fits : a.Fits P kind) (sure : a.Outright d key true) :
    ∀ part ∈ a.negate key, part.Vain d := by
  intro part mem
  cases fits with
  | ratio loose =>
    obtain ⟨interval, gap, rfl⟩ := List.mem_map.1 mem
    rw [Interval.Wide.complement ends sure loose] at gap
    cases gap
  | plain suits =>
    have none := Constraint.anyHolds_negate valid.sound_sides known suits.sides
    rw [suits.outright_iff.1 sure, Clause.anyHolds, Bool.not_true, List.any_eq_false] at none
    rcases Constraint.suits_negate_of known (fun interval same => absurd same suits.noRatio) suits
      mem with rfl | ⟨c, suits', rfl⟩
    · exact absurd Clause.holds_top (none _ mem)
    · have fails := none _ mem
      rw [Clause.holds_single, Bool.not_eq_true] at fails
      exact Clause.vain_single (suits'.outright_iff.2 fails)

/-- Something outside of a constraint in vain is sure. -/
theorem Constraint.Outright.sure_negate (fits : a.Fits P kind) (vain : a.Outright d key false) :
    ∃ part ∈ a.negate key, part.Sure d := by
  cases fits with
  | ratio loose =>
    obtain ⟨interval, gap, wide⟩ := Interval.Low.exists_complement ends vain loose
    exact ⟨_, List.mem_map_of_mem gap, Clause.sure_single wide⟩
  | plain suits =>
    have some := Constraint.anyHolds_negate valid.sound_sides known suits.sides
    rw [suits.outright_iff.1 vain, Clause.anyHolds, Bool.not_false, List.any_eq_true] at some
    obtain ⟨part, mem, holds⟩ := some
    refine ⟨part, mem, ?_⟩
    rcases Constraint.suits_negate_of known (fun interval same => absurd same suits.noRatio) suits
      mem with rfl | ⟨c, suits', rfl⟩
    · exact Clause.sure_top
    · rw [Clause.holds_single] at holds
      exact Clause.sure_single (suits'.outright_iff.2 holds)

end Negation

namespace Clause

variable {d : Device} {P : String → Ratio → Prop} {a b c : Clause}
  {as bs cs done : List Clause}

theorem Fits.both {key : String} {x y : Constraint} (left : a.Fits P) (right : b.Fits P)
    (first : a.tests.get? key = some x) (second : b.tests.get? key = some y) :
    ∃ kind, FeatureTable.kind? key = some kind ∧ x.Fits (P key) kind ∧ y.Fits (P key) kind := by
  obtain ⟨kind, known, hx⟩ := left.tests key x first
  obtain ⟨kind', known', hy⟩ := right.tests key y second
  cases known.symm.trans known'
  exact ⟨kind, known, hx, hy⟩

theorem Fits.and (left : a.Fits P) (right : b.Fits P) : (a.and b).Fits P := by
  refine ⟨by rw [isInvalid_and, left.readable, right.readable, Bool.or_self], fun key z found => ?_⟩
  rw [get?_and] at found
  cases first : a.tests.get? key with
  | none =>
    rw [first] at found
    exact right.tests key z found
  | some x =>
    cases second : b.tests.get? key with
    | none =>
      rw [first, second] at found
      cases found
      exact left.tests key _ first
    | some y =>
      rw [first, second] at found
      cases found
      obtain ⟨kind, known, hx, hy⟩ := left.both right first second
      exact ⟨kind, known, hx.inter hy⟩

theorem Fits.tagged (fits : c.Fits P) (tag : MediaTag) : (c.tagged tag).Fits P :=
  ⟨fits.readable, fits.tests⟩

theorem Sure.tagged {tag : MediaTag} (sure : c.Sure d) (medium : tag.holds d.mediaType = true) :
    (c.tagged tag).Sure d := ⟨medium, sure.tests⟩

theorem Vain.tagged (vain : c.Vain d) (tag : MediaTag) : (c.tagged tag).Vain d := vain

section Operations

variable (valid : d.Valid) (ends : ∀ key, Ratio.Ends (P key))

include valid ends

theorem Sure.and (left : a.Fits P) (right : b.Fits P) (first : a.Sure d) (second : b.Sure d) :
    (a.and b).Sure d := by
  refine ⟨?_, fun key z found => ?_⟩
  · rw [Clause.and]
    cases tagged : b.tag with
    | none => exact first.tag
    | some tag => simpa [tagged] using second.tag
  · rw [get?_and] at found
    cases one : a.tests.get? key with
    | none =>
      rw [one] at found
      exact second.tests key z found
    | some x =>
      have hx := first.tests key x one
      cases two : b.tests.get? key with
      | none =>
        rw [one, two] at found
        cases found
        exact hx
      | some y =>
        rw [one, two] at found
        cases found
        obtain ⟨kind, known, fits, fits'⟩ := left.both right one two
        exact Constraint.Outright.inter_true valid (ends key) known fits fits' hx
          (second.tests key y two)

theorem Vain.and (left : a.Fits P) (right : b.Fits P) (vain : a.Vain d ∨ b.Vain d) :
    (a.and b).Vain d := by
  rcases vain with ⟨key, x, one, hx⟩ | ⟨key, y, two, hy⟩
  · cases two : b.tests.get? key with
    | none => exact ⟨key, x, by rw [get?_and, one, two]; rfl, hx⟩
    | some y =>
      obtain ⟨kind, known, fits, fits'⟩ := left.both right one two
      exact ⟨key, x.inter y, by rw [get?_and, one, two]; rfl,
        Constraint.Outright.inter_false valid (ends key) known fits fits' (.inl hx)⟩
  · cases one : a.tests.get? key with
    | none => exact ⟨key, y, by rw [get?_and, one, two]; rfl, hy⟩
    | some x =>
      obtain ⟨kind, known, fits, fits'⟩ := left.both right one two
      exact ⟨key, x.inter y, by rw [get?_and, one, two]; rfl,
        Constraint.Outright.inter_false valid (ends key) known fits fits' (.inr hy)⟩

omit valid in
theorem Fits.negate (fits : c.Fits P) : ∀ part ∈ c.negate, part.Fits P := by
  intro part mem
  rcases mem_negate fits.readable mem with rfl | ⟨key, x, found, mem⟩
  · exact fits_top
  · obtain ⟨kind, known, suits⟩ := fits.tests key x found
    rcases suits.negate (ends key) known mem with rfl | ⟨y, fits', rfl⟩
    · exact fits_top
    · exact fits_single known fits'

theorem Sure.vain_negate (fits : c.Fits P) (sure : c.Sure d) : ∀ part ∈ c.negate, part.Vain d := by
  have possible : ¬c.tests.values.any Constraint.isNever = true := by
    intro never
    obtain ⟨key, x, found, never⟩ := KeyMap.any_values.1 never
    have outright := sure.tests key x found
    cases x <;> cases never
    cases outright
  intro part mem
  rw [Clause.negate, fits.readable, if_neg Bool.false_ne_true, if_neg possible] at mem
  obtain ⟨⟨key, x⟩, entry, mem⟩ := List.mem_flatMap.1 mem
  have found := KeyMap.mem_entries.1 entry
  obtain ⟨kind, known, fits'⟩ := fits.tests key x found
  exact (sure.tests key x found).vain_negate valid (ends key) known fits' part mem

theorem Vain.sure_negate (fits : c.Fits P) (vain : c.Vain d) : ∃ part ∈ c.negate, part.Sure d := by
  rw [Clause.negate, fits.readable, if_neg Bool.false_ne_true]
  split
  · exact ⟨top, List.mem_singleton.2 rfl, sure_top⟩
  · obtain ⟨key, x, found, outright⟩ := vain
    obtain ⟨kind, known, fits'⟩ := fits.tests key x found
    obtain ⟨part, mem, sure⟩ := outright.sure_negate valid (ends key) known fits'
    exact ⟨part, List.mem_flatMap.2 ⟨(key, x), KeyMap.mem_entries.2 found, mem⟩, sure⟩

omit valid ends in
theorem Sure.not_isContradiction (fits : c.Fits P) (sure : c.Sure d) :
    c.isContradiction = false := by
  rw [← Bool.not_eq_true]
  intro never
  obtain ⟨key, x, found, never⟩ := KeyMap.any_values.1 never
  obtain ⟨kind, known, fits'⟩ := fits.tests key x found
  rw [(sure.tests key x found).not_isContradiction known fits'] at never
  cases never

end Operations

/-- What a verdict that is reached without a device says of clauses: after a yes one of them is
sure, and after a no all of them are in vain. -/
structure Shows (d : Device) (P : String → Ratio → Prop) (k : Kleene) (cs : List Clause) :
    Prop where
  fits : ∀ c ∈ cs, c.Fits P
  yes : k = .yes → ∃ c ∈ cs, c.Sure d
  no : k = .no → ∀ c ∈ cs, c.Vain d

variable {k l : Kleene}

theorem shows_unknown (fits : ∀ c ∈ cs, c.Fits P) : Shows d P .unknown cs :=
  ⟨fits, fun yes => Kleene.noConfusion yes, fun no => Kleene.noConfusion no⟩

theorem shows_yes (fits : ∀ c ∈ cs, c.Fits P) (mem : c ∈ cs) (sure : c.Sure d) :
    Shows d P .yes cs :=
  ⟨fits, fun _ => ⟨c, mem, sure⟩, fun no => Kleene.noConfusion no⟩

theorem shows_no (fits : ∀ c ∈ cs, c.Fits P) (vain : ∀ c ∈ cs, c.Vain d) : Shows d P .no cs :=
  ⟨fits, fun yes => Kleene.noConfusion yes, fun _ => vain⟩

/-- Of clauses that ask for no ratio, a verdict shows what holds on the device. -/
theorem shows_of_plain (plain : ∀ c ∈ cs, c.Plain fun _ _ => False)
    (right : k ≠ .unknown → k = Kleene.ofBool (anyHolds d cs)) : Shows d P k cs where
  fits c mem := by
    refine ⟨(plain c mem).readable, fun key x found => ?_⟩
    obtain ⟨kind, known, suits⟩ := (plain c mem).suits key x found
    exact ⟨kind, known, .plain suits⟩
  yes yes := by
    have whole := (right (by rw [yes]; decide)).symm.trans yes
    obtain ⟨c, mem, holds⟩ := List.any_eq_true.1 (Kleene.ofBool_eq_yes.1 whole)
    refine ⟨c, mem, by rw [(plain c mem).untagged]; rfl, fun key x found => ?_⟩
    obtain ⟨kind, known, suits⟩ := (plain c mem).suits key x found
    have met := (holds_iff.1 holds).2.2 key
    rw [found, Option.all_some] at met
    exact suits.outright_iff.2 met
  no no c mem := by
    have whole := (right (by rw [no]; decide)).symm.trans no
    have fails := List.any_eq_false.1 (Kleene.ofBool_eq_no.1 whole) c mem
    rw [(plain c mem).holds_iff] at fails
    obtain ⟨key, fails⟩ := not_forall.1 fails
    cases found : c.tests.get? key with
    | none => exact absurd (by rw [found]; rfl) fails
    | some x =>
      obtain ⟨kind, known, suits⟩ := (plain c mem).suits key x found
      rw [found, Option.all_some, Bool.not_eq_true] at fails
      exact ⟨key, x, found, suits.outright_iff.2 fails⟩

theorem shows_top : Shows d P .yes [top] :=
  shows_yes (by simp [fits_top]) List.mem_cons_self sure_top

theorem shows_nil : Shows d P .no [] := shows_no (by simp) (by simp)

/-- A verdict on a list is one on its first clause or on the others. -/
theorem Shows.exists_cons (shows : Shows d P k (c :: cs)) :
    ∃ l₁ l₂, k = l₁.or l₂ ∧ Shows d P l₁ [c] ∧ Shows d P l₂ cs := by
  have first : ∀ c' ∈ [c], c'.Fits P := by
    simpa using shows.fits c List.mem_cons_self
  have others : ∀ c' ∈ cs, c'.Fits P := fun c' mem => shows.fits c' (List.mem_cons_of_mem _ mem)
  cases k with
  | unknown => exact ⟨.unknown, .unknown, rfl, shows_unknown first, shows_unknown others⟩
  | no =>
    have vain := List.forall_mem_cons.1 (shows.no rfl)
    exact ⟨.no, .no, rfl, shows_no first (by simpa using vain.1), shows_no others vain.2⟩
  | yes =>
    obtain ⟨c', mem, sure⟩ := shows.yes rfl
    rcases List.mem_cons.1 mem with rfl | mem
    · exact ⟨.yes, .unknown, rfl, shows_yes first List.mem_cons_self sure, shows_unknown others⟩
    · exact ⟨.unknown, .yes, rfl, shows_unknown first, shows_yes others mem sure⟩

theorem Shows.or (left : Shows d P k as) (right : Shows d P l bs) :
    Shows d P (k.or l) (as ++ bs) where
  fits c mem := (List.mem_append.1 mem).elim (left.fits c) (right.fits c)
  yes whole := by
    rcases Kleene.or_eq_yes.1 whole with yes | yes
    · obtain ⟨c, mem, sure⟩ := left.yes yes
      exact ⟨c, List.mem_append_left _ mem, sure⟩
    · obtain ⟨c, mem, sure⟩ := right.yes yes
      exact ⟨c, List.mem_append_right _ mem, sure⟩
  no whole c mem := by
    obtain ⟨first, second⟩ := Kleene.or_eq_no.1 whole
    exact (List.mem_append.1 mem).elim (left.no first c) (right.no second c)

section Connectives

variable (valid : d.Valid) (ends : ∀ key, Ratio.Ends (P key))

include valid ends

theorem Shows.and (left : Shows d P k as) (right : Shows d P l bs) :
    Shows d P (k.and l) (product as bs) where
  fits c mem := by
    obtain ⟨a, ha, b, hb, rfl⟩ := mem_product.1 mem
    exact (left.fits a ha).and (right.fits b hb)
  yes whole := by
    obtain ⟨first, second⟩ := Kleene.and_eq_yes.1 whole
    obtain ⟨a, ha, sure⟩ := left.yes first
    obtain ⟨b, hb, sure'⟩ := right.yes second
    exact ⟨a.and b, mem_product.2 ⟨a, ha, b, hb, rfl⟩,
      sure.and valid ends (left.fits a ha) (right.fits b hb) sure'⟩
  no whole c mem := by
    obtain ⟨a, ha, b, hb, rfl⟩ := mem_product.1 mem
    refine Vain.and valid ends (left.fits a ha) (right.fits b hb) ?_
    exact (Kleene.and_eq_no.1 whole).imp (fun no => left.no no a ha) fun no => right.no no b hb

/-- A step of a negation: one of the clauses before, and the failure of the next clause. -/
private theorem Shows.andNot (left : Shows d P k done) (right : Shows d P l [c]) :
    Shows d P (k.and l.not) (dropContradictions (product done c.negate)) := by
  have fits := right.fits c (List.mem_singleton.2 rfl)
  have turned : Shows d P l.not c.negate := by
    refine ⟨fits.negate ends, fun no => ?_, fun yes => ?_⟩
    · exact (right.no (Kleene.not_eq_yes.1 no) c (List.mem_singleton.2 rfl)).sure_negate valid ends
        fits
    · obtain ⟨c', mem, sure⟩ := right.yes (Kleene.not_eq_no.1 yes)
      cases List.mem_singleton.1 mem
      exact sure.vain_negate valid ends fits
  have both := left.and valid ends turned
  refine ⟨fun part mem => both.fits part (List.mem_filter.1 mem).1, fun yes => ?_,
    fun no part mem => both.no no part (List.mem_filter.1 mem).1⟩
  obtain ⟨part, mem, sure⟩ := both.yes yes
  refine ⟨part, List.mem_filter.2 ⟨mem, ?_⟩, sure⟩
  simp [sure.not_isContradiction (both.fits part mem)]

private theorem Shows.foldl (left : Shows d P k done) (right : Shows d P l cs) :
    Shows d P (k.and l.not)
      (cs.foldl (fun done c => dropContradictions (product done c.negate)) done) := by
  induction cs generalizing done k l with
  | nil =>
    refine ⟨left.fits, fun whole => left.yes (Kleene.and_eq_yes.1 whole).1, fun whole => ?_⟩
    refine left.no ((Kleene.and_eq_no.1 whole).resolve_right fun no => ?_)
    obtain ⟨c, mem, _⟩ := right.yes (Kleene.not_eq_no.1 no)
    cases mem
  | cons c cs ih =>
    obtain ⟨l₁, l₂, rfl, first, others⟩ := right.exists_cons
    rw [Kleene.not_or, ← Kleene.and_assoc]
    exact ih (left.andNot valid ends first) others

theorem Shows.not (shows : Shows d P k cs) : Shows d P k.not (negateAll cs) := by
  have turned := shows_top.foldl valid ends shows
  rwa [Kleene.yes_and] at turned

end Connectives

/-- Under a tag, what was in vain stays so, and what was sure is sure on the devices of the tag. -/
theorem Shows.tagged (shows : Shows d P k cs) (tag : MediaTag) (possible : l ≠ .no)
    (medium : l = .yes → tag.holds d.mediaType = true) :
    Shows d P (l.and k) (cs.map fun c => c.tagged tag) where
  fits := by
    rw [List.forall_mem_map]
    exact fun c mem => (shows.fits c mem).tagged tag
  yes whole := by
    obtain ⟨yes, yes'⟩ := Kleene.and_eq_yes.1 whole
    obtain ⟨c, mem, sure⟩ := shows.yes yes'
    exact ⟨c.tagged tag, List.mem_map_of_mem mem, sure.tagged (medium yes)⟩
  no whole := by
    rw [List.forall_mem_map]
    have none := shows.no ((Kleene.and_eq_no.1 whole).resolve_left possible)
    exact fun c mem => (none c mem).tagged tag

section Simplify

variable (valid : d.Valid) (ends : ∀ key, Ratio.Ends (P key))

theorem Suits.sides (suits : c.Suits fun _ _ => False) : c.Suits d.Sides := by
  intro key x found
  obtain ⟨kind, known, suits⟩ := suits key x found
  exact ⟨kind, known, suits.sides⟩

include ends

theorem Fits.simplify (fits : c.Fits P) : c.simplify.Fits P := by
  refine ⟨rfl, fun key x found => ?_⟩
  obtain ⟨before, written, rfl, _⟩ := get?_simplify_eq_some.1 found
  obtain ⟨kind, known, fits⟩ := fits.tests key before written
  exact ⟨kind, known, fits.simplify (ends key)⟩

/-- What is left of a sure clause asks for no ratio. -/
theorem Sure.suits_simplify (fits : c.Fits P) (sure : c.Sure d) :
    c.simplify.Suits fun _ _ => False := by
  intro key x found
  obtain ⟨before, written, rfl, asks⟩ := get?_simplify_eq_some.1 found
  obtain ⟨kind, known, fits⟩ := fits.tests key before written
  exact ⟨kind, known, (sure.tests key before written).suits_simplify (ends key) fits asks⟩

include valid

theorem Sure.holds_simplify (fits : c.Fits P) (sure : c.Sure d) : c.simplify.holds d = true := by
  refine holds_iff.2 ⟨rfl, (tag_simplify c).trans sure.tag, fun key => ?_⟩
  rw [Option.all_eq_true]
  intro x found
  obtain ⟨before, written, rfl, _⟩ := get?_simplify_eq_some.1 found
  obtain ⟨kind, known, fits⟩ := fits.tests key before written
  exact (sure.tests key before written).holds_simplify valid (ends key) known fits

theorem Vain.holds_simplify (fits : c.Fits P) (vain : c.Vain d) : c.simplify.holds d = false := by
  obtain ⟨key, x, written, outright⟩ := vain
  obtain ⟨kind, known, fits⟩ := fits.tests key x written
  have fails := outright.holds_simplify valid (ends key) known fits
  rw [← Bool.not_eq_true]
  intro holds
  have met := (holds_iff.1 holds).2.2 key
  have asks : x.simplify ≠ .always := by
    intro all
    rw [all] at fails
    cases fails
  rw [get?_simplify_eq_some.2 ⟨x, written, rfl, asks⟩, Option.all_some, fails] at met
  cases met

theorem Sure.isEmpty_falseKeys (fits : c.Fits P) (sure : c.Sure d) :
    c.falseKeys.isEmpty = true := by
  refine KeyMap.isEmpty_keys.2 fun key => ?_
  rw [KeyMap.get?_filterMap]
  cases found : c.tests.get? key with
  | none => rfl
  | some x =>
    obtain ⟨kind, known, fits⟩ := fits.tests key x found
    have met := (sure.tests key x found).holds_simplify valid (ends key) known fits
    rw [Option.bind_some]
    cases simple : x.simplify with
    | never =>
      rw [simple] at met
      cases met
    | _ => rfl

omit ends in
/-- What covers a clause that holds and asks for no ratio is such a clause, too. -/
private theorem live_of_covers (fits : a.Fits P) (covers : a.covers b = true)
    (live : b.holds d = true ∧ b.Suits fun _ _ => False) :
    a.holds d = true ∧ a.Suits fun _ _ => False := by
  have suits : a.Suits fun _ _ => False := by
    intro key x found
    obtain ⟨kind, known, fits⟩ := fits.tests key x found
    refine ⟨kind, known, ?_⟩
    cases fits with
    | plain suits => exact suits
    | ratio loose =>
      obtain ⟨y, found', covers⟩ := (covers_iff.1 covers).2 key _ found
      have met := (holds_iff.1 live.1).2.2 key
      rw [found', Option.all_some] at met
      rcases (live.2.of_kind known found').always_or_never with rfl | rfl
      · cases covers
      · cases met
  exact ⟨holds_of_covers valid.sound_sides fits.readable suits.sides live.2.sides covers live.1,
    suits⟩

omit ends in
/-- Of the clauses of a list, one that holds and asks for no ratio is covered by such a one that is
kept. -/
theorem anyHolds_dropRedundant_of_live (fits : ∀ c ∈ cs, c.Fits P) (mem : c ∈ cs)
    (holds : c.holds d = true) (suits : c.Suits fun _ _ => False) :
    anyHolds d (dropRedundant [] cs) = true := by
  have up (x : Clause) (hx : x ∈ cs) (y : Clause) (covers : x.covers y = true)
      (live : y.holds d = true ∧ y.Suits fun _ _ => False) :=
    live_of_covers valid (fits x hx) covers live
  obtain ⟨kept, inside, live, _⟩ := exists_kept_above
    (fun x => x.holds d = true ∧ x.Suits fun _ _ => False)
    (fun x _ live => covers_refl valid.sound_sides live.2.sides live.1)
    (fun x hx y hy z _ live first second => by
      have next := up y hy z second live
      exact covers_trans valid.sound_sides (up x hx y first next).2.sides next.2.sides
        live.2.sides first second)
    (fun x hx y _ covers live => up x hx y covers live) mem ⟨holds, suits⟩
  exact List.any_eq_true.2 ⟨kept, inside, live.1⟩

/-- A verdict that is reached without a device is what the normal form of the clauses says on the
device. -/
theorem Shows.anyHolds_ofClauses (shows : Shows d P k cs) (known : k ≠ .unknown) :
    k = Kleene.ofBool (anyHolds d (Outcome.ofClauses cs).clauses) := by
  have fits : ∀ c ∈ ((cs.filter fun c => !c.isInvalid).filter fun c => c.falseKeys.isEmpty).map
      simplify, ∃ before ∈ cs, before.simplify = c ∧ c.Fits P := by
    intro c mem
    simp only [List.mem_map, List.mem_filter] at mem
    obtain ⟨before, ⟨⟨mem, _⟩, _⟩, rfl⟩ := mem
    exact ⟨before, mem, rfl, (shows.fits before mem).simplify ends⟩
  cases k with
  | unknown => exact absurd rfl known
  | yes =>
    obtain ⟨c, mem, sure⟩ := shows.yes rfl
    have suited := shows.fits c mem
    have met := anyHolds_dropRedundant_of_live valid
      (fun c mem => (fits c mem).elim fun _ found => found.2.2)
      (List.mem_map_of_mem (List.mem_filter.2 ⟨List.mem_filter.2 ⟨mem, by
        rw [suited.readable, Bool.not_false]⟩, sure.isEmpty_falseKeys valid ends suited⟩))
      (sure.holds_simplify valid ends suited) (sure.suits_simplify ends suited)
    rw [Outcome.ofClauses, met, Kleene.ofBool]
  | no =>
    have fails : anyHolds d (Outcome.ofClauses cs).clauses = false := by
      refine List.any_eq_false.2 fun c kept => ?_
      obtain ⟨before, mem, rfl, _⟩ := fits c (mem_of_mem_dropRedundant kept)
      rw [(shows.no rfl before mem).holds_simplify valid ends (shows.fits before mem)]
      exact Bool.false_ne_true
    rw [fails, Kleene.ofBool]

end Simplify

end Clause

end MediaQuery
