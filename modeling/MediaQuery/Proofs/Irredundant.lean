import MediaQuery.Proofs.Cut
import MediaQuery.Proofs.Domain

set_option autoImplicit false

/- Which clauses a normal form keeps. It keeps no two clauses of which one covers the other, and for
every clause one that covers it; and two clauses that cover each other are the same. So lists of
clauses, each of which is covered by one of the other list, have the same normal form, however they
are arranged. -/
namespace MediaQuery

/-- For each feature, ratios that are totally ordered together with the ends of their domain. -/
structure Ratio.Ordered (ratios : String → Ratio → Prop) : Prop where
  total : ∀ key, Endpoint.TotalOn (ratios key)
  ends : ∀ key, ratioDomain.EndsIn (ratios key)

/-- For each feature, ratios that are totally ordered with the ends of their domain, where ratios on
one level are the same. -/
structure Ratio.Scale (ratios : String → Ratio → Prop) : Prop where
  total : ∀ key, Endpoint.TotalOn (ratios key)
  ends : ∀ key, ratioDomain.EndsIn (ratios key)
  separated : ∀ {key r s}, ratios key r → ratios key s → Ratio.order r s = .eq → r.same s = true

/-- A device whose ratios are the least of their domain, so that they are among all such ratios. -/
def Device.slit : Device :=
  { widthPx := 0, heightPx := 1, deviceWidthPx := 0, deviceHeightPx := 1 }

theorem Ratio.Ordered.sound {ratios : String → Ratio → Prop} (ordered : Ratio.Ordered ratios) :
    Device.slit.Sound ratios where
  valid := Device.validate_eq_ok.1 rfl
  total _ := ordered.total _
  ends _ := ordered.ends _
  among {key r} found := by
    have least : r = ratioDomain.min := by
      unfold Device.ratio? at found
      split at found <;> cases found <;> rfl
    rw [least]
    exact (ordered.ends key).min

theorem Ratio.Scale.sound {ratios : String → Ratio → Prop} (scale : Ratio.Scale ratios) :
    Device.slit.Sound ratios :=
  Ratio.Ordered.sound ⟨scale.total, scale.ends⟩

theorem Number.same_of_order {x y : Float} (hx : isNaN x = false) (hy : isNaN y = false)
    (level : order x y = .eq) : same x y = true := by
  rw [order_eq_compare_rank hx hy, compare_eq_iff_eq] at level
  simp [same, hx, hy, level]

theorem GamutMask.inter_comm (x y : GamutMask) : x.inter y = y.inter x := by
  simp [inter, Bool.and_comm]

namespace Interval

variable {α : Type} [Endpoint α] {P : α → Prop} {a b : Interval α}

theorem sameAs_of_covers (total : Endpoint.TotalOn P) (left : a.EndsIn P) (right : b.EndsIn P)
    (first : Constraint.coversInterval a b = true)
    (second : Constraint.coversInterval b a = true) : a.sameAs b = true := by
  obtain ⟨β, _, level, leveled⟩ := total.exists_level
  rw [coversInterval_iff_span leveled left right] at first
  rw [coversInterval_iff_span leveled right left] at second
  exact (sameAs_iff_span leveled left right second.1).2 (second.2.antisymm first.2)

theorem beq_of_sameAs {eq : α → α → Bool}
    (separated : ∀ x y, P x → P y → Endpoint.compare x y = .eq → eq x y = true)
    (left : a.EndsIn P) (right : b.EndsIn P) (same : a.sameAs b = true) : a.beq eq b = true := by
  simp only [sameAs, Bool.and_eq_true, beq_iff_eq] at same
  obtain ⟨⟨⟨lower, upper⟩, min⟩, max⟩ := same
  simp [beq, lower, upper, separated _ _ left.min right.min min,
    separated _ _ left.max right.max max]

end Interval

namespace Constraint

variable {ratios : String → Ratio → Prop} {key : String} {kind : FeatureKind} {a b : Constraint}

theorem same_of_covers (scale : Ratio.Scale ratios) (left : a.Suits (ratios key) kind)
    (right : b.Suits (ratios key) kind) (first : a.covers b = true) (second : b.covers a = true) :
    a.same b = true := by
  cases left with
  | always =>
    cases right with
    | always => rfl
    | _ => cases second
  | never =>
    cases right with
    | never => rfl
    | _ => cases first
  | discrete listed =>
    cases right with
    | discrete listed' => exact first
    | always => cases first
    | never => cases second
  | gamut =>
    cases right with
    | always => cases first
    | never => cases second
    | gamut =>
      simp only [covers, beq_iff_eq] at first second
      rw [GamutMask.inter_comm, second] at first
      simp only [same, beq_iff_eq]
      exact first
  | number ends =>
    cases right with
    | always => cases first
    | never => cases second
    | number ends' =>
      have same := Interval.sameAs_of_covers Number.totalOn ends ends' first second
      exact Interval.beq_of_sameAs (fun x y hx hy => Number.same_of_order hx hy) ends ends' same
  | ratio ends =>
    cases right with
    | always => cases first
    | never => cases second
    | ratio ends' =>
      have same := Interval.sameAs_of_covers (scale.total key) ends ends' first second
      exact Interval.beq_of_sameAs (fun x y => scale.separated) ends ends' same

end Constraint

namespace Clause

variable {ratios : String → Ratio → Prop} {a b c x : Clause} {xs ys : List Clause}

theorem mem_falseKeys {key : String} : key ∈ c.falseKeys ↔
    ∃ constraint, c.tests.get? key = some constraint ∧ constraint.simplify.isNever = true := by
  rw [falseKeys, KeyMap.mem_keys, KeyMap.get?_filterMap]
  cases c.tests.get? key with
  | none => simp
  | some constraint => simp

theorem covers_self_of_simplify (c : Clause) : c.simplify.covers c.simplify = true := by
  refine covers_iff.2 ⟨fun _ tag => tag, fun key constraint found => ⟨constraint, found, ?_⟩⟩
  obtain ⟨before, _, rfl, _⟩ := get?_simplify_eq_some.1 found
  exact before.covers_self_of_simplify

/-- Readable clauses that cover each other are the same. -/
theorem same_of_covers (scale : Ratio.Scale ratios) (left : a.Suits ratios)
    (right : b.Suits ratios) (readable : a.invalid = b.invalid) (first : a.covers b = true)
    (second : b.covers a = true) : a.same b = true := by
  rw [covers_iff] at first second
  have tags : a.tag = b.tag := by
    cases tag : a.tag with
    | some t => rw [first.1 t tag]
    | none =>
      cases tag' : b.tag with
      | none => rfl
      | some t => rw [second.1 t tag'] at tag; cases tag
  have names (key : String) : key ∈ a.tests.keys ↔ key ∈ b.tests.keys := by
    simp only [KeyMap.mem_keys, Option.isSome_iff_exists]
    constructor
    · rintro ⟨constraint, found⟩
      obtain ⟨other, found, _⟩ := first.2 key constraint found
      exact ⟨other, found⟩
    · rintro ⟨constraint, found⟩
      obtain ⟨other, found, _⟩ := second.2 key constraint found
      exact ⟨other, found⟩
  have tests : a.tests.same Constraint.same b.tests = true := by
    refine KeyMap.same_of_get? names fun key x y found found' => ?_
    obtain ⟨y', again, covers⟩ := first.2 key x found
    obtain ⟨x', again', covers'⟩ := second.2 key y found'
    cases found'.symm.trans again
    cases found.symm.trans again'
    obtain ⟨kind, known, hx⟩ := left key x found
    obtain ⟨kind', known', hy⟩ := right key y found'
    cases known.symm.trans known'
    exact Constraint.same_of_covers scale hx hy covers covers'
  rw [same, Bool.and_eq_true, Bool.and_eq_true, beq_iff_eq, beq_iff_eq]
  exact ⟨⟨tags, readable⟩, tests⟩

section Kept

/-- What is kept is covered by no clause that is passed over. -/
private theorem not_covered_of_kept {before : List Clause} (kept : a ∈ dropRedundant before xs)
    (mem : b ∈ before) : b.covers a = false := by
  obtain ⟨front, behind, _, stays⟩ := mem_dropRedundant.1 kept
  rw [isRedundant, Bool.or_eq_false_iff, List.any_eq_false] at stays
  have apart := stays.1 b (List.mem_append_right _ mem)
  simpa using apart

/-- What is kept covers what it is covered by. -/
theorem covers_of_kept (kept : a ∈ dropRedundant [] xs) (mem : b ∈ xs) (above : b.covers a = true) :
    a.covers b = true := by
  obtain ⟨front, behind, rfl, stays⟩ := mem_dropRedundant.1 kept
  rw [isRedundant, Bool.or_eq_false_iff, List.any_eq_false, List.any_eq_false] at stays
  rcases List.mem_append.1 mem with before | mem
  · have apart := stays.1 b (by simp [before])
    exact absurd above apart
  · rcases List.mem_cons.1 mem with rfl | after
    · exact above
    · have level := stays.2 b after
      simpa [above] using level

/-- No clause that is kept covers one that is kept behind it. -/
theorem dropRedundant_pairwise (before xs : List Clause) :
    (dropRedundant before xs).Pairwise fun x y => x.covers y = false := by
  induction xs generalizing before with
  | nil => exact List.Pairwise.nil
  | cons x rest ih =>
    rw [dropRedundant]
    split
    · exact ih (x :: before)
    · refine List.pairwise_cons.2 ⟨fun y kept => ?_, ih (x :: before)⟩
      exact not_covered_of_kept kept List.mem_cons_self

variable {sort : Clause → Prop}

/-- Clauses of a sort on which covering is a preorder. -/
structure Preordered (sort : Clause → Prop) : Prop where
  refl : ∀ {x}, sort x → x.covers x = true
  trans : ∀ {x y z}, sort x → sort y → sort z → x.covers y = true → y.covers z = true →
    x.covers z = true

theorem Preordered.exists_kept (order : Preordered sort) (sorts : ∀ x ∈ xs, sort x)
    (mem : x ∈ xs) : ∃ kept ∈ dropRedundant [] xs, kept.covers x = true := by
  obtain ⟨kept, inside, _, covers⟩ := exists_kept_above sort (fun _ _ => order.refl)
    (fun x hx y hy _ _ hz => order.trans (sorts x hx) (sorts y hy) hz)
    (fun x hx _ _ _ _ => sorts x hx) mem (sorts x mem)
  exact ⟨kept, inside, covers⟩

/-- If each clause of a list is covered by one of another list and the other way round, what is
kept of the first list is kept of the second one, too. -/
theorem Preordered.exists_level (order : Preordered sort) (left : ∀ x ∈ xs, sort x)
    (right : ∀ y ∈ ys, sort y) (up : ∀ x ∈ xs, ∃ y ∈ ys, y.covers x = true)
    (down : ∀ y ∈ ys, ∃ x ∈ xs, x.covers y = true) (kept : a ∈ dropRedundant [] xs) :
    ∃ b ∈ dropRedundant [] ys, a.covers b = true ∧ b.covers a = true := by
  have inside := mem_of_mem_dropRedundant kept
  obtain ⟨y, hy, above⟩ := up a inside
  obtain ⟨b, kept', above'⟩ := order.exists_kept right hy
  have inside' := mem_of_mem_dropRedundant kept'
  obtain ⟨x, hx, above''⟩ := down b inside'
  have higher : b.covers a = true := order.trans (right b inside') (right y hy) (left a inside)
    above' above
  have round : x.covers a = true := order.trans (left x hx) (right b inside') (left a inside)
    above'' higher
  have back : a.covers x = true := covers_of_kept kept hx round
  exact ⟨b, kept', order.trans (left a inside) (left x hx) (right b inside') back above'', higher⟩

/-- A list of clauses that do not cover each other is not longer than a list with a clause on a
level with each of them. -/
private theorem length_le_of_levels (order : Preordered sort) (left : ∀ x ∈ xs, sort x)
    (right : ∀ y ∈ ys, sort y) (apart : xs.Pairwise fun x y => x.covers y = false)
    (levels : ∀ x ∈ xs, ∃ y ∈ ys, x.covers y = true ∧ y.covers x = true) :
    xs.length ≤ ys.length := by
  have place (i : Fin xs.length) : ∃ j : Fin ys.length,
      (xs.get i).covers (ys.get j) = true ∧ (ys.get j).covers (xs.get i) = true := by
    obtain ⟨y, mem, level⟩ := levels (xs.get i) (xs.get_mem i)
    obtain ⟨j, rfl⟩ := List.mem_iff_get.1 mem
    exact ⟨j, level⟩
  choose f level using place
  have distinct (i j : Fin xs.length) (lower : i < j) : f i ≠ f j := by
    intro same
    have covers : (xs.get i).covers (xs.get j) = true := by
      refine order.trans (left _ (xs.get_mem i)) (right _ (ys.get_mem (f i)))
        (left _ (xs.get_mem j)) (level i).1 ?_
      rw [same]
      exact (level j).2
    have split := List.pairwise_iff_get.1 apart i j lower
    rw [covers] at split
    cases split
  have injective : Function.Injective f := by
    intro i j same
    rcases lt_trichotomy i j with lower | equal | upper
    · exact absurd same (distinct i j lower)
    · exact equal
    · exact absurd same.symm (distinct j i upper)
  simpa using Fintype.card_le_of_injective f injective

/-- Lists whose clauses cover each other keep equally many clauses. -/
theorem Preordered.length_kept (order : Preordered sort) (left : ∀ x ∈ xs, sort x)
    (right : ∀ y ∈ ys, sort y) (up : ∀ x ∈ xs, ∃ y ∈ ys, y.covers x = true)
    (down : ∀ y ∈ ys, ∃ x ∈ xs, x.covers y = true) :
    (dropRedundant [] xs).length ≤ (dropRedundant [] ys).length := by
  refine length_le_of_levels order ?_ ?_ (dropRedundant_pairwise [] xs) ?_
  · exact fun x kept => left x (mem_of_mem_dropRedundant kept)
  · exact fun y kept => right y (mem_of_mem_dropRedundant kept)
  · exact fun x kept => order.exists_level left right up down kept

end Kept

/-- A clause that is understood and whose constraints are of the kinds of their features. -/
structure WellTyped (ratios : String → Ratio → Prop) (c : Clause) : Prop where
  readable : c.isInvalid = false
  suits : c.Suits ratios

/-- What the domains leave of a clause of the right kinds. -/
def IsSimple (ratios : String → Ratio → Prop) (c : Clause) : Prop :=
  ∃ b : Clause, b.Suits ratios ∧ b.simplify = c

theorem IsSimple.suits (scale : Ratio.Scale ratios) (simple : c.IsSimple ratios) :
    c.Suits ratios := by
  obtain ⟨b, suits, rfl⟩ := simple
  exact suits.simplify scale.sound

theorem IsSimple.invalid (simple : c.IsSimple ratios) : c.invalid = [] := by
  obtain ⟨b, suits, rfl⟩ := simple
  rfl

theorem preordered_simple (scale : Ratio.Scale ratios) : Preordered (IsSimple ratios) where
  refl := by
    rintro x ⟨b, _, rfl⟩
    exact covers_self_of_simplify b
  trans hx hy hz := covers_trans scale.sound (hx.suits scale) (hy.suits scale) (hz.suits scale)

end Clause

namespace Outcome

variable {ratios : String → Ratio → Prop} {cs ds : List Clause} {x : Clause}

/-- The clauses among which a normal form chooses: the readable ones that ask for nothing
impossible, inside their domains. -/
def candidates (cs : List Clause) : List Clause :=
  ((cs.filter fun c => !c.isInvalid).filter fun c => c.falseKeys.isEmpty).map Clause.simplify

theorem clauses_ofClauses (cs : List Clause) :
    (ofClauses cs).clauses = Clause.dropRedundant [] (candidates cs) := rfl

theorem mem_candidates_iff : x ∈ candidates cs ↔
    ∃ c ∈ cs, c.isInvalid = false ∧ c.falseKeys = [] ∧ c.simplify = x := by
  simp only [candidates, List.mem_map, List.mem_filter, Bool.not_eq_true', List.isEmpty_iff,
    and_assoc]

theorem mem_candidates (typed : ∀ c ∈ cs, c.WellTyped ratios) :
    x ∈ candidates cs ↔ ∃ c ∈ cs, c.falseKeys = [] ∧ c.simplify = x := by
  rw [mem_candidates_iff]
  refine exists_congr fun c => and_congr_right fun mem => ?_
  simp [(typed c mem).readable]

theorem isSimple_of_mem_candidates (typed : ∀ c ∈ cs, c.WellTyped ratios)
    (mem : x ∈ candidates cs) : x.IsSimple ratios := by
  obtain ⟨c, mem, _, simple⟩ := (mem_candidates typed).1 mem
  exact ⟨c, (typed c mem).suits, simple⟩

/-- Each possible clause of a list is covered, in the domains, by a possible one of another list. -/
def Below (cs ds : List Clause) : Prop :=
  ∀ c ∈ cs, c.falseKeys = [] → ∃ d ∈ ds, d.falseKeys = [] ∧ d.simplify.covers c.simplify = true

theorem Below.candidates (below : Below cs ds) (left : ∀ c ∈ cs, c.WellTyped ratios)
    (right : ∀ d ∈ ds, d.WellTyped ratios) :
    ∀ x ∈ candidates cs, ∃ y ∈ Outcome.candidates ds, y.covers x = true := by
  intro x candidate
  obtain ⟨c, mem, possible, rfl⟩ := (mem_candidates left).1 candidate
  obtain ⟨d, mem', possible', covers⟩ := below c mem possible
  exact ⟨d.simplify, (mem_candidates right).2 ⟨d, mem', possible', rfl⟩, covers⟩

/-- Each clause that one normal form keeps is kept by the other one, too. -/
private theorem all_kept (scale : Ratio.Scale ratios) (left : ∀ c ∈ cs, c.WellTyped ratios)
    (right : ∀ d ∈ ds, d.WellTyped ratios) (up : Below cs ds) (down : Below ds cs) :
    (ofClauses cs).clauses.length ≤ (ofClauses ds).clauses.length ∧
      ∀ c ∈ (ofClauses cs).clauses, ∃ d ∈ (ofClauses ds).clauses, c.same d = true := by
  have order := Clause.preordered_simple scale
  have simple (x : Clause) (mem : x ∈ candidates cs) := isSimple_of_mem_candidates left mem
  have simple' (y : Clause) (mem : y ∈ candidates ds) := isSimple_of_mem_candidates right mem
  have above := up.candidates left right
  have under := down.candidates right left
  refine ⟨order.length_kept simple simple' above under, fun c kept => ?_⟩
  obtain ⟨d, kept', covers, covers'⟩ := order.exists_level simple simple' above under kept
  have hc := simple c (Clause.mem_of_mem_dropRedundant kept)
  have hd := simple' d (Clause.mem_of_mem_dropRedundant kept')
  have readable : c.invalid = d.invalid := hc.invalid.trans hd.invalid.symm
  exact ⟨d, kept', Clause.same_of_covers scale (hc.suits scale) (hd.suits scale) readable covers
    covers'⟩

theorem invalid_ofClauses (typed : ∀ c ∈ cs, c.WellTyped ratios) : (ofClauses cs).invalid = [] := by
  have none : cs.flatMap Clause.invalid = [] := by
    rw [List.flatMap_eq_nil_iff]
    intro c mem
    simpa [Clause.isInvalid] using (typed c mem).readable
  simp only [ofClauses, none]
  rfl

theorem falsified_ofClauses (typed : ∀ c ∈ cs, c.WellTyped ratios) :
    (ofClauses cs).falsified = KeyMap.sortNames (cs.flatMap Clause.falseKeys) := by
  have all : (cs.filter fun c => !c.isInvalid) = cs :=
    List.filter_eq_self.2 fun c mem => by rw [(typed c mem).readable]; rfl
  simp only [ofClauses, all]

/-- Lists of clauses have the same normal form if what is possible in each of them is covered by the
other one, and the impossible is asked of the same features. -/
theorem same_ofClauses (scale : Ratio.Scale ratios) (left : ∀ c ∈ cs, c.WellTyped ratios)
    (right : ∀ d ∈ ds, d.WellTyped ratios) (up : Below cs ds) (down : Below ds cs)
    (falsified : (ofClauses cs).falsified = (ofClauses ds).falsified) :
    (ofClauses cs).same (ofClauses ds) = true := by
  obtain ⟨shorter, first⟩ := all_kept scale left right up down
  obtain ⟨longer, second⟩ := all_kept scale right left down up
  have texts : (ofClauses cs).invalid = (ofClauses ds).invalid :=
    (invalid_ofClauses left).trans (invalid_ofClauses right).symm
  simp only [same, Bool.and_eq_true, beq_iff_eq, List.all_eq_true, List.any_eq_true]
  exact ⟨⟨⟨⟨texts, falsified⟩, le_antisymm shorter longer⟩, first⟩, second⟩

end Outcome

end MediaQuery
