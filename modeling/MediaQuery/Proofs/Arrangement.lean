import MediaQuery.Proofs.Irredundant
import MediaQuery.Proofs.SignedZero

set_option autoImplicit false

namespace MediaQuery

namespace Interval

variable {α : Type} [Endpoint α] {P : α → Prop} {f : α → α} {a b c : Interval α}

/-- Where values on one level become equal, so do intervals with their ends on the same levels. -/
theorem map_eq_of_sameAs
    (merged : ∀ x y, P x → P y → Endpoint.compare x y = .eq → f x = f y)
    (left : a.EndsIn P) (right : b.EndsIn P) (same : a.sameAs b = true) : a.map f = b.map f := by
  simp only [sameAs, Bool.and_eq_true, beq_iff_eq] at same
  obtain ⟨⟨⟨lower, upper⟩, min⟩, max⟩ := same
  simp only [map, lower, upper, merged _ _ left.min right.min min,
    merged _ _ left.max right.max max]

section Joins

variable (total : Endpoint.TotalOn P) (ha : a.EndsIn P) (hb : b.EndsIn P) (hc : c.EndsIn P)

include total ha hb

theorem overlap_sameAs_comm : (overlap a b).sameAs (overlap b a) = true := by
  obtain ⟨β, _, level, leveled⟩ := total.exists_level
  rw [sameAs_iff_cuts leveled (ha.overlap hb) (hb.overlap ha), lowerCut_overlap leveled ha hb,
    lowerCut_overlap leveled hb ha, upperCut_overlap leveled ha hb, upperCut_overlap leveled hb ha]
  exact ⟨sup_comm _ _, inf_comm _ _⟩

include hc

theorem overlap_sameAs_right_comm :
    (overlap (overlap a b) c).sameAs (overlap (overlap a c) b) = true := by
  obtain ⟨β, _, level, leveled⟩ := total.exists_level
  have hab := ha.overlap hb
  have hac := ha.overlap hc
  rw [sameAs_iff_cuts leveled (hab.overlap hc) (hac.overlap hb), lowerCut_overlap leveled hab hc,
    lowerCut_overlap leveled hac hb, upperCut_overlap leveled hab hc,
    upperCut_overlap leveled hac hb, lowerCut_overlap leveled ha hb, lowerCut_overlap leveled ha hc,
    upperCut_overlap leveled ha hb, upperCut_overlap leveled ha hc]
  exact ⟨sup_right_comm _ _ _, inf_right_comm _ _ _⟩

/-- Intersecting twice: the intersection of all three, unless it is empty. -/
theorem bind_inter? : (inter? a b).bind (inter? · c) =
    if (overlap (overlap a b) c).isEmpty then none else some (overlap (overlap a b) c) := by
  obtain ⟨β, _, level, leveled⟩ := total.exists_level
  by_cases empty : (overlap a b).isEmpty = true
  · rw [inter?, if_pos empty, if_pos (isEmpty_overlap_left leveled (ha.overlap hb) hc empty)]
    rfl
  · rw [inter?, if_neg empty, Option.bind_some, inter?]

end Joins

section Merged

variable (merged : ∀ x y, P x → P y → Endpoint.compare x y = .eq → f x = f y)
  (unseen : ∀ x y, Endpoint.compare (f x) (f y) = Endpoint.compare x y)

include merged unseen

private theorem ite_isEmpty_map (left : a.EndsIn P) (right : b.EndsIn P)
    (same : a.sameAs b = true) :
    (if a.isEmpty then none else some a).map (map f) =
      (if b.isEmpty then none else some b).map (map f) := by
  have equal := map_eq_of_sameAs merged left right same
  have empty : a.isEmpty = b.isEmpty := by
    rw [← isEmpty_map unseen a, equal, isEmpty_map unseen]
  rw [empty]
  split
  · rfl
  · exact congrArg some equal

theorem inter?_comm_map (total : Endpoint.TotalOn P) (ha : a.EndsIn P) (hb : b.EndsIn P) :
    (inter? a b).map (map f) = (inter? b a).map (map f) :=
  ite_isEmpty_map merged unseen (ha.overlap hb) (hb.overlap ha)
    (overlap_sameAs_comm total ha hb)

theorem inter?_right_comm_map (total : Endpoint.TotalOn P) (ha : a.EndsIn P) (hb : b.EndsIn P)
    (hc : c.EndsIn P) :
    ((inter? a b).bind (inter? · c)).map (map f) =
      ((inter? a c).bind (inter? · b)).map (map f) := by
  rw [bind_inter? total ha hb hc, bind_inter? total ha hc hb]
  exact ite_isEmpty_map merged unseen ((ha.overlap hb).overlap hc)
    ((ha.overlap hc).overlap hb) (overlap_sameAs_right_comm total ha hb hc)

end Merged

omit [Endpoint α] in
theorem map_id : (map id : Interval α → Interval α) = id := rfl

end Interval

/-- For each feature, ratios on a scale that are equal if they are on one level. -/
structure Ratio.ExactScale (ratios : String → Ratio → Prop) : Prop
    extends Ratio.Scale ratios where
  exact : ∀ {key r s}, ratios key r → ratios key s → Ratio.order r s = .eq → r = s

namespace Constraint

variable {ratios : String → Ratio → Prop} {key : String} {kind : FeatureKind} {a b c : Constraint}

theorem ofNumbers?_inter (interval : Option (Interval Float)) (z : Interval Float) :
    (ofNumbers? interval).inter (.number z) = ofNumbers? (interval.bind (Interval.inter? · z)) := by
  cases interval <;> rfl

theorem ofRatios?_inter (interval : Option (Interval Ratio)) (z : Interval Ratio) :
    (ofRatios? interval).inter (.ratio z) = ofRatios? (interval.bind (Interval.inter? · z)) := by
  cases interval <;> rfl

theorem inter_ofNumbers? (x y : Option (Interval Float)) :
    (ofNumbers? x).inter (ofNumbers? y) = ofNumbers? (x.bind fun a => y.bind a.inter?) := by
  cases x <;> cases y <;> rfl

theorem inter_ofRatios? (x y : Option (Interval Ratio)) :
    (ofRatios? x).inter (ofRatios? y) = ofRatios? (x.bind fun a => y.bind a.inter?) := by
  cases x <;> cases y <;> rfl

theorem inter_comm_unsigned (scale : Ratio.ExactScale ratios) (ha : a.Suits (ratios key) kind)
    (hb : b.Suits (ratios key) kind) : (a.inter b).unsigned = (b.inter a).unsigned := by
  cases ha with
  | always => simp
  | never => simp
  | @discrete _ x =>
    cases hb with
    | always => simp
    | never => simp
    | @discrete _ y =>
      rw [inter_discrete, inter_discrete]
      by_cases same : x = y
      · rw [if_pos same, if_pos same.symm, same]
      · rw [if_neg same, if_neg (Ne.symm same)]
  | gamut =>
    cases hb with
    | always => simp
    | never => simp
    | gamut => simp only [inter, GamutMask.inter_comm]
  | number ends =>
    cases hb with
    | always => simp
    | never => simp
    | number ends' =>
      rw [inter_number, inter_number, unsigned_ofNumbers?, unsigned_ofNumbers?,
        Interval.inter?_comm_map (fun x y => Number.unsigned_eq_of_order)
          Number.order_unsigned Number.totalOn ends ends']
  | @ratio x ends =>
    cases hb with
    | always => simp
    | never => simp
    | @ratio y ends' =>
      have same := Interval.inter?_comm_map (f := id) (fun r s => scale.exact) (fun _ _ => rfl)
        (scale.total key) ends ends'
      rw [Interval.map_id, Option.map_id] at same
      rw [inter_ratio, inter_ratio]
      exact congrArg (fun common => (ofRatios? common).unsigned) same

theorem inter_right_comm_unsigned (scale : Ratio.ExactScale ratios)
    (ha : a.Suits (ratios key) kind) (hb : b.Suits (ratios key) kind)
    (hc : c.Suits (ratios key) kind) :
    ((a.inter b).inter c).unsigned = ((a.inter c).inter b).unsigned := by
  have swapped := inter_comm_unsigned scale hb hc
  cases hb with
  | always => simp
  | never => simp
  | @discrete _ y listed =>
    cases hc with
    | always => simp
    | never => simp
    | @discrete _ z listed' =>
      cases ha with
      | always => simpa using swapped
      | never => simp
      | @discrete _ x =>
        rw [inter_discrete, inter_discrete]
        split <;> split <;> simp_all [inter_discrete]
  | gamut =>
    cases hc with
    | always => simp
    | never => simp
    | gamut =>
      cases ha with
      | always => simpa using swapped
      | never => simp
      | gamut => simp [inter, GamutMask.inter, Bool.and_right_comm]
  | @number _ y ends =>
    cases hc with
    | always => simp
    | never => simp
    | @number _ z ends' =>
      cases ha with
      | always => simpa using swapped
      | never => simp
      | @number _ x ends'' =>
        rw [inter_number, inter_number, ofNumbers?_inter, ofNumbers?_inter, unsigned_ofNumbers?,
          unsigned_ofNumbers?, Interval.inter?_right_comm_map
            (fun x y => Number.unsigned_eq_of_order) Number.order_unsigned Number.totalOn ends''
            ends ends']
  | @ratio y ends =>
    cases hc with
    | always => simp
    | never => simp
    | @ratio z ends' =>
      cases ha with
      | always => simpa using swapped
      | never => simp
      | @ratio x ends'' =>
        have same := Interval.inter?_right_comm_map (f := id) (fun r s => scale.exact)
          (fun _ _ => rfl) (scale.total key) ends'' ends ends'
        rw [Interval.map_id, Option.map_id] at same
        rw [inter_ratio, inter_ratio, ofRatios?_inter, ofRatios?_inter]
        exact congrArg (fun common => (ofRatios? common).unsigned) same

end Constraint

/-- What contradicts itself still does so together with another constraint. -/
theorem Constraint.isContradiction_inter {a : Constraint} (contradiction : a.isContradiction = true)
    (b : Constraint) : (a.inter b).isContradiction = true := by
  cases a with
  | never => rfl
  | gamut mask =>
    cases b with
    | gamut other =>
      simp only [isContradiction, GamutMask.isEmpty, Bool.and_eq_true, Bool.not_eq_true']
        at contradiction
      simp [inter, isContradiction, GamutMask.isEmpty, GamutMask.inter, contradiction]
    | always => exact contradiction
    | _ => rfl
  | _ => cases contradiction

/-- The sign of zero does not tell of what kind a constraint is. -/
theorem Constraint.Suits.of_unsigned {P : Ratio → Prop} {kind : FeatureKind} {a b : Constraint}
    (suits : a.Suits P kind) (same : b.unsigned = a.unsigned) : b.Suits P kind := by
  cases suits with
  | always => cases b <;> cases same; exact .always
  | never => cases b <;> cases same; exact .never
  | discrete listed => cases b <;> cases same; exact .discrete listed
  | gamut => cases b <;> cases same; exact .gamut
  | ratio ends => cases b <;> cases same; exact .ratio ends
  | @number _ interval ends =>
    cases b with
    | number other =>
      have inner : other.map Number.unsigned = interval.map Number.unsigned :=
        Constraint.number.inj same
      have least : Number.unsigned other.min = Number.unsigned interval.min :=
        congrArg Interval.min inner
      have greatest : Number.unsigned other.max = Number.unsigned interval.max :=
        congrArg Interval.max inner
      constructor
      constructor
      · rw [← Number.isNaN_unsigned, least, Number.isNaN_unsigned]
        exact ends.min
      · rw [← Number.isNaN_unsigned, greatest, Number.isNaN_unsigned]
        exact ends.max
    | _ => cases same

namespace Clause

variable {ratios : String → Ratio → Prop} {a b c d : Clause} {as bs cs ds : List Clause}
  {css dss : List (List Clause)}

private theorem Plain.invalid (plain : c.Plain ratios) : c.invalid = [] := by
  simpa [isInvalid] using plain.readable

theorem and_right_comm_unsigned (scale : Ratio.ExactScale ratios) (hd : d.Plain ratios)
    (ha : a.Plain ratios) (hb : b.Plain ratios) :
    ((d.and a).and b).unsigned = ((d.and b).and a).unsigned := by
  have tags : ((d.and a).and b).tag = ((d.and b).and a).tag := by
    simp [Clause.and, hd.untagged, ha.untagged, hb.untagged]
  have texts : ((d.and a).and b).invalid = ((d.and b).and a).invalid := by
    simp [Clause.and, hd.invalid, ha.invalid, hb.invalid]
  refine ext_get? tags texts fun key => ?_
  simp only [get?_unsigned, get?_and]
  cases first : a.tests.get? key with
  | none => cases d.tests.get? key <;> cases b.tests.get? key <;> rfl
  | some y =>
    obtain ⟨kind, known, hy⟩ := ha.suits key y first
    cases second : b.tests.get? key with
    | none => cases d.tests.get? key <;> rfl
    | some z =>
      have hz := hb.suits.of_kind known second
      cases third : d.tests.get? key with
      | none => exact congrArg some (Constraint.inter_comm_unsigned scale hy hz)
      | some x =>
        have hx := hd.suits.of_kind known third
        exact congrArg some (Constraint.inter_right_comm_unsigned scale hx hy hz)

/-- Lists with the same clauses, each equally often, up to the sign of zero. -/
def Alike (as bs : List Clause) : Prop := (as.map unsigned).Perm (bs.map unsigned)

theorem Alike.of_perm (perm : as.Perm bs) : Alike as bs := perm.map unsigned

theorem Alike.refl (as : List Clause) : Alike as as := List.Perm.refl _

theorem Alike.symm (alike : Alike as bs) : Alike bs as := List.Perm.symm alike

theorem Alike.trans (first : Alike as bs) (second : Alike bs cs) : Alike as cs :=
  List.Perm.trans first second

theorem Alike.append (first : Alike as bs) (second : Alike cs ds) :
    Alike (as ++ cs) (bs ++ ds) := by
  rw [Alike, List.map_append, List.map_append]
  exact List.Perm.append first second

theorem Alike.map_unsigned (as : List Clause) : Alike (as.map unsigned) as := by
  have same : (as.map unsigned).map unsigned = as.map unsigned := by
    rw [List.map_map]
    exact List.map_congr_left fun a _ => unsigned_unsigned a
  rw [Alike, same]

theorem Alike.exists (alike : Alike as bs) (mem : a ∈ as) : ∃ b ∈ bs, b.unsigned = a.unsigned :=
  List.mem_map.1 (alike.mem_iff.1 (List.mem_map_of_mem mem))

theorem Alike.product (first : Alike as bs) (second : Alike cs ds) :
    Alike (product as cs) (product bs ds) := by
  rw [Alike, ← product_unsigned, ← product_unsigned, Clause.product, Clause.product]
  exact (List.Perm.flatMap_right _ first).trans
    (List.Perm.flatMap_left _ fun a _ => List.Perm.map _ second)

/-- All pairs, row by row or column by column. -/
private theorem flatMap_map_perm {α β γ : Type} (g : α → β → γ) (xs : List α) (ys : List β) :
    (xs.flatMap fun x => ys.map (g x)).Perm (ys.flatMap fun y => xs.map fun x => g x y) := by
  induction xs with
  | nil => simp
  | cons x rest ih =>
    rw [List.flatMap_cons]
    exact (List.Perm.append_left _ ih).trans
      (List.map_append_flatMap_perm ys (g x) fun y => rest.map fun z => g z y)

theorem alike_product_product (scale : Ratio.ExactScale ratios) (hd : ∀ d ∈ ds, d.Plain ratios)
    (ha : ∀ a ∈ as, a.Plain ratios) (hb : ∀ b ∈ bs, b.Plain ratios) :
    Alike (Clause.product (Clause.product ds as) bs)
      (Clause.product (Clause.product ds bs) as) := by
  have flat (xs ys : List Clause) : (Clause.product (Clause.product ds xs) ys).map unsigned =
      ds.flatMap fun d => xs.flatMap fun x => ys.map fun y => ((d.and x).and y).unsigned := by
    simp only [Clause.product, List.map_flatMap, List.flatMap_assoc, List.flatMap_map,
      List.map_map, Function.comp_def]
  rw [Alike, flat, flat]
  refine List.Perm.flatMap_left _ fun d mem => ?_
  have joined : (as.flatMap fun a => bs.map fun b => ((d.and a).and b).unsigned) =
      as.flatMap fun a => bs.map fun b => ((d.and b).and a).unsigned := by
    refine List.flatMap_congr fun a memA => List.map_congr_left fun b memB => ?_
    exact and_right_comm_unsigned scale (hd d mem) (ha a memA) (hb b memB)
  rw [joined]
  exact flatMap_map_perm (fun a b => ((d.and b).and a).unsigned) as bs

theorem Suits.of_unsigned (suits : c.Suits ratios) (same : d.unsigned = c.unsigned) :
    d.Suits ratios := by
  intro key constraint found
  have level : (c.tests.get? key).map Constraint.unsigned = some constraint.unsigned := by
    rw [← get?_unsigned, ← same, get?_unsigned, found]
    rfl
  obtain ⟨other, found', same'⟩ := Option.map_eq_some_iff.1 level
  obtain ⟨kind, known, suits⟩ := suits key other found'
  exact ⟨kind, known, suits.of_unsigned same'.symm⟩

theorem Plain.of_unsigned (plain : c.Plain ratios) (same : d.unsigned = c.unsigned) :
    d.Plain ratios := by
  have readable : d.unsigned.isInvalid = c.unsigned.isInvalid := by rw [same]
  have tag : d.unsigned.tag = c.unsigned.tag := by rw [same]
  exact ⟨readable.trans plain.readable, tag.trans plain.untagged, plain.suits.of_unsigned same⟩

theorem Alike.plain (alike : Alike as bs) (plain : ∀ a ∈ as, a.Plain ratios) :
    ∀ b ∈ bs, b.Plain ratios := by
  intro b mem
  obtain ⟨a, mem', same⟩ := alike.symm.exists mem
  exact (plain a mem').of_unsigned same.symm

section Folds

/-- A product of many lists, each like the one at its place in other lists. -/
theorem alike_foldl_product (alike : List.Forall₂ Alike css dss) (start : Alike as bs) :
    Alike (css.foldl Clause.product as) (dss.foldl Clause.product bs) := by
  induction alike generalizing as bs with
  | nil => exact start
  | cons first _ ih => exact ih (start.product first)

theorem alike_foldl_product_perm (scale : Ratio.ExactScale ratios)
    (start : ∀ a ∈ as, a.Plain ratios) (plain : ∀ cs ∈ css, ∀ c ∈ cs, c.Plain ratios)
    (perm : css.Perm dss) :
    Alike (css.foldl Clause.product as) (dss.foldl Clause.product as) := by
  induction perm generalizing as with
  | nil => exact .refl _
  | @cons cs _ _ perm ih =>
    exact ih (plain_product start (plain cs List.mem_cons_self)) fun ds mem =>
      plain ds (List.mem_cons_of_mem _ mem)
  | swap xs ys rest =>
    have hx := plain xs (by simp)
    have hy := plain ys (by simp)
    simp only [List.foldl_cons]
    refine alike_foldl_product ?_ (alike_product_product scale start hy hx)
    exact List.forall₂_same.2 fun _ _ => Alike.refl _
  | @trans _ mid _ first second ihFirst ihSecond =>
    refine (ihFirst start plain).trans (ihSecond start fun ds mem => plain ds ?_)
    exact first.mem_iff.2 mem

/-- What contradicts itself still does so together with other clauses. -/
theorem isContradiction_and (contradiction : a.isContradiction = true) (b : Clause) :
    (a.and b).isContradiction = true := by
  obtain ⟨key, x, found, never⟩ := KeyMap.any_values.1 contradiction
  refine KeyMap.any_values.2 ?_
  cases second : b.tests.get? key with
  | none => exact ⟨key, x, by rw [get?_and, found, second]; rfl, never⟩
  | some y =>
    refine ⟨key, x.inter y, by rw [get?_and, found, second]; rfl, ?_⟩
    exact Constraint.isContradiction_inter never y

theorem product_cons (a : Clause) (as bs : List Clause) :
    Clause.product (a :: as) bs = bs.map a.and ++ Clause.product as bs := List.flatMap_cons

/-- Contradictions that are dropped before a product are dropped after it. -/
theorem dropContradictions_product (readable : ∀ b ∈ bs, b.isInvalid = false) (as : List Clause) :
    dropContradictions (Clause.product (dropContradictions as) bs) =
      dropContradictions (Clause.product as bs) := by
  induction as with
  | nil => rfl
  | cons a rest ih =>
    rw [product_cons]
    by_cases kept : (a.isInvalid || !a.isContradiction) = true
    · have here : dropContradictions (a :: rest) = a :: dropContradictions rest :=
        List.filter_cons_of_pos kept
      rw [here, product_cons]
      simp only [dropContradictions, List.filter_append] at ih ⊢
      rw [ih]
    · have here : dropContradictions (a :: rest) = dropContradictions rest :=
        List.filter_cons_of_neg kept
      simp only [Bool.or_eq_true, Bool.not_eq_true', not_or, Bool.not_eq_true,
        Bool.not_eq_false] at kept
      have none : dropContradictions (bs.map a.and) = [] := by
        refine List.filter_eq_nil_iff.2 fun c mem => ?_
        obtain ⟨b, inside, rfl⟩ := List.mem_map.1 mem
        rw [isInvalid_and, kept.1, readable b inside, isContradiction_and kept.2 b]
        decide
      rw [here, ih]
      simp only [dropContradictions, List.filter_append] at none ⊢
      rw [none, List.nil_append]

/-- A negation as a product, from which the contradictions are dropped at the end. -/
theorem negateAll_eq (readable : ∀ c ∈ cs, ∀ part ∈ c.negate, part.isInvalid = false) :
    negateAll cs = dropContradictions ((cs.map negate).foldl Clause.product [top]) := by
  have steps (done : List Clause) :
      cs.foldl (fun done c => dropContradictions (Clause.product done c.negate))
        (dropContradictions done) =
      dropContradictions ((cs.map negate).foldl Clause.product done) := by
    induction cs generalizing done with
    | nil => rfl
    | cons c rest ih =>
      have first := dropContradictions_product (readable c List.mem_cons_self) done
      rw [List.foldl_cons, first, ih fun d mem => readable d (List.mem_cons_of_mem _ mem)]
      rfl
  exact steps [top]

theorem Alike.dropContradictions (alike : Alike as bs) :
    Alike (Clause.dropContradictions as) (Clause.dropContradictions bs) := by
  rw [Alike, ← dropContradictions_unsigned, ← dropContradictions_unsigned]
  exact List.Perm.filter _ alike

private theorem alike_negateAll_of_perm (scale : Ratio.ExactScale ratios)
    (plain : ∀ a ∈ as, a.Plain ratios) (perm : as.Perm bs) :
    Alike (Clause.negateAll as) (Clause.negateAll bs) := by
  have parts (c : Clause) (mem : c ∈ as) := plain_negate scale.sound (plain c mem)
  have readable (c : Clause) (mem : c ∈ as) (part : Clause) (inside : part ∈ c.negate) :=
    (parts c mem part inside).readable
  rw [negateAll_eq readable, negateAll_eq fun c mem => readable c (perm.mem_iff.2 mem)]
  refine (alike_foldl_product_perm scale ?_ ?_ (perm.map negate)).dropContradictions
  · simp [plain_top]
  · intro _ mem
    obtain ⟨c, inside, rfl⟩ := List.mem_map.1 mem
    exact parts c inside

theorem Alike.negateAll (scale : Ratio.ExactScale ratios) (plain : ∀ a ∈ as, a.Plain ratios)
    (alike : Alike as bs) : Alike (Clause.negateAll as) (Clause.negateAll bs) := by
  have unsigned := (Alike.map_unsigned as).symm.plain plain
  have inner := alike_negateAll_of_perm scale unsigned alike
  rw [negateAll_unsigned, negateAll_unsigned] at inner
  exact ((Alike.map_unsigned _).symm.trans inner).trans (Alike.map_unsigned _)

end Folds

theorem WellTyped.of_unsigned (typed : c.WellTyped ratios) (same : d.unsigned = c.unsigned) :
    d.WellTyped ratios := by
  have readable : d.unsigned.isInvalid = c.unsigned.isInvalid := by rw [same]
  exact ⟨readable.trans typed.readable, typed.suits.of_unsigned same⟩

/-- Clauses are covered, in the domains, by those that differ in the sign of zero only. -/
private theorem Alike.below (alike : Alike as bs) : Outcome.Below as bs := by
  intro a mem possible
  obtain ⟨b, mem', same⟩ := alike.exists mem
  refine ⟨b, mem', ?_, ?_⟩
  · rw [← falseKeys_unsigned, same, falseKeys_unsigned]
    exact possible
  · rw [← covers_unsigned, ← simplify_unsigned, ← simplify_unsigned, same, simplify_unsigned,
      covers_unsigned]
    exact covers_self_of_simplify a

/-- Lists with the same clauses have the same normal form. -/
theorem Alike.same_ofClauses (scale : Ratio.Scale ratios) (typed : ∀ a ∈ as, a.WellTyped ratios)
    (alike : Alike as bs) : (Outcome.ofClauses as).same (Outcome.ofClauses bs) = true := by
  have typed' (b : Clause) (mem : b ∈ bs) : b.WellTyped ratios := by
    obtain ⟨a, mem', same⟩ := alike.symm.exists mem
    exact (typed a mem').of_unsigned same.symm
  have names {cs ds : List Clause} (alike : Alike cs ds) (name : String)
      (mem : name ∈ cs.flatMap falseKeys) : name ∈ ds.flatMap falseKeys := by
    obtain ⟨c, inside, false⟩ := List.mem_flatMap.1 mem
    obtain ⟨d, inside', same⟩ := alike.exists inside
    rw [← falseKeys_unsigned, ← same, falseKeys_unsigned] at false
    exact List.mem_flatMap.2 ⟨d, inside', false⟩
  refine Outcome.same_ofClauses scale typed typed' alike.below alike.symm.below ?_
  rw [Outcome.falsified_ofClauses typed, Outcome.falsified_ofClauses typed']
  exact KeyMap.sortNames_congr fun name => ⟨names alike name, names alike.symm name⟩

end Clause

end MediaQuery
