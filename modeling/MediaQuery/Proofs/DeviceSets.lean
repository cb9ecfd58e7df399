import MediaQuery.Proofs.Idempotence

set_option autoImplicit false

namespace MediaQuery

/-- A valid device whose own ratios are among those that are compared. -/
structure Device.Within (d : Device) (ratios : String → Ratio → Prop) : Prop where
  valid : d.validate = .ok ()
  among : ∀ {key r}, d.ratio? key = some r → ratios key r

theorem Device.Within.sound {d : Device} {ratios : String → Ratio → Prop} (within : d.Within ratios)
    (ordered : Ratio.Ordered ratios) : d.Sound ratios where
  valid := Device.validate_eq_ok.1 within.valid
  total _ := ordered.total _
  ends _ := ordered.ends _
  among := within.among

theorem Ratio.Ordered.of_list {xs : List Ratio} (total : Endpoint.TotalOn (· ∈ xs))
    (ends : ratioDomain.EndsIn (· ∈ xs)) : Ratio.Ordered fun _ r => r ∈ xs :=
  ⟨fun _ => total, fun _ => ends⟩

namespace Clause

variable {ratios : String → Ratio → Prop} {d : Device} {as bs : List Clause} {c : Clause}

/-- Products, concatenations and negations of lists are the intersections, unions and complements
of their sets of devices, and so is the negation of a single clause. -/
theorem anyHolds_operations (ordered : Ratio.Ordered ratios) (within : d.Within ratios)
    (left : ∀ a ∈ as, a.Plain ratios) (right : ∀ b ∈ bs, b.Plain ratios)
    (plain : c.Plain ratios) :
    anyHolds d (product as bs) = (anyHolds d as && anyHolds d bs) ∧
    anyHolds d (as ++ bs) = (anyHolds d as || anyHolds d bs) ∧
    anyHolds d (negateAll as) = !anyHolds d as ∧
    anyHolds d c.negate = !c.holds d := by
  have sound := within.sound ordered
  exact ⟨anyHolds_product sound left right, anyHolds_append, anyHolds_negateAll sound left,
    anyHolds_negate sound plain⟩

/-- `(aspect-ratio > 1/1)` -/
def landscape : Clause :=
  single "aspect-ratio" (.ratio ⟨false, ⟨1, 1⟩, ratioDomain.max, true⟩)

/-- `(hover: none) and (0px < width < 600px)` -/
def handheld : Clause :=
  (single "hover" (.discrete (.keyword "none"))).and
    (single "width" (.number ⟨false, 0, 600, false⟩))

def screenRatios : List Ratio := [ratioDomain.min, ratioDomain.max, ⟨1, 1⟩, ⟨1920, 1080⟩]

theorem ordered_screenRatios : Ratio.Ordered fun _ r => r ∈ screenRatios :=
  .of_list (Endpoint.totalOn_mem (by decide +kernel) (by decide +kernel))
    ⟨by simp [screenRatios], by simp [screenRatios]⟩

theorem within_screenRatios : Device.Within {} fun _ r => r ∈ screenRatios := by
  refine ⟨rfl, fun {key r} found => ?_⟩
  unfold Device.ratio? at found
  split at found <;> cases found <;> simp [screenRatios]

theorem plain_landscape : landscape.Plain fun _ r => r ∈ screenRatios :=
  plain_single (by decide +kernel : FeatureTable.kind? _ = some .ratio)
    (.ratio ⟨by simp [screenRatios], by simp [screenRatios]⟩)

theorem plain_width {interval : Interval Float}
    (ends : interval.EndsIn fun x => Number.isNaN x = false) :
    (single "width" (.number interval)).Plain ratios :=
  plain_single (by decide +kernel : FeatureTable.kind? _ = some (.numeric .length)) (.number ends)

theorem plain_hover {constraint : Constraint}
    (suits : constraint.Suits (ratios "hover") (.discrete [.keyword "none", .keyword "hover"])) :
    (single "hover" constraint).Plain ratios :=
  plain_single (by decide +kernel) suits

theorem plain_handheld : handheld.Plain fun _ r => r ∈ screenRatios :=
  (plain_hover (.discrete (by simp))).and (plain_width ⟨by decide +kernel, by decide +kernel⟩)

/-- A desktop computer is a landscape screen and not held by hand. -/
theorem anyHolds_operations_desktop :
    anyHolds {} (product [landscape] [handheld]) = false ∧
    anyHolds {} ([landscape] ++ [handheld]) = true ∧
    anyHolds {} (negateAll [landscape]) = false ∧
    anyHolds {} handheld.negate = true := by
  have only {p q : Clause} (plain : q.Plain fun _ r => r ∈ screenRatios) (mem : p ∈ [q]) :
      p.Plain fun _ r => r ∈ screenRatios := by rwa [List.mem_singleton.1 mem]
  obtain ⟨both, either, neither, other⟩ := anyHolds_operations ordered_screenRatios
    within_screenRatios (fun a => only plain_landscape) (fun b => only plain_handheld)
    plain_handheld
  rw [both, either, neither, other]
  decide +kernel

end Clause

namespace Outcome

variable {ratios : String → Ratio → Prop} {cs : List Clause} {x : Clause}

/-- Where the ratios of clauses are ordered, each clause among which the normal form chooses is
covered by one that it keeps: covering is a preorder on them. -/
theorem exists_kept_of_candidate (ordered : Ratio.Ordered ratios)
    (suits : ∀ c ∈ cs, c.Suits ratios) (candidate : x ∈ candidates cs) :
    ∃ kept ∈ (ofClauses cs).clauses, kept.covers x = true := by
  have order : Clause.Preordered fun x => x.IsNormal ∧ x.Suits ratios :=
    ⟨fun hx => hx.1.covers_self,
      fun hx hy hz => Clause.covers_trans ordered.sound hx.2 hy.2 hz.2⟩
  rw [clauses_ofClauses]
  refine order.exists_kept (fun y mem => ?_) candidate
  obtain ⟨c, inside, _, possible, rfl⟩ := mem_candidates_iff.1 mem
  exact ⟨Clause.isNormal_simplify possible, (suits c inside).simplify ordered.sound⟩

/-- The normal form holds on the same valid devices as the list, and each clause among which it
chooses is covered by one that is kept, which holds wherever that clause does. -/
theorem devices_ofClauses (ordered : Ratio.Ordered ratios) (suits : ∀ c ∈ cs, c.Suits ratios) :
    (∀ d : Device, d.Within ratios →
      Clause.anyHolds d (ofClauses cs).clauses = Clause.anyHolds d cs) ∧
    ∀ x ∈ candidates cs, ∃ kept ∈ (ofClauses cs).clauses, kept.covers x = true ∧
      ∀ d : Device, d.Within ratios → x.holds d = true → kept.holds d = true := by
  refine ⟨fun d within => anyHolds_ofClauses (within.sound ordered) suits, fun x candidate => ?_⟩
  obtain ⟨kept, stays, covers⟩ := exists_kept_of_candidate ordered suits candidate
  have typed (y : Clause) (mem : y ∈ candidates cs) : y.isInvalid = false ∧ y.Suits ratios := by
    obtain ⟨c, inside, _, _, rfl⟩ := mem_candidates_iff.1 mem
    exact ⟨rfl, (suits c inside).simplify ordered.sound⟩
  have above := typed kept (Clause.mem_of_mem_dropRedundant stays)
  refine ⟨kept, stays, covers, fun d within => ?_⟩
  exact Clause.holds_of_covers (within.sound ordered) above.1 above.2 (typed x candidate).2 covers

/-- A list with clauses for each way to be left out: an unreadable one, an impossible one, and two
that another one covers, `handheld` and a range between them. -/
def crowded : List Clause :=
  [Clause.landscape, Clause.handheld, Clause.unreadable "hoover",
    Clause.single "width" (.number ⟨true, 0, 600, false⟩),
    (Clause.single "width" (.number ⟨true, -5, 700, false⟩)).tagged .all,
    Clause.single "hover" .never]

theorem suits_crowded : ∀ c ∈ crowded, c.Suits fun _ r => r ∈ Clause.screenRatios := by
  simp only [crowded, List.forall_mem_cons]
  refine ⟨Clause.plain_landscape.suits, Clause.plain_handheld.suits, ?_, ?_, ?_, ?_, by simp⟩
  · exact fun _ _ found => by cases found
  · exact (Clause.plain_width ⟨by decide +kernel, by decide +kernel⟩).suits
  · exact (Clause.plain_width ⟨by decide +kernel, by decide +kernel⟩).suits
  · exact (Clause.plain_hover .never).suits

/-- A desktop computer matches the list as its normal form, and what is asked of a device held by
hand is implied by what is kept. -/
theorem devices_ofClauses_desktop :
    Clause.anyHolds {} (ofClauses crowded).clauses = true ∧
    ∃ kept ∈ (ofClauses crowded).clauses, kept.covers Clause.handheld.simplify = true := by
  obtain ⟨same, above⟩ := devices_ofClauses Clause.ordered_screenRatios suits_crowded
  refine ⟨?_, ?_⟩
  · rw [same {} Clause.within_screenRatios]
    decide +kernel
  · have candidate : Clause.handheld.simplify ∈ candidates crowded :=
      mem_candidates_iff.2 ⟨Clause.handheld, by simp [crowded], rfl, by decide +kernel, rfl⟩
    obtain ⟨kept, stays, covers, _⟩ := above _ candidate
    exact ⟨kept, stays, covers⟩

end Outcome

end MediaQuery
