import MediaQuery.Proofs.DoubleNegation

set_option autoImplicit false

namespace MediaQuery

theorem Constraint.IsNormal.covers_of_same {a b : Constraint} (normal : a.IsNormal)
    (same : a.same b = true) : a.covers b = true := by
  cases a with
  | always | never => exact normal.elim
  | discrete value => cases b <;> first | exact same | cases same
  | gamut mask =>
    cases b with
    | gamut other =>
      have equal := beq_iff_eq.1 same
      simp [covers, equal, GamutMask.inter]
    | _ => cases same
  | number interval =>
    cases b with
    | number other =>
      exact Interval.coversInterval_of_sameAs normal.occupied
        (Interval.sameAs_of_beq (fun x y => Number.order_of_same) same)
    | _ => cases same
  | ratio interval =>
    cases b with
    | ratio other =>
      exact Interval.coversInterval_of_sameAs normal.occupied
        (Interval.sameAs_of_beq (fun r s => Ratio.order_of_same) same)
    | _ => cases same

namespace Clause

/-- A readable clause whose constraints are all in normal form, and whose tag, if it has one, asks
for something. -/
structure IsNormal (c : Clause) : Prop where
  readable : c.invalid = []
  tagged : c.tag ≠ some .all
  tests : ∀ key constraint, c.tests.get? key = some constraint → constraint.IsNormal

variable {a b c : Clause} {cs : List Clause}

/-- What the domains leave of a possible clause is in normal form. -/
theorem isNormal_simplify (possible : c.falseKeys = []) : c.simplify.IsNormal where
  readable := rfl
  tagged := by simp [simplify, Option.filter_eq_some_iff]
  tests key constraint found := by
    obtain ⟨before, written, rfl, some⟩ := get?_simplify_eq_some.1 found
    rcases before.simplify_cases with all | never | normal
    · exact absurd all some
    · have listed : key ∈ c.falseKeys := mem_falseKeys.2 ⟨before, written, by rw [never]; rfl⟩
      rw [possible] at listed
      cases listed
    · exact normal

theorem IsNormal.falseKeys_eq_nil (normal : c.IsNormal) : c.falseKeys = [] := by
  refine List.eq_nil_iff_forall_not_mem.2 fun key listed => ?_
  obtain ⟨constraint, found, never⟩ := mem_falseKeys.1 listed
  have within := normal.tests key constraint found
  rw [within.simplify_eq] at never
  cases constraint <;> cases never
  exact within

theorem IsNormal.simplify_eq (normal : c.IsNormal) : c.simplify = c := by
  have tag : c.tag.filter (· ≠ .all) = c.tag := by
    cases tag : c.tag with
    | none => rfl
    | some t =>
      have some : t ≠ .all := fun all => normal.tagged (by rw [tag, all])
      simp [Option.filter, some]
  have tests : simplifyTests c.tests = c.tests := by
    refine KeyMap.ext_get? fun key => ?_
    rw [simplifyTests, KeyMap.get?_filterMap]
    cases found : c.tests.get? key with
    | none => rfl
    | some constraint =>
      have within := normal.tests key constraint found
      rw [Option.bind_some, within.simplify_eq]
      cases constraint with
      | always => exact within.elim
      | _ => rfl
  rw [simplify, tag, tests, ← normal.readable]

theorem IsNormal.covers_self (normal : c.IsNormal) : c.covers c = true :=
  covers_iff.2 ⟨fun _ tag => tag, fun key constraint found =>
    ⟨constraint, found, (normal.tests key constraint found).covers_self⟩⟩

theorem IsNormal.covers_of_same (normal : a.IsNormal) (same : a.same b = true) :
    a.covers b = true := by
  rw [Clause.same, Bool.and_eq_true, Bool.and_eq_true, beq_iff_eq, beq_iff_eq] at same
  obtain ⟨⟨tags, _⟩, tests⟩ := same
  refine covers_iff.2 ⟨fun tag found => tags.symm.trans found, fun key x found => ?_⟩
  obtain ⟨y, found', level⟩ := KeyMap.get?_of_same (KeyMap.same_swap tests) found
  exact ⟨y, found', (normal.tests key x found).covers_of_same level⟩

def IsSpread (cs : List Clause) : Prop :=
  cs.Pairwise fun a b => a.covers b = false ∧ b.covers a = false

/-- Of clauses that are kept, none covers another one. -/
theorem isSpread_dropRedundant (cs : List Clause) : IsSpread (dropRedundant [] cs) := by
  refine (dropRedundant_pairwise [] cs).imp_of_mem fun {a b} first second ahead => ⟨ahead, ?_⟩
  by_contra covers
  rw [Bool.not_eq_false] at covers
  have back := covers_of_kept first (mem_of_mem_dropRedundant second) covers
  rw [ahead] at back
  cases back

/-- Where no clause covers one behind it or is strictly covered by one, all are kept. -/
theorem dropRedundant_eq_self {before : List Clause}
    (ahead : ∀ a ∈ before, ∀ b ∈ cs, a.covers b = false) (spread : IsSpread cs) :
    dropRedundant before cs = cs := by
  induction cs generalizing before with
  | nil => rfl
  | cons c behind ih =>
    obtain ⟨first, rest⟩ := List.pairwise_cons.1 spread
    have kept : isRedundant before c behind = false := by
      rw [isRedundant, Bool.or_eq_false_iff, List.any_eq_false, List.any_eq_false]
      refine ⟨fun a mem => ?_, fun b mem => ?_⟩
      · simp [ahead a mem c List.mem_cons_self]
      · simp [(first b mem).2]
    rw [dropRedundant, kept]
    refine congrArg (c :: ·) (ih (List.forall_mem_cons.2 ⟨fun b mem => (first b mem).1, ?_⟩) rest)
    exact fun a mem b inside => ahead a mem b (List.mem_cons_of_mem _ inside)

/-- A list of clauses in normal form. -/
structure IsNormalForm (cs : List Clause) : Prop where
  each : ∀ c ∈ cs, c.IsNormal
  spread : IsSpread cs

/-- In a normal form no two clauses are the same. -/
theorem IsNormalForm.pairwise_same (normal : IsNormalForm cs) :
    cs.Pairwise fun a b => a.same b = false := by
  refine normal.spread.imp_of_mem fun {a b} first _ apart => ?_
  by_contra same
  rw [Bool.not_eq_false] at same
  rw [(normal.each a first).covers_of_same same] at apart
  cases apart.1

end Clause

namespace Outcome

variable {cs : List Clause}

/-- The clauses of an outcome are in normal form. -/
theorem isNormalForm_ofClauses (cs : List Clause) : Clause.IsNormalForm (ofClauses cs).clauses where
  each c kept := by
    obtain ⟨before, _, _, possible, rfl⟩ :=
      mem_candidates_iff.1 (Clause.mem_of_mem_dropRedundant kept)
    exact Clause.isNormal_simplify possible
  spread := Clause.isSpread_dropRedundant _

/-- Clauses in normal form are left as they are, and nothing is listed beside them. -/
theorem ofClauses_eq_self (normal : Clause.IsNormalForm cs) : ofClauses cs = ⟨cs, [], []⟩ := by
  have readable : cs.filter (fun c => !c.isInvalid) = cs :=
    List.filter_eq_self.2 fun c mem => by simp [Clause.isInvalid, (normal.each c mem).readable]
  have possible : cs.filter (fun c => c.falseKeys.isEmpty) = cs :=
    List.filter_eq_self.2 fun c mem => by rw [(normal.each c mem).falseKeys_eq_nil]; rfl
  have simple : cs.map Clause.simplify = cs :=
    (List.map_congr_left fun c mem => (normal.each c mem).simplify_eq).trans (List.map_id cs)
  have texts : cs.flatMap Clause.invalid = [] :=
    List.flatMap_eq_nil_iff.2 fun c mem => (normal.each c mem).readable
  have names : cs.flatMap Clause.falseKeys = [] :=
    List.flatMap_eq_nil_iff.2 fun c mem => (normal.each c mem).falseKeys_eq_nil
  have kept : Clause.dropRedundant [] cs = cs :=
    Clause.dropRedundant_eq_self (List.forall_mem_nil _) normal.spread
  rw [ofClauses]
  simp only [readable, possible, simple, texts, names, kept]
  rfl

/-- A list of clauses is in normal form iff simplifying leaves it as it is. -/
theorem ofClauses_eq_self_iff : ofClauses cs = ⟨cs, [], []⟩ ↔ Clause.IsNormalForm cs := by
  refine ⟨fun same => ?_, ofClauses_eq_self⟩
  have normal := isNormalForm_ofClauses cs
  rwa [same] at normal

/-- Simplifying gives a normal form without clauses that are the same, with sorted lists beside it,
and simplifying once more gives the same clauses in the same order and nothing beside them. -/
theorem simplified_ofClauses (cs : List Clause) :
    Clause.IsNormalForm (ofClauses cs).clauses ∧
    ((ofClauses cs).clauses.Pairwise fun a b => a.same b = false) ∧
    (ofClauses cs).invalid.Pairwise (· < ·) ∧
    (ofClauses cs).falsified.Pairwise (· < ·) ∧
    ofClauses (ofClauses cs).clauses = ⟨(ofClauses cs).clauses, [], []⟩ := by
  have normal := isNormalForm_ofClauses cs
  exact ⟨normal, normal.pairwise_same, KeyMap.keys_pairwise _, KeyMap.keys_pairwise _,
    ofClauses_eq_self_iff.2 normal⟩

end Outcome

end MediaQuery
