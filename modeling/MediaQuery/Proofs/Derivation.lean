import MediaQuery.Proofs.FeatureForm
import MediaQuery.Proofs.Truth

set_option autoImplicit false

namespace MediaQuery

variable {source : List Char} {nested nested' : List Token → Condition → Prop}
  {test : List Token → Feature → Prop} {item item' : List Token → InParens → Prop} {n : Nat}

theorem InParens.Form.parens {ts : List Token} {x : InParens}
    (form : InParens.Form source nested test ts x) :
    ∃ opener inside closer, ts = opener :: (inside ++ [closer]) ∧ opener.isOpening = true ∧
      closer.isClosing = true ∧ Balanced (fun _ => true) inside := by
  cases form with
  | function opens closes balanced | condition opens closes balanced
  | feature opens closes balanced | enclosed opens closes balanced =>
    exact ⟨_, _, _, rfl, by simp [Token.isOpening, opens], closes, balanced⟩

/-- Items of a length only depend on shorter nested conditions. -/
theorem InParens.Form.mono {ts : List Token} {x : InParens}
    (same : ∀ inside inner, inside.length < ts.length →
      (nested inside inner ↔ nested' inside inner))
    (form : InParens.Form source nested test ts x) : InParens.Form source nested' test ts x := by
  have shorter {o c : Token} {inside : List Token} :
      inside.length < (o :: (inside ++ [c])).length := by
    simp only [List.length_cons, List.length_append]
    omega
  cases form with
  | function opens closes balanced => exact .function opens closes balanced
  | condition opens closes balanced whole =>
    exact .condition opens closes balanced ((same _ _ shorter).1 whole)
  | feature opens closes balanced noCondition whole =>
    exact .feature opens closes balanced
      (fun inner derives => noCondition inner ((same _ _ shorter).2 derives)) whole
  | enclosed opens closes balanced noCondition noTest =>
    exact .enclosed opens closes balanced
      (fun inner derives => noCondition inner ((same _ _ shorter).2 derives)) noTest

theorem InParens.Following.mono {word : String} {ts : List Token} {xs : List InParens}
    (sub : ∀ us x, us.length ≤ ts.length → item us x → item' us x)
    (following : InParens.Following item word ts xs) : InParens.Following item' word ts xs := by
  induction following with
  | nil => exact .nil
  | @cons w ts us x xs joined first rest ih =>
    simp only [List.length_cons, List.length_append] at sub
    refine .cons joined (sub ts x (by omega) first) (ih fun vs y bound => sub vs y (by omega))

theorem Condition.Form.mono {allowOr : Bool} {ts : List Token} {c : Condition}
    (sub : ∀ us x, us.length ≤ ts.length → item us x → item' us x)
    (form : Condition.Form item allowOr ts c) : Condition.Form item' allowOr ts c := by
  cases form with
  | not word whole => exact .not word (sub _ _ (by simp) whole)
  | and first rest =>
    simp only [List.length_append] at sub
    exact .and (sub _ _ (by omega) first) (rest.mono fun us y bound => sub us y (by omega))
  | or first rest several =>
    simp only [List.length_append] at sub
    exact .or (sub _ _ (by omega) first) (rest.mono fun us y bound => sub us y (by omega)) several

/-- The conditions that tokens derive are made of the items that tokens derive. -/
theorem Condition.derives_iff {ts : List Token} {c : Condition} :
    Condition.Derives test source ts c ↔
      Condition.Form (InParens.Derives test source) true ts c := by
  rw [Condition.Derives]
  constructor
  · refine Condition.Form.mono fun us x bound form => ?_
    refine InParens.Form.mono (fun inside inner shorter => ?_) form
    exact ⟨fun ⟨_, derives⟩ => derives, fun derives => ⟨by omega, derives⟩⟩
  · refine Condition.Form.mono fun us x bound form => ?_
    refine InParens.Form.mono (fun inside inner shorter => ?_) form
    exact ⟨fun derives => ⟨by omega, derives⟩, fun ⟨_, derives⟩ => derives⟩

/-- An item begins with an opening token, so a condition begins like one. -/
theorem Condition.Derives.begins {ts : List Token} {c : Condition}
    (derives : Condition.Derives test source ts c) : Query.beginsCondition ts = true := by
  rw [Condition.derives_iff] at derives
  cases derives with
  | not word whole =>
    obtain ⟨opener, inside, closer, rfl, opens, _⟩ := whole.parens
    simp [Query.beginsCondition, word, opens]
  | and first | or first =>
    obtain ⟨opener, inside, closer, rfl, opens, _⟩ := first.parens
    simp [Query.beginsCondition, opens]

section Tests

variable {P : Feature → Prop}

theorem InParens.Following.features {word : String} {ts : List Token} {xs : List InParens}
    (each : ∀ us x, us <:+: ts → item us x → ∀ f ∈ x.features, P f)
    (following : InParens.Following item word ts xs) : ∀ f ∈ InParens.allFeatures xs, P f := by
  induction following with
  | nil => simp [InParens.allFeatures]
  | @cons w ts us x xs joined first rest ih =>
    have front : ts <:+: w :: (ts ++ us) := ⟨[w], us, by simp⟩
    have behind : us <:+: w :: (ts ++ us) := ⟨w :: ts, [], by simp⟩
    simp only [InParens.allFeatures, List.forall_mem_append]
    exact ⟨each ts x front first, ih fun vs y sub => each vs y (sub.trans behind)⟩

theorem Condition.Form.features {allowOr : Bool} {ts : List Token} {c : Condition}
    (each : ∀ us x, us <:+: ts → item us x → ∀ f ∈ x.features, P f)
    (form : Condition.Form item allowOr ts c) : ∀ f ∈ c.features, P f := by
  cases form with
  | @not _ t ts x word whole => exact each ts x ⟨[t], [], by simp⟩ whole
  | @and _ ts us x xs first rest | @or ts us x xs first rest several =>
    simp only [Condition.features, InParens.allFeatures, List.forall_mem_append]
    exact ⟨each ts x (List.prefix_append ts us).isInfix first, rest.features fun vs y sub =>
      each vs y (sub.trans (List.suffix_append ts us).isInfix)⟩

/-- The tests in an item are tests of the grammar, each within the tokens of the item. -/
theorem InParens.Derives.features {ts : List Token} {x : InParens}
    (derives : InParens.Derives test source ts x) :
    ∀ f ∈ x.features, ∃ us, us <:+: ts ∧ test us f := by
  induction length : ts.length using Nat.strongRecOn generalizing ts x with
  | ind size ih =>
    cases derives with
    | function => simp [InParens.features]
    | enclosed => simp [InParens.features]
    | @feature opener closer inside f opens closes balanced noCondition whole =>
      simp only [InParens.features, List.mem_singleton, forall_eq]
      exact ⟨inside, ⟨[opener], [closer], by simp⟩, whole⟩
    | @condition opener closer inside inner opens closes balanced whole =>
      simp only [List.length_cons, List.length_append] at length
      rw [InParens.features]
      refine (Condition.derives_iff.1 whole).features fun us y sub nested f mem => ?_
      have bound := sub.length_le
      obtain ⟨vs, part, tests⟩ := ih us.length (by omega) nested rfl f mem
      exact ⟨vs, (part.trans sub).trans ⟨[opener], [closer], by simp⟩, tests⟩

theorem Query.Form.features {ts : List Token} {q : Query}
    (form : Query.Form (InParens.Derives test source) ts q) :
    ∀ f ∈ q.features, ∃ us, us <:+: ts ∧ test us f := by
  have each {us : List Token} {x : InParens} (sub : us <:+: ts)
      (derives : InParens.Derives test source us x) :
      ∀ f ∈ x.features, ∃ vs, vs <:+: ts ∧ test vs f := fun f mem => by
    obtain ⟨vs, part, tests⟩ := derives.features f mem
    exact ⟨vs, part.trans sub, tests⟩
  cases form with
  | condition begins whole => exact whole.features fun us x sub derives => each sub derives
  | @typed lead ts t qualifier name condition begins qualified named legal behind =>
    cases behind with
    | none => simp [Query.features]
    | @some w ts c joined whole =>
      have behind : ts <:+: lead ++ t :: w :: ts := ⟨lead ++ [t, w], [], by simp⟩
      exact whole.features fun us x sub derives => each (sub.trans behind) derives

/-- The tests in a query list are tests of the grammar, each within the tokens of the list. -/
theorem QueryList.Derives.features {ts : List Token} {list : QueryList}
    (derives : QueryList.Derives test source ts list) :
    ∀ f ∈ list.features, ∃ us, us <:+: ts ∧ test us f := by
  rcases derives with ⟨_, rfl⟩ | form
  · simp [QueryList.features, Query.features, Query.ofType]
  · induction form with
    | last nonempty balanced whole => simpa [QueryList.features] using whole.features
    | @cons ts us comma q qs nonempty balanced whole isComma rest ih =>
      have front : ts <:+: ts ++ comma :: us := (List.prefix_append _ _).isInfix
      have behind : us <:+: ts ++ comma :: us := ⟨ts ++ [comma], [], by simp⟩
      simp only [QueryList.features, List.flatMap_cons, List.forall_mem_append]
      constructor
      · intro f mem
        obtain ⟨vs, part, tests⟩ := whole.features f mem
        exact ⟨vs, part.trans front, tests⟩
      · intro f mem
        obtain ⟨vs, part, tests⟩ := ih f mem
        exact ⟨vs, part.trans behind, tests⟩

end Tests

end MediaQuery
