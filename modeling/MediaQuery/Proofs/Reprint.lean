import MediaQuery.Proofs.Names
import MediaQuery.Proofs.Printing
import MediaQuery.Proofs.Reread

set_option autoImplicit false

namespace MediaQuery

open Text

section Formed

variable {ts all : List Token}

theorem Token.isName_of_ident? {t : Token} {name : String} (spelt : t.kind.Spelt)
    (named : t.ident? = some name) : IsName name := by
  rwa [Token.kind_of_ident? named] at spelt

/-- A value that is read and can be printed is well-formed when its text is read. -/
theorem Value.Form.formed {v : Value} (form : Value.Form ts v)
    (spelt : ∀ t ∈ ts, t.kind.Spelt) (printable : v.Printable) : v.reread.WellFormed := by
  cases form with
  | number kind => exact ⟨printable, rfl⟩
  | dimension kind =>
    have unit := spelt _ List.mem_cons_self
    rw [kind] at unit
    exact ⟨printable.1, unit.imp_right fun isName => ⟨isName, printable.2⟩⟩
  | ident kind =>
    have isName := spelt _ List.mem_cons_self
    rwa [kind] at isName
  | ratio numerator slash denominator => exact printable

theorem Feature.Reads.formed {f : Feature} (reads : Feature.Reads ts f)
    (spelt : ∀ t ∈ ts, t.kind.Spelt) (printable : f.Printable) :
    f.reread.WellFormed := by
  obtain ⟨form, noName⟩ := reads
  unfold Feature.Printable at printable
  cases form with
  | boolean named => exact Token.isName_of_ident? (spelt _ List.mem_cons_self) named
  | plain named isColon written =>
    simp only [List.forall_mem_cons] at spelt
    simp only [Feature.values, List.forall_mem_cons] at printable
    exact ⟨Token.isName_of_ident? spelt.1 named, written.formed spelt.2.2 printable.1⟩
  | right named compares written =>
    simp only [List.forall_mem_cons] at spelt
    exact ⟨Token.isName_of_ident? spelt.1 named,
      written.formed spelt.2.2 (printable _ (by simp [Feature.values]))⟩
  | left named compares written =>
    simp only [List.forall_mem_append, List.forall_mem_cons] at spelt
    refine ⟨Token.isName_of_ident? spelt.2.2.1 named,
      written.formed spelt.1 (printable _ (by simp [Feature.values])), ?_⟩
    rw [Value.ident?_reread]
    exact noName _ _ _ rfl
  | both named comparesLow comparesHigh along writtenLow writtenHigh =>
    simp only [List.forall_mem_append, List.forall_mem_cons] at spelt
    exact ⟨Token.isName_of_ident? spelt.2.2.1 named,
      writtenLow.formed spelt.1 (printable _ (by simp [Feature.values])),
      writtenHigh.formed spelt.2.2.2.2 (printable _ (by simp [Feature.values])), along⟩

/-- Items within some tokens are well-formed when their texts are read, if their values can be
printed. -/
def InParens.Formed (item : List Token → InParens → Prop) (ts : List Token) : Prop :=
  ∀ us x, us <:+: ts → item us x → (∀ f ∈ x.features, f.Printable) → x.reread.WellFormed

theorem InParens.Formed.sub {item : List Token → InParens → Prop} {us : List Token}
    (formed : InParens.Formed item ts) (sub : us <:+: ts) : InParens.Formed item us :=
  fun vs x inner => formed vs x (inner.trans sub)

theorem InParens.Following.formed {item : List Token → InParens → Prop} {word : String}
    {xs : List InParens} (each : InParens.Formed item ts)
    (following : InParens.Following item word ts xs)
    (printable : ∀ f ∈ InParens.allFeatures xs, f.Printable) :
    InParens.AllWellFormed (InParens.rereadAll xs) := by
  induction following with
  | nil => trivial
  | @cons w ts us x xs joined first rest ih =>
    simp only [InParens.allFeatures, List.forall_mem_append] at printable
    have front : ts <:+: w :: (ts ++ us) := ⟨[w], us, by simp⟩
    have behind : us <:+: w :: (ts ++ us) := ⟨w :: ts, [], by simp⟩
    exact ⟨each ts x front first printable.1, ih (each.sub behind) printable.2⟩

theorem Condition.Form.formed {item : List Token → InParens → Prop} {allowOr : Bool}
    {c : Condition} (each : InParens.Formed item ts) (form : Condition.Form item allowOr ts c)
    (printable : ∀ f ∈ c.features, f.Printable) :
    c.reread.WellFormed ∧ (c.reread.isOr = true → allowOr = true) := by
  cases form with
  | @not _ t ts x word whole =>
    have formed := each ts x ⟨[t], [], by simp⟩ whole printable
    exact ⟨formed, fun isOr => by cases isOr⟩
  | @and _ ts us x xs first rest =>
    simp only [Condition.features, InParens.allFeatures, List.forall_mem_append] at printable
    have formed := rest.formed (each.sub (List.suffix_append ts us).isInfix) printable.2
    have formedFirst := each ts x (List.prefix_append ts us).isInfix first printable.1
    exact ⟨⟨by simp [InParens.rereadAll], formedFirst, formed⟩, fun isOr => by cases isOr⟩
  | @or ts us x xs first rest several =>
    simp only [Condition.features, InParens.allFeatures, List.forall_mem_append] at printable
    have formed := rest.formed (each.sub (List.suffix_append ts us).isInfix) printable.2
    have formedFirst := each ts x (List.prefix_append ts us).isInfix first printable.1
    refine ⟨⟨?_, formedFirst, formed⟩, fun _ => rfl⟩
    cases xs with
    | nil => exact absurd rfl several
    | cons y ys => simp [InParens.rereadAll]

variable {source : List Char}

theorem InParens.Derives.formed (lexes : Lexes 0 source all) :
    InParens.Formed (InParens.Derives Feature.Reads source) all := by
  have spelt := lexes.spelt
  intro ts x sub derives printable
  induction length : ts.length using Nat.strongRecOn generalizing ts x with
  | ind size ih =>
    cases x with
    | enclosed text =>
      obtain ⟨before, after, rfl⟩ := sub
      rw [List.append_assoc] at lexes
      exact Condition.parse_enclosed lexes derives
    | feature f =>
      cases derives with
      | @feature opener closer inside f opens closes balanced noCondition whole =>
        have inner : inside <:+: all := .trans ⟨[opener], [closer], by simp⟩ sub
        exact whole.formed (fun t mem => spelt t (inner.subset mem))
          (printable f (by simp [InParens.features]))
    | condition c =>
      cases derives with
      | @condition opener closer inside inner opens closes balanced whole =>
        have within : inside <:+: all := .trans ⟨[opener], [closer], by simp⟩ sub
        simp only [List.length_cons, List.length_append] at length
        have each : InParens.Formed (InParens.Derives Feature.Reads source) inside :=
          fun us y part nested tests => by
            have bound := part.length_le
            exact ih us.length (by omega) us y (part.trans within) nested tests rfl
        exact ((Condition.derives_iff.1 whole).formed each printable).1

theorem Query.Form.formed (lexes : Lexes 0 source all) (sub : ts <:+: all) {q : Query}
    (form : Query.Form (InParens.Derives Feature.Reads source) ts q)
    (printable : ∀ f ∈ q.features, f.Printable) : q.reread.WellFormed := by
  have each := (InParens.Derives.formed lexes).sub sub
  cases form with
  | condition begins whole =>
    refine ⟨trivial, ?_, ?_⟩
    · rintro _ ⟨⟩
      exact (whole.formed each printable).1
    · rintro _ ⟨⟩ typed
      cases typed
  | @typed lead ts t qualifier name condition begins qualified named legal behind =>
    have isName := Token.isName_of_ident? (lexes.spelt t (sub.subset (by simp))) named
    have medium : (MediaType.ofName name).WellFormed := by
      unfold MediaType.ofName
      split
      · trivial
      · trivial
      · trivial
      · exact ⟨isName, legal, by simp_all⟩
    cases behind with
    | none => exact ⟨medium, (fun _ found => by cases found), fun _ found => by cases found⟩
    | @some w ts c joined whole =>
      have part : ts <:+: lead ++ t :: w :: ts := ⟨lead ++ [t, w], [], by simp⟩
      have formed := whole.formed (each.sub part) printable
      refine ⟨medium, ?_, ?_⟩
      · rintro _ ⟨⟩
        exact formed.1
      · rintro _ ⟨⟩ _
        rw [← Bool.not_eq_true]
        exact fun isOr => Bool.false_ne_true (formed.2 isOr)

theorem QueryList.Form.formed (lexes : Lexes 0 source all) {list : QueryList} (sub : ts <:+: all)
    (form : QueryList.Form (InParens.Derives Feature.Reads source) ts list)
    (printable : ∀ f ∈ list.features, f.Printable) : list.reread.WellFormed := by
  induction form with
  | last nonempty balanced whole =>
    simp only [QueryList.features, List.flatMap_cons, List.forall_mem_append] at printable
    refine ⟨by simp [QueryList.reread], ?_⟩
    simpa [QueryList.reread] using whole.formed lexes sub printable.1
  | @cons ts us comma q qs nonempty balanced whole isComma rest ih =>
    simp only [QueryList.features, List.flatMap_cons, List.forall_mem_append] at printable
    have front := whole.formed lexes (.trans (List.prefix_append _ _).isInfix sub) printable.1
    have behind := ih (.trans ⟨ts ++ [comma], [], by simp⟩ sub) printable.2
    exact ⟨by simp [QueryList.reread], List.forall_mem_cons.2 ⟨front, behind.2⟩⟩

end Formed

theorem QueryList.parse_text_of_parse {source : String} {list : QueryList}
    (parsed : QueryList.parse source = .ok list) (printable : ∀ f ∈ list.features, f.Printable) :
    QueryList.parse list.text = .ok list.reread := by
  obtain ⟨ps, pieces, _⟩ := bind_eq_ok.1 parsed
  obtain ⟨ts, lexed, _⟩ := bind_eq_ok.1 pieces
  rw [← QueryList.text_reread]
  refine QueryList.parse_of_spells (QueryList.spells ?_)
  rcases (QueryList.parse_eq_ok_iff lexed).1 parsed with ⟨_, rfl⟩ | form
  · refine ⟨by simp [QueryList.reread], fun q mem => ?_⟩
    rw [List.mem_singleton.1 mem]
    exact ⟨trivial, (fun _ found => by cases found), fun _ found => by cases found⟩
  · exact form.formed (tokenize_eq_ok.1 lexed) (List.infix_refl ts) printable

/-- The test of a name against a number that is written in digits. -/
theorem QueryList.parse_numeral {name source : String} (isName : IsName name)
    {n : Decimal.Numeral} (plain : n.Plain)
    (spelt : source.toList = '(' :: (name.toList ++ ':' :: ' ' :: n.chars ++ [')'])) :
    QueryList.parse source = .ok
      [.ofCondition (.single (.feature (.plain name (.number n.toFloat n.isInteger))))] := by
  have begins : Lexeme.read ':' (' ' :: n.chars) = .token .colon 0 := rfl
  have colon := Spells.mark begins (Spells.numeral plain).space
  have reads : Spells (name.toList ++ ':' :: ' ' :: n.chars) fun _ ts =>
      Feature.Reads ts (.plain name (.number n.toFloat n.isInteger)) := by
    refine ((Spells.name isName).append .colon colon).mono fun _ ts => ?_
    rintro ⟨_, _, rfl, ⟨t, rfl, named⟩, c, _, rfl, isColon, u, rfl, isNumber⟩
    exact ⟨.plain named isColon (.number isNumber), nofun⟩
  refine QueryList.parse_of_spells ?_
  rw [spelt]
  refine (Feature.spells_parens reads).mono fun whole ts derives => ?_
  have form := (Condition.Form.single derives).read
  exact .last form.nonempty form.balanced form.form

/-- Printing what was read keeps its meaning, for lists whose tests last. -/
theorem QueryList.compile_parse_text {source : String} {list : QueryList}
    (parsed : QueryList.parse source = .ok list) (lasting : ∀ f ∈ list.features, f.Lasts) :
    ∃ again, QueryList.parse list.text = .ok again ∧ ∀ m, again.compile m = list.compile m :=
  ⟨list.reread, QueryList.parse_text_of_parse parsed fun f mem => (lasting f mem).printable,
    fun m => QueryList.compile_reread m lasting⟩

/-- A number that is written with a fraction of zero keeps its meaning where integers do not
matter, although it is printed without the fraction. -/
theorem QueryList.compile_parse_text_devicePixelRatio :
    let list : QueryList := [.ofCondition (.single (.feature
      (.plain "-webkit-device-pixel-ratio" (.number 2 false))))]
    list.text = "(-webkit-device-pixel-ratio: 2)" ∧
      ∃ again, QueryList.parse list.text = .ok again ∧
        ∀ m, again.compile m = list.compile m := by
  intro list
  have plain : Decimal.Numeral.Plain ⟨[], ['2'], some ['0'], none⟩ :=
    ⟨.inl rfl, by decide, by rintro _ ⟨⟩; decide, rfl⟩
  have parsed : QueryList.parse "(-webkit-device-pixel-ratio: 2.0)" = .ok list := by
    have isName : IsName "-webkit-device-pixel-ratio" := by decide
    have value : Decimal.Numeral.toFloat ⟨[], ['2'], some ['0'], none⟩ = 2 := by decide +kernel
    rw [QueryList.parse_numeral isName plain (by decide), value]
    rfl
  exact ⟨by decide +kernel, QueryList.compile_parse_text parsed (by decide +kernel)⟩

/-- Printing does not keep every meaning: `1.0` is no integer, but its text is read as one. -/
theorem QueryList.exists_changed_by_printing :
    ¬∀ (source : String) (list : QueryList), QueryList.parse source = .ok list →
      ∀ m : Metrics, ∃ again, QueryList.parse list.text = .ok again ∧
        (again.compile m).same (list.compile m) = true := by
  intro every
  have plain : Decimal.Numeral.Plain ⟨[], ['1'], some ['0'], none⟩ :=
    ⟨.inl rfl, by decide, by rintro _ ⟨⟩; decide, rfl⟩
  have isName : IsName "color" := by decide
  have spelt : "(color: 1.0)".toList = '(' :: ("color".toList ++ ':' :: ' ' ::
      Decimal.Numeral.chars ⟨[], ['1'], some ['0'], none⟩ ++ [')']) := by decide
  have parsed := QueryList.parse_numeral isName plain spelt
  obtain ⟨again, reparsed, same⟩ := every _ _ parsed {}
  rw [QueryList.parse_text_of_parse parsed (by decide +kernel)] at reparsed
  cases reparsed
  exact absurd same (by decide +kernel)

end MediaQuery
