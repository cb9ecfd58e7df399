import MediaQuery.Proofs.Printing
import MediaQuery.Proofs.Vocabulary

set_option autoImplicit false

namespace MediaQuery

open Text

def Value.Shaped (v : Value) : Prop :=
  v.Lexical ∧ ∀ x unit, v = .dimension x unit → unit = "%" ∨ IsName unit

/-- A test of a name in lower case. A comparison has a side, two sides point the same way, and no
name stands alone on the left. -/
def Feature.Shaped : Feature → Prop
  | .boolean name => IsName name
  | .plain name value => IsName name ∧ value.Shaped
  | .range _ none none => False
  | .range name none (some (_, right)) => IsName name ∧ right.Shaped
  | .range name (some (left, _)) none => IsName name ∧ left.Shaped ∧ left.ident? = none
  | .range name (some (left, low)) (some (high, right)) => IsName name ∧ left.Shaped ∧
      right.Shaped ∧ (low.isLess ∧ high.isLess ∨ low.isGreater ∧ high.isGreater)

/-- A text of a source between the offsets of an opening token and of its partner. -/
inductive Text.IsEnclosure (source : List Char) (ts : List Token) : String → Prop where
  | intro {opener closer : Token} {inside : List Token} {front text back : List Char}
      (place : opener :: (inside ++ [closer]) <:+: ts)
      (opens : opener.isOpening = true) (closes : closer.isClosing = true)
      (balanced : Balanced (fun _ => true) inside)
      (written : source = front ++ (text ++ ')' :: back))
      (begins : opener.start = byteSize front)
      (ends : closer.stop = byteSize (front ++ (text ++ [')']))) :
      IsEnclosure source ts (String.ofList (text ++ [')']))

section Shapes

variable (P : Feature → Prop) (Q : String → Prop)

mutual

/-- An item of which `P` says what tests are like, and `Q` what texts are like. -/
def InParens.Shaped : InParens → Prop
  | .condition condition => condition.Shaped
  | .feature f => P f
  | .enclosed text => Q text

def InParens.AllShaped : List InParens → Prop
  | [] => True
  | item :: items => item.Shaped ∧ InParens.AllShaped items

/-- A condition with an item, or with two for `or`. -/
def Condition.Shaped : Condition → Prop
  | .and items => items ≠ [] ∧ InParens.AllShaped items
  | .or items => 2 ≤ items.length ∧ InParens.AllShaped items
  | .not item => item.Shaped

end

/-- A query of which only the condition may join its items by `or` if it has no medium. -/
structure Query.Shaped (q : Query) : Prop where
  mediaType : q.mediaType.WellFormed
  condition : ∀ c, q.condition = some c → c.Shaped P Q
  noOr : ∀ c, q.condition = some c → q.isBare = false → c.isOr = false

def QueryList.Shaped (list : QueryList) : Prop := list ≠ [] ∧ ∀ q ∈ list, q.Shaped P Q

end Shapes

section Derivations

variable {P : Feature → Prop} {Q : String → Prop} {item : List Token → InParens → Prop}
  {test : List Token → Feature → Prop} {source : List Char} {ts : List Token}

/-- The items within some tokens have their shape. -/
def InParens.Shapes (P : Feature → Prop) (Q : String → Prop) (item : List Token → InParens → Prop)
    (ts : List Token) : Prop :=
  ∀ us x, us <:+: ts → item us x → x.Shaped P Q

theorem InParens.Shapes.sub {us : List Token} (shapes : InParens.Shapes P Q item ts)
    (sub : us <:+: ts) : InParens.Shapes P Q item us :=
  fun vs x inner => shapes vs x (inner.trans sub)

theorem InParens.Following.shaped {word : String} {xs : List InParens}
    (each : InParens.Shapes P Q item ts) (following : InParens.Following item word ts xs) :
    InParens.AllShaped P Q xs := by
  induction following with
  | nil => trivial
  | @cons w ts us x xs joined first rest ih =>
    have front : ts <:+: w :: (ts ++ us) := ⟨[w], us, by simp⟩
    have behind : us <:+: w :: (ts ++ us) := ⟨w :: ts, [], by simp⟩
    exact ⟨each ts x front first, ih (each.sub behind)⟩

theorem Condition.Form.shaped {allowOr : Bool} {c : Condition}
    (each : InParens.Shapes P Q item ts) (form : Condition.Form item allowOr ts c) :
    c.Shaped P Q ∧ (c.isOr = true → allowOr = true) := by
  cases form with
  | @not _ t ts x word whole => exact ⟨each ts x ⟨[t], [], by simp⟩ whole, nofun⟩
  | @and _ ts us x xs first rest =>
    have front := each ts x (List.prefix_append ts us).isInfix first
    exact ⟨⟨by simp, front, rest.shaped (each.sub (List.suffix_append ts us).isInfix)⟩, nofun⟩
  | @or ts us x xs first rest several =>
    have front := each ts x (List.prefix_append ts us).isInfix first
    have two : 2 ≤ (x :: xs).length := by
      have := List.length_pos_iff.2 several
      rw [List.length_cons]
      omega
    exact ⟨⟨two, front, rest.shaped (each.sub (List.suffix_append ts us).isInfix)⟩, fun _ => rfl⟩

theorem InParens.Derives.shaped (tests : ∀ us f, us <:+: ts → test us f → P f)
    (texts : ∀ us s, us <:+: ts → InParens.Derives test source us (.enclosed s) → Q s) :
    InParens.Shapes P Q (InParens.Derives test source) ts := by
  intro us x sub derives
  induction length : us.length using Nat.strongRecOn generalizing us x with
  | ind size ih =>
    cases x with
    | enclosed text => exact texts us text sub derives
    | feature f =>
      cases derives with
      | @feature opener closer inside f opens closes balanced noCondition whole =>
        exact tests inside f (.trans ⟨[opener], [closer], by simp⟩ sub) whole
    | condition c =>
      cases derives with
      | @condition opener closer inside inner opens closes balanced whole =>
        have within : inside <:+: ts := .trans ⟨[opener], [closer], by simp⟩ sub
        simp only [List.length_cons, List.length_append] at length
        have each : InParens.Shapes P Q (InParens.Derives test source) inside :=
          fun vs y part nested => by
            have bound := part.length_le
            exact ih vs.length (by omega) vs y (part.trans within) nested rfl
        exact ((Condition.derives_iff.1 whole).shaped each).1

theorem MediaType.wellFormed_ofName {name : String} (isName : IsName name)
    (legal : name ∉ MediaType.reserved) : (MediaType.ofName name).WellFormed := by
  unfold MediaType.ofName
  split
  · trivial
  · trivial
  · trivial
  · exact ⟨isName, legal, by simp_all⟩

theorem Query.Form.shaped {q : Query} (each : InParens.Shapes P Q item ts)
    (spelt : ∀ t ∈ ts, t.kind.Spelt) (form : Query.Form item ts q) : q.Shaped P Q := by
  cases form with
  | condition begins whole =>
    refine ⟨trivial, ?_, ?_⟩
    · rintro _ ⟨⟩
      exact (whole.shaped each).1
    · rintro _ ⟨⟩ typed
      cases typed
  | @typed lead ts t qualifier name condition begins qualified named legal behind =>
    have isName : IsName name := by
      have isName := spelt t (by simp)
      rwa [Token.kind_of_ident? named] at isName
    have medium := MediaType.wellFormed_ofName isName legal
    cases behind with
    | none => exact ⟨medium, nofun, nofun⟩
    | @some w ts c joined whole =>
      have part : ts <:+: lead ++ t :: w :: ts := ⟨lead ++ [t, w], [], by simp⟩
      obtain ⟨shaped, onlyAllowed⟩ := whole.shaped (each.sub part)
      refine ⟨medium, ?_, ?_⟩
      · rintro _ ⟨⟩
        exact shaped
      · rintro _ ⟨⟩ _
        rw [← Bool.not_eq_true]
        exact fun isOr => Bool.false_ne_true (onlyAllowed isOr)

theorem QueryList.Form.shaped {list : QueryList} (each : InParens.Shapes P Q item ts)
    (spelt : ∀ t ∈ ts, t.kind.Spelt) (form : QueryList.Form item ts list) : list.Shaped P Q := by
  induction form with
  | last nonempty balanced whole =>
    exact ⟨by simp, List.forall_mem_singleton.2 (whole.shaped each spelt)⟩
  | @cons ts us comma q qs nonempty balanced whole isComma rest ih =>
    rw [List.forall_mem_append, List.forall_mem_cons] at spelt
    have front := whole.shaped (each.sub (List.prefix_append _ _).isInfix) spelt.1
    have behind := ih (each.sub ⟨ts ++ [comma], [], by simp⟩) spelt.2.2
    exact ⟨by simp, List.forall_mem_cons.2 ⟨front, behind.2⟩⟩

/-- A list has its shape if the tests and the texts in its tokens have theirs. -/
theorem QueryList.Derives.shaped {list : QueryList} (spelt : ∀ t ∈ ts, t.kind.Spelt)
    (tests : ∀ us f, us <:+: ts → test us f → P f)
    (texts : ∀ us s, us <:+: ts → InParens.Derives test source us (.enclosed s) → Q s)
    (derives : QueryList.Derives test source ts list) : list.Shaped P Q := by
  rcases derives with ⟨_, rfl⟩ | form
  · exact ⟨by simp, List.forall_mem_singleton.2 ⟨trivial, nofun, nofun⟩⟩
  · exact form.shaped (InParens.Derives.shaped tests texts) spelt

end Derivations

section Tokens

variable {source : List Char} {ts : List Token}

theorem Value.Form.shaped {v : Value} (form : Value.Form ts v) (spelt : ∀ t ∈ ts, t.kind.Spelt)
    (numeric : ∀ t ∈ ts, t.kind.Numeric) : v.Shaped := by
  refine ⟨form.lexical spelt numeric, ?_⟩
  rintro x unit rfl
  cases form with
  | dimension kind =>
    have unit := spelt _ List.mem_cons_self
    rwa [kind] at unit

theorem Feature.Reads.shaped {f : Feature} (reads : Feature.Reads ts f)
    (spelt : ∀ t ∈ ts, t.kind.Spelt) (numeric : ∀ t ∈ ts, t.kind.Numeric) : f.Shaped := by
  have isName {t : Token} {name : String} (mem : t ∈ ts) (named : t.ident? = some name) :
      IsName name := by
    have isName := spelt t mem
    rwa [Token.kind_of_ident? named] at isName
  have value {us : List Token} {v : Value} (sub : us ⊆ ts) (written : Value.Form us v) :
      v.Shaped :=
    written.shaped (fun t mem => spelt t (sub mem)) fun t mem => numeric t (sub mem)
  obtain ⟨form, noName⟩ := reads
  cases form with
  | boolean named => exact isName (by simp) named
  | plain named isColon written =>
    exact ⟨isName (by simp) named, value (fun t mem => by simp [mem]) written⟩
  | right named compares written =>
    exact ⟨isName (by simp) named, value (fun t mem => by simp [mem]) written⟩
  | left named compares written =>
    exact ⟨isName (by simp) named, value (List.subset_append_left _ _) written,
      noName _ _ _ rfl⟩
  | both named comparesLow comparesHigh along writtenLow writtenHigh =>
    refine ⟨isName (by simp) named, value (List.subset_append_left _ _) writtenLow,
      value (fun t mem => by simp [mem]) writtenHigh, ?_⟩
    simpa [Feature.sameDirection] using along

theorem Lexes.isEnclosure (lexes : Lexes 0 source ts) {opener closer : Token} {inside : List Token}
    (place : opener :: (inside ++ [closer]) <:+: ts) (opens : opener.isOpening = true)
    (closes : closer.isClosing = true) (balanced : Balanced (fun _ => true) inside) :
    IsEnclosure source ts (String.ofList (slice source opener.start closer.stop)) := by
  obtain ⟨front, text, back, rfl, begins, ends⟩ := lexes.exists_text place closes
  have parts : front ++ (text ++ ')' :: back) = front ++ ((text ++ [')']) ++ back) := by simp
  have same : slice (front ++ (text ++ ')' :: back)) opener.start closer.stop =
      text ++ [')'] := by
    rw [parts, ends, begins, byteSize_append, slice_append]
  rw [same]
  exact .intro place opens closes balanced rfl begins ends

theorem InParens.Derives.isEnclosure {test : List Token → Feature → Prop} {us : List Token}
    {text : String} (lexes : Lexes 0 source ts) (sub : us <:+: ts)
    (derives : InParens.Derives test source us (.enclosed text)) : IsEnclosure source ts text := by
  cases derives with
  | function opens closes balanced | enclosed opens closes balanced =>
    exact lexes.isEnclosure sub (by simp [Token.isOpening, opens]) closes balanced

end Tokens

/-- Every list that is read has its shape: tests and queries are as they can be written, and texts
are stretches of the source between matching parentheses. -/
theorem QueryList.shaped_of_parse {source : String} {list : QueryList}
    (parsed : QueryList.parse source = .ok list) :
    ∃ ts, tokenize source = .ok ts ∧
      list.Shaped Feature.Shaped (IsEnclosure source.toList ts) := by
  obtain ⟨ps, pieces, _⟩ := bind_eq_ok.1 parsed
  obtain ⟨ts, lexed, _⟩ := bind_eq_ok.1 pieces
  have lexes := tokenize_eq_ok.1 lexed
  have spelt := lexes.spelt
  have numeric := lexes.forall_kind (P := TokenKind.Numeric) fun _ _ _ _ => Lexeme.numeric_read
  refine ⟨ts, lexed, ((QueryList.parse_eq_ok_iff lexed).1 parsed).shaped spelt ?_ ?_⟩
  · intro us f sub reads
    exact reads.shaped (fun t mem => spelt t (sub.subset mem))
      fun t mem => numeric t (sub.subset mem)
  · intro us s sub derives
    exact derives.isEnclosure lexes sub

theorem QueryList.shaped_of_parse_enclosed :
    QueryList.parse "only tv, not (any (b))" =
      .ok [⟨some .only, .other "tv", none⟩, .ofCondition (.not (.enclosed "(any (b))"))] ∧
    ∃ ts, tokenize "only tv, not (any (b))" = .ok ts ∧
      QueryList.Shaped Feature.Shaped (IsEnclosure "only tv, not (any (b))".toList ts)
        [⟨some .only, .other "tv", none⟩, .ofCondition (.not (.enclosed "(any (b))"))] := by
  have parsed : QueryList.parse "only tv, not (any (b))" =
      .ok [⟨some .only, .other "tv", none⟩, .ofCondition (.not (.enclosed "(any (b))"))] := by
    cbv
  exact ⟨parsed, QueryList.shaped_of_parse parsed⟩

end MediaQuery
