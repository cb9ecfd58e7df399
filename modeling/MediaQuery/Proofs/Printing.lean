import MediaQuery.Proofs.Lists
import MediaQuery.Proofs.Placement
import MediaQuery.Proofs.ReadBack

set_option autoImplicit false

namespace MediaQuery

open Text

/-- A value whose text is read as this value: finite numbers that count as integers iff they are
whole, units that are no powers of ten, and names. -/
def Value.WellFormed : Value → Prop
  | .number value integer => Number.isFinite value = true ∧ integer = Number.isWhole value
  | .dimension value unit => Number.isFinite value = true ∧
      (unit = "%" ∨ IsName unit ∧ beginsPower unit.toList = false)
  | .ratio numerator denominator =>
    Number.isFinite numerator = true ∧ Number.isFinite denominator = true
  | .ident name => IsName name

/-- A test with a name and well-formed values; a comparison has a side, two sides point the same
way, and no name stands alone on the left. -/
def Feature.WellFormed : Feature → Prop
  | .boolean name => IsName name
  | .plain name value => IsName name ∧ value.WellFormed
  | .range _ none none => False
  | .range name none (some (_, right)) => IsName name ∧ right.WellFormed
  | .range name (some (left, _)) none => IsName name ∧ left.WellFormed ∧ left.ident? = none
  | .range name (some (left, low)) (some (high, right)) =>
    IsName name ∧ left.WellFormed ∧ right.WellFormed ∧ sameDirection low high = true

mutual

/-- An item with well-formed parts; enclosed text is read as itself. -/
def InParens.WellFormed : InParens → Prop
  | .condition condition => condition.WellFormed
  | .feature feature => feature.WellFormed
  | .enclosed text => Condition.parse text = .ok (.single (.enclosed text))

def InParens.AllWellFormed : List InParens → Prop
  | [] => True
  | item :: items => item.WellFormed ∧ InParens.AllWellFormed items

/-- A condition with an item, or with two for `or`. -/
def Condition.WellFormed : Condition → Prop
  | .and items => items ≠ [] ∧ InParens.AllWellFormed items
  | .or items => 2 ≤ items.length ∧ InParens.AllWellFormed items
  | .not item => item.WellFormed

end

def Condition.isOr : Condition → Bool
  | .or _ => true
  | _ => false

/-- A medium whose name stands for it. -/
def MediaType.WellFormed : MediaType → Prop
  | .other name =>
    IsName name ∧ name ∉ MediaType.reserved ∧ name ∉ ["all", "screen", "print"]
  | _ => True

/-- A query with well-formed parts; only without a medium may it join items by `or`. -/
structure Query.WellFormed (q : Query) : Prop where
  mediaType : q.mediaType.WellFormed
  condition : ∀ c, q.condition = some c → c.WellFormed
  noOr : ∀ c, q.condition = some c → q.isBare = false → c.isOr = false

/-- A list with a query, all of them well-formed. -/
def QueryList.WellFormed (list : QueryList) : Prop := list ≠ [] ∧ ∀ q ∈ list, q.WellFormed

namespace Spells

theorem numeral {n : Decimal.Numeral} (plain : n.Plain) :
    Spells n.chars fun _ ts => ∃ t, ts = [t] ∧ t.kind = .number n.toFloat n.isInteger := by
  cases spelt : n.chars with
  | nil => exact absurd spelt plain.chars_ne_nil
  | cons c cs => exact token (Decimal.Numeral.read_number plain spelt)

theorem number {x : Float} (finite : Number.isFinite x = true) :
    Spells (Decimal.proseText x).toList fun _ ts =>
      ∃ t, ts = [t] ∧ t.kind = .number x (Number.isWhole x) := by
  obtain ⟨n, plain, chars, integer, value⟩ := Decimal.exists_numeral finite
  rw [← chars, ← integer, ← value]
  exact numeral plain

theorem dimension {x : Float} {unit : String} (finite : Number.isFinite x = true)
    (formed : unit = "%" ∨ IsName unit ∧ beginsPower unit.toList = false) :
    Spells (Decimal.proseText x ++ unit).toList fun _ ts =>
      ∃ t, ts = [t] ∧ t.kind = .dimension x unit := by
  obtain ⟨n, plain, chars, _, value⟩ := Decimal.exists_numeral finite
  rw [String.toList_append, ← chars]
  cases spelt : n.chars ++ unit.toList with
  | nil => exact absurd (List.append_eq_nil_iff.1 spelt).1 plain.chars_ne_nil
  | cons c cs =>
    rw [← value]
    rcases formed with rfl | ⟨isName, noPower⟩
    · exact token (Decimal.Numeral.read_percent plain spelt)
    · exact token (Decimal.Numeral.read_unit plain isName noPower spelt)

/-- A slash in front of a number begins no comment. -/
theorem read_slash {x : Float} (finite : Number.isFinite x = true) :
    Lexeme.read '/' (Decimal.proseText x).toList = .token .slash 0 := by
  obtain ⟨n, plain, chars, _⟩ := Decimal.exists_numeral finite
  rw [← chars]
  cases spelt : n.chars with
  | nil => exact absurd spelt plain.chars_ne_nil
  | cons c cs =>
    have noStar : c ≠ '*' := by
      rintro rfl
      have whole : n.chars ++ [] = '*' :: cs := by rw [List.append_nil, spelt]
      rcases plain.head whole with begins | begins <;> cases begins
    have noComment : ¬('/' = '/' ∧ (c :: cs).head? = some '*') := by simpa using noStar
    rw [Lexeme.read, if_neg (by decide), if_neg noComment]
    rfl

end Spells

/-- A well-formed value is read from its text. -/
theorem Value.spells {v : Value} (formed : v.WellFormed) :
    Spells v.text.toList fun _ ts => Value.Form ts v := by
  cases v with
  | number x integer =>
    obtain ⟨finite, rfl⟩ := formed
    refine (Spells.number finite).mono fun _ ts => ?_
    rintro ⟨t, rfl, kind⟩
    exact .number kind
  | dimension x unit =>
    obtain ⟨finite, unit⟩ := formed
    refine (Spells.dimension finite unit).mono fun _ ts => ?_
    rintro ⟨t, rfl, kind⟩
    exact .dimension kind
  | ratio x y =>
    obtain ⟨finiteX, finiteY⟩ := formed
    have slash := Spells.mark (Spells.read_slash finiteY) (Spells.number finiteY)
    have whole := (Spells.number finiteX).append .slash slash
    rw [Value.text, String.toList_append, String.toList_append, List.append_assoc]
    refine whole.mono fun _ ts => ?_
    rintro ⟨_, _, rfl, ⟨n, rfl, numerator⟩, s, _, rfl, slash, d, rfl, denominator⟩
    exact .ratio numerator slash denominator
  | ident name =>
    refine (Spells.name formed).mono fun _ ts => ?_
    rintro ⟨t, rfl, named⟩
    exact .ident (Token.kind_of_ident? named)

/-- The text of a test inside of its parentheses. -/
def Feature.inner : Feature → List Char
  | .boolean name => name.toList
  | .plain name value => name.toList ++ ':' :: ' ' :: value.text.toList
  | .range name left right =>
    (left.map fun (value, op) => value.text.toList ++ ' ' :: (op.text.toList ++ [' '])).getD [] ++
      (name.toList ++ (right.map fun (op, value) =>
        ' ' :: (op.text.toList ++ ' ' :: value.text.toList)).getD [])

theorem Feature.toList_text (f : Feature) : f.text.toList = '(' :: (f.inner ++ [')']) := by
  cases f with
  | boolean name => simp [Feature.text, Feature.inner]
  | plain name value => simp [Feature.text, Feature.inner]
  | range name left right =>
    cases left <;> cases right <;> simp [Feature.text, Feature.inner]

/-- A well-formed test is read from its text. -/
theorem Feature.spells {f : Feature} (formed : f.WellFormed) :
    Spells f.inner fun _ ts => Feature.Reads ts f := by
  cases f with
  | boolean name =>
    refine (Spells.name formed).mono fun _ ts => ?_
    rintro ⟨t, rfl, named⟩
    exact ⟨.boolean named, nofun⟩
  | plain name value =>
    obtain ⟨isName, formed⟩ := formed
    have begins : Lexeme.read ':' (' ' :: value.text.toList) = .token .colon 0 := rfl
    have colon := Spells.mark begins (Value.spells formed).space
    refine ((Spells.name isName).append .colon colon).mono fun _ ts => ?_
    rintro ⟨_, _, rfl, ⟨t, rfl, named⟩, c, us, rfl, isColon, written⟩
    exact ⟨.plain named isColon written, nofun⟩
  | range name left right =>
    match left, right with
    | none, none => cases formed
    | none, some (op, value) =>
      obtain ⟨isName, formed⟩ := formed
      have behind := (Spells.comparison op).spaced (Value.spells formed)
      have whole := (Spells.name isName).spaced behind
      refine whole.mono fun _ ts => ?_
      rintro ⟨_, _, rfl, ⟨t, rfl, named⟩, _, us, rfl, ⟨o, rfl, compares⟩, written⟩
      exact ⟨.right named compares written, nofun⟩
    | some (value, op), none =>
      obtain ⟨isName, formed, noName⟩ := formed
      have behind := (Spells.comparison op).spaced (Spells.name isName)
      have whole := (Value.spells formed).spaced behind
      have text : Feature.inner (.range name (some (value, op)) none) =
          value.text.toList ++ ' ' :: (op.text.toList ++ ' ' :: name.toList) := by
        simp [Feature.inner]
      rw [text]
      refine whole.mono fun _ ts => ?_
      rintro ⟨us, _, rfl, written, _, _, rfl, ⟨o, rfl, compares⟩, t, rfl, named⟩
      refine ⟨.left named compares written, ?_⟩
      intro name' value' op' same
      cases same
      exact noName
    | some (low, op), some (op', high) =>
      obtain ⟨isName, formedLow, formedHigh, along⟩ := formed
      have behind := (Spells.comparison op').spaced (Value.spells formedHigh)
      have whole := (Value.spells formedLow).spaced
        ((Spells.comparison op).spaced ((Spells.name isName).spaced behind))
      have text : Feature.inner (.range name (some (low, op)) (some (op', high))) =
          low.text.toList ++ ' ' :: (op.text.toList ++ ' ' :: (name.toList ++
            ' ' :: (op'.text.toList ++ ' ' :: high.text.toList))) := by
        simp [Feature.inner]
      rw [text]
      refine whole.mono fun _ ts => ?_
      rintro ⟨us, _, rfl, writtenLow, _, _, rfl, ⟨o, rfl, compares⟩, _, _, rfl,
        ⟨t, rfl, named⟩, _, vs, rfl, ⟨o', rfl, compares'⟩, writtenHigh⟩
      exact ⟨.both named compares compares' along writtenLow writtenHigh, nofun⟩

namespace Balanced

variable {top : Token → Bool} {ts us : List Token}

theorem append (left : Balanced top ts) (right : Balanced top us) : Balanced top (ts ++ us) := by
  induction left with
  | nil => exact right
  | token noOpener noCloser allowed rest ih => exact .token noOpener noCloser allowed (ih right)
  | parens opens closes within rest ih ihRest =>
    rw [List.cons_append, List.append_assoc, List.cons_append]
    exact .parens opens closes within (ihRest right)

theorem of_noParens (noParens : ∀ t ∈ ts, t.isOpening = false ∧ t.isClosing = false)
    (allowed : ∀ t ∈ ts, top t = true) : Balanced top ts := by
  induction ts with
  | nil => exact .nil
  | cons t ts ih =>
    rw [List.forall_mem_cons] at noParens allowed
    exact .token noParens.1.1 noParens.1.2 allowed.1 (ih noParens.2 allowed.2)

theorem cons_ident {t : Token} {name : String} (named : t.ident? = some name)
    (allowed : top t = true) (rest : Balanced top ts) : Balanced top (t :: ts) :=
  .token (Token.noParens_of_ident? named).1 (Token.noParens_of_ident? named).2 allowed rest

theorem of_item {source : List Char} {nested : List Token → Condition → Prop}
    {test : List Token → Feature → Prop} {x : InParens}
    (form : InParens.Form source nested test ts x) : Balanced top ts := by
  obtain ⟨opener, inside, closer, rfl, opens, closes, balanced⟩ := form.parens
  exact .parens opens closes balanced .nil

end Balanced

section Conditions

variable {source : List Char} {nested : List Token → Condition → Prop}
  {test : List Token → Feature → Prop} {top : Token → Bool} {ts : List Token}

theorem InParens.Following.balanced {word : String} {xs : List InParens}
    (names : ∀ t name, t.ident? = some name → top t = true)
    (following : InParens.Following (InParens.Form source nested test) word ts xs) :
    Balanced top ts := by
  induction following with
  | nil => exact .nil
  | cons joined first rest ih =>
    exact .cons_ident joined (names _ _ joined) ((Balanced.of_item first).append ih)

/-- The tokens of a condition balance, and only names stand outside of parentheses. -/
theorem Condition.Form.balanced {allowOr : Bool} {c : Condition}
    (names : ∀ t name, t.ident? = some name → top t = true)
    (form : Condition.Form (InParens.Form source nested test) allowOr ts c) :
    Balanced top ts := by
  cases form with
  | not word whole => exact .cons_ident word (names _ _ word) (.of_item whole)
  | and first rest | or first rest => exact (Balanced.of_item first).append (rest.balanced names)

end Conditions

theorem Query.beginsCondition_of_noParens {ts : List Token}
    (noParens : ∀ t ∈ ts, t.isOpening = false ∧ t.isClosing = false) :
    Query.beginsCondition ts = false := by
  cases ts with
  | nil => rfl
  | cons t ts =>
    rw [List.forall_mem_cons] at noParens
    cases ts with
    | nil => simp [Query.beginsCondition, noParens.1]
    | cons u us => simp [Query.beginsCondition, noParens.1, noParens.2 u List.mem_cons_self]

/-- The items that tokens of some source derive. -/
abbrev InParens.Read (source : List Char) (ts : List Token) (x : InParens) : Prop :=
  InParens.Derives Feature.Reads source ts x

/-- Items with a word between them. -/
def InParens.Joined (item : List Token → InParens → Prop) (word : String) (ts : List Token)
    (items : List InParens) : Prop :=
  ∃ us vs x xs, ts = us ++ vs ∧ items = x :: xs ∧ item us x ∧
    InParens.Following item word vs xs

theorem Feature.spells_parens {f : Feature} {cs : List Char}
    (spells : Spells cs fun _ ts => Feature.Reads ts f) :
    Spells ('(' :: (cs ++ [')'])) fun source ts => InParens.Read source ts (.feature f) := by
  refine (Spells.parens spells).mono fun source ts => ?_
  rintro ⟨opener, inside, closer, rfl, opens, closes, reads⟩
  have noParens := reads.1.noParens
  have noCondition (c : Condition) :
      ¬Condition.Derives Feature.Reads source inside c := fun derives => by
    have begins := derives.begins
    rw [Query.beginsCondition_of_noParens noParens] at begins
    cases begins
  exact .feature opens closes (.of_noParens noParens fun _ _ => rfl) noCondition reads

mutual

/-- A well-formed item is read from its text. -/
theorem InParens.spells : ∀ x : InParens, x.WellFormed →
    Spells x.text.toList fun source ts => InParens.Read source ts x
  | .condition c, formed => by
    have whole := (Condition.spells c formed true fun _ => rfl).parens
    rw [InParens.text, String.toList_append, String.toList_append, List.append_assoc]
    refine whole.mono fun source ts => ?_
    rintro ⟨opener, inside, closer, rfl, opens, closes, form⟩
    exact .condition opens closes (form.balanced fun _ _ _ => rfl) (Condition.derives_iff.2 form)
  | .feature f, formed => by
    rw [InParens.text, f.toList_text]
    exact Feature.spells_parens (Feature.spells formed)
  | .enclosed text, formed => InParens.derives_enclosed formed

theorem InParens.spells_joined {word : String} (isWord : IsName word) : ∀ items : List InParens,
    items ≠ [] → InParens.AllWellFormed items → Spells (InParens.joined word items).toList
      fun source ts => InParens.Joined (InParens.Read source) word ts items
  | [], filled, _ => absurd rfl filled
  | [x], _, formed => by
    have text : (InParens.joined word [x]).toList = x.text.toList := by
      simp [InParens.joined, InParens.following]
    rw [text]
    refine (InParens.spells x formed.1).mono fun source ts derives => ?_
    exact ⟨ts, [], x, [], by simp, rfl, derives, .nil⟩
  | x :: y :: ys, _, formed => by
    have rest := InParens.spells_joined isWord (y :: ys) (by simp) formed.2
    have text : (InParens.joined word (x :: y :: ys)).toList = x.text.toList ++
        ' ' :: (word.toList ++ ' ' :: (InParens.joined word (y :: ys)).toList) := by
      simp [InParens.joined, InParens.following]
    rw [text]
    have whole := (InParens.spells x formed.1).spaced ((Spells.name isWord).spaced rest)
    refine whole.mono fun source ts => ?_
    rintro ⟨us, _, rfl, derives, _, _, rfl, ⟨w, rfl, named⟩, us', vs, _, _, rfl, same, first, more⟩
    cases same
    exact ⟨us, w :: (us' ++ vs), x, _, rfl, rfl, derives, .cons named first more⟩

/-- A well-formed condition is read from its text, also where no `or` is allowed if it has
none. -/
theorem Condition.spells : ∀ c : Condition, c.WellFormed → ∀ allowOr : Bool,
    (c.isOr = true → allowOr = true) → Spells c.text.toList fun source ts =>
      Condition.Form (InParens.Read source) allowOr ts c
  | .and (x :: xs), formed, allowOr, _ => by
    refine (InParens.spells_joined (by decide) (x :: xs) formed.1 formed.2).mono fun source ts => ?_
    rintro ⟨us, vs, _, _, rfl, same, first, rest⟩
    cases same
    exact .and first rest
  | .or (x :: y :: ys), formed, allowOr, allowed => by
    obtain rfl := allowed rfl
    have filled : x :: y :: ys ≠ [] := by simp
    have isWord : IsName "or" := by decide
    have joined := InParens.spells_joined isWord (x :: y :: ys) filled formed.2
    refine joined.mono fun source ts => ?_
    rintro ⟨us, vs, _, _, rfl, same, first, rest⟩
    cases same
    exact .or first rest (by simp)
  | .not x, formed, allowOr, _ => by
    have isWord : IsName "not" := by decide
    rw [Condition.text, String.toList_append]
    refine ((Spells.name isWord).spaced (InParens.spells x formed)).mono fun source ts => ?_
    rintro ⟨_, ts, rfl, ⟨t, rfl, named⟩, derives⟩
    exact .not named derives

end

/-- What a query is read from: tokens with balanced parentheses and no comma outside of them. -/
structure Query.Read (source : List Char) (ts : List Token) (q : Query) : Prop where
  nonempty : ts ≠ []
  balanced : Balanced (fun t => !t.isComma) ts
  form : Query.Form (InParens.Read source) ts q

theorem Token.not_isComma_of_ident? {t : Token} {name : String} (named : t.ident? = some name) :
    (!t.isComma) = true := by
  simp [isComma, kind_of_ident? named]

theorem Condition.Form.read {source : List Char} {ts : List Token} {c : Condition}
    (form : Condition.Form (InParens.Read source) true ts c) :
    Query.Read source ts (.ofCondition c) := by
  have begins := (Condition.derives_iff.2 form).begins
  refine ⟨?_, form.balanced fun _ _ => Token.not_isComma_of_ident?, .condition begins form⟩
  rintro rfl
  cases begins

/-- The name of a well-formed medium stands for it and may be read as a medium. -/
theorem MediaType.WellFormed.name {t : MediaType} (formed : t.WellFormed) :
    IsName t.text ∧ t.text ∉ MediaType.reserved ∧ MediaType.ofName t.text = t := by
  cases t with
  | all => exact ⟨by decide, by decide, rfl⟩
  | screen => exact ⟨by decide, by decide, rfl⟩
  | print => exact ⟨by decide, by decide, rfl⟩
  | other name =>
    obtain ⟨isName, legal, other⟩ := formed
    simp only [List.mem_cons, not_or] at other
    refine ⟨isName, legal, ?_⟩
    simp only [MediaType.text, MediaType.ofName]
    split <;> simp_all

def Condition.behindText : Option Condition → List Char
  | some condition => ' ' :: ("and".toList ++ ' ' :: condition.text.toList)
  | none => []

/-- A medium and a condition behind it are read from their text. -/
theorem Query.spells_typed {t : MediaType} (formed : t.WellFormed) : ∀ condition,
    (∀ c, condition = some c → c.WellFormed ∧ c.isOr = false) →
    Spells (t.text.toList ++ Condition.behindText condition) fun source ts =>
      ∃ w us, ts = w :: us ∧ w.ident? = some t.text ∧
        Condition.Behind (InParens.Read source) us condition
  | none, _ => by
    rw [Condition.behindText, List.append_nil]
    refine (Spells.name formed.name.1).mono fun source ts => ?_
    rintro ⟨w, rfl, named⟩
    exact ⟨w, [], rfl, named, .none⟩
  | some c, each => by
    obtain ⟨formedC, noOr⟩ := each c rfl
    have condition := Condition.spells c formedC false (by simp [noOr])
    have isWord : IsName "and" := by decide
    have whole := (Spells.name formed.name.1).spaced ((Spells.name isWord).spaced condition)
    refine whole.mono fun source ts => ?_
    rintro ⟨_, _, rfl, ⟨w, rfl, named⟩, _, us, rfl, ⟨a, rfl, joined⟩, form⟩
    exact ⟨w, a :: us, rfl, named, .some joined form⟩

theorem Condition.Behind.balanced {source : List Char} {ts : List Token} {c : Option Condition}
    (behind : Condition.Behind (InParens.Read source) ts c) :
    Balanced (fun t => !t.isComma) ts := by
  cases behind with
  | none => exact .nil
  | some joined whole =>
    exact .cons_ident joined (Token.not_isComma_of_ident? joined)
      (whole.balanced fun _ _ => Token.not_isComma_of_ident?)

theorem Query.read_typed {source : List Char} {lead us : List Token} {w : Token}
    {qualifier : Option Qualifier} {t : MediaType} {condition : Option Condition}
    (formed : t.WellFormed) (qualified : Qualifier.Form lead qualifier)
    (named : w.ident? = some t.text)
    (behind : Condition.Behind (InParens.Read source) us condition) :
    Query.Read source (lead ++ w :: us) ⟨qualifier, t, condition⟩ := by
  obtain ⟨_, legal, same⟩ := formed.name
  have noOpener := (Token.noParens_of_ident? named).1
  have rest : Balanced (fun t => !t.isComma) (w :: us) :=
    .cons_ident named (Token.not_isComma_of_ident? named) behind.balanced
  have form (begins : beginsCondition (lead ++ w :: us) = false) :
      Query.Form (InParens.Read source) (lead ++ w :: us) ⟨qualifier, t, condition⟩ := by
    have form := Query.Form.typed begins qualified named legal behind
    rwa [same] at form
  cases qualified with
  | none =>
    have notNot : t.text ≠ "not" := by
      rintro isNot
      rw [isNot] at legal
      exact legal (by decide)
    exact ⟨by simp, rest, form (by simp [beginsCondition, noOpener, named, notNot])⟩
  | @some u word q spelt known =>
    have noOpener' := (Token.noParens_of_ident? spelt).1
    exact ⟨by simp, .cons_ident spelt (Token.not_isComma_of_ident? spelt) rest,
      form (by simp [beginsCondition, noOpener, noOpener'])⟩

/-- The text of a query that names its medium. -/
theorem Query.toList_text_of_typed {q : Query} (typed : q.condition = none ∨ q.isBare = false) :
    q.text.toList = (q.qualifier.map fun word => word.text.toList ++ [' ']).getD [] ++
      (q.mediaType.text.toList ++ Condition.behindText q.condition) := by
  obtain ⟨qualifier, mediaType, condition⟩ := q
  cases condition with
  | none => cases qualifier <;> simp [Query.text, Condition.behindText]
  | some c =>
    have named : (⟨qualifier, mediaType, some c⟩ : Query).isBare = false := by simpa using typed
    cases qualifier <;> simp [Query.text, named, Condition.behindText]

/-- A well-formed query is read from its text. -/
theorem Query.spells {q : Query} (formed : q.WellFormed) :
    Spells q.text.toList fun source ts => Query.Read source ts q := by
  by_cases typed : q.condition = none ∨ q.isBare = false
  · rw [Query.toList_text_of_typed typed]
    obtain ⟨qualifier, mediaType, condition⟩ := q
    have medium := Query.spells_typed formed.mediaType condition fun c some =>
      ⟨formed.condition c some, formed.noOr c some (by simpa [some] using typed)⟩
    cases qualifier with
    | none =>
      refine medium.mono fun source ts => ?_
      rintro ⟨w, us, rfl, named, behind⟩
      exact Query.read_typed formed.mediaType .none named behind
    | some qualifier =>
      have isWord : IsName qualifier.text := by cases qualifier <;> decide
      have known : Qualifier.ofName? qualifier.text = some qualifier := by cases qualifier <;> rfl
      rw [Option.map_some, Option.getD_some, List.append_assoc, List.singleton_append]
      refine ((Spells.name isWord).spaced medium).mono fun source ts => ?_
      rintro ⟨_, _, rfl, ⟨u, rfl, spelt⟩, w, us, rfl, named, behind⟩
      exact Query.read_typed formed.mediaType (.some spelt known) named behind
  · obtain ⟨qualifier, mediaType, condition⟩ := q
    simp only [not_or, Bool.not_eq_false, Query.isBare, Bool.and_eq_true, Option.isNone_iff_eq_none,
      beq_iff_eq] at typed
    obtain ⟨some, rfl, rfl⟩ := typed
    cases condition with
    | none => exact absurd rfl some
    | some c =>
      have whole := Condition.spells c (formed.condition c rfl) true fun _ => rfl
      exact whole.mono fun source ts form => form.read

theorem QueryList.spells : ∀ {list : QueryList}, list.WellFormed →
    Spells list.text.toList fun source ts => QueryList.Form (InParens.Read source) ts list
  | [], formed => absurd rfl formed.1
  | [q], formed => by
    have text : (QueryList.text [q]).toList = q.text.toList := by
      simp [QueryList.text]
    rw [text]
    refine (Query.spells (formed.2 q (by simp))).mono fun source ts => ?_
    rintro ⟨nonempty, balanced, form⟩
    exact .last nonempty balanced form
  | q :: r :: list, formed => by
    have formedRest : QueryList.WellFormed (r :: list) :=
      ⟨by simp, fun q mem => formed.2 q (by simp [mem])⟩
    have rest := QueryList.spells formedRest
    have text : (QueryList.text (q :: r :: list)).toList = q.text.toList ++
        ',' :: ' ' :: (QueryList.text (r :: list)).toList := by
      simp [QueryList.text]
    have begins : Lexeme.read ',' (' ' :: (QueryList.text (r :: list)).toList) =
      .token .comma 0 := rfl
    have comma := Spells.mark begins rest.space
    rw [text]
    refine ((Query.spells (formed.2 q (by simp))).append .comma comma).mono fun source ts => ?_
    rintro ⟨us, _, rfl, ⟨nonempty, balanced, form⟩, t, vs, rfl, isComma, more⟩
    exact .cons nonempty balanced form (by simp [Token.isComma, isComma]) more

theorem QueryList.parse_of_spells {source : String} {list : QueryList}
    (spells : Spells source.toList fun whole ts =>
      QueryList.Form (InParens.Read whole) ts list) : QueryList.parse source = .ok list := by
  obtain ⟨ts, lexes, form⟩ := spells [] []
  rw [List.nil_append, List.append_nil] at form
  exact (QueryList.parse_eq_ok_iff (tokenize_eq_ok.2 lexes)).2 (.inr form)

/-- Printing loses nothing: the text of a well-formed list is read as that list. -/
theorem QueryList.parse_text {list : QueryList} (formed : list.WellFormed) :
    QueryList.parse list.text = .ok list :=
  QueryList.parse_of_spells (QueryList.spells formed)

/-- A qualifier, a comparison on both sides, a unit that begins with `e`, a ratio, an `or` without
a medium and enclosed text are all read back. -/
theorem QueryList.parse_text_notTv :
    let typed : Query := ⟨some .not, .other "tv", some (.and [.feature (.range "width"
      (some (.dimension 400.5 "em", .le)) (some (.lt, .dimension (-0.25) "%")))])⟩
    let bare : Query := .ofCondition (.or [.feature (.plain "aspect-ratio" (.ratio 16 9)),
      .condition (.not (.enclosed "(a b)"))])
    QueryList.parse "not tv and (400.5em <= width < -0.25%), (aspect-ratio: 16/9) or (not (a b))" =
      .ok [typed, bare] := by
  intro typed bare
  have enclosed : Condition.parse "(a b)" = .ok (.single (.enclosed "(a b)")) := by cbv
  have formedTyped : typed.WellFormed := by
    refine ⟨⟨by decide, by decide, by decide⟩, ?_, ?_⟩
    · rintro _ ⟨⟩
      exact ⟨by simp, ⟨by decide, ⟨by decide +kernel, .inr (by decide)⟩,
        ⟨by decide +kernel, .inl rfl⟩, rfl⟩, trivial⟩
    · rintro _ ⟨⟩ _
      rfl
  have formedBare : bare.WellFormed := by
    refine ⟨trivial, ?_, ?_⟩
    · rintro _ ⟨⟩
      exact ⟨by simp, ⟨by decide, by decide +kernel, by decide +kernel⟩, enclosed, trivial⟩
    · rintro _ ⟨⟩ typed
      cases typed
  have text : QueryList.text [typed, bare] =
      "not tv and (400.5em <= width < -0.25%), (aspect-ratio: 16/9) or (not (a b))" := by
    decide +kernel
  rw [← text]
  exact QueryList.parse_text ⟨by simp, by simp [formedTyped, formedBare]⟩

end MediaQuery
