import MediaQuery.Proofs.Derivation
import MediaQuery.Proofs.Groups

set_option autoImplicit false

namespace MediaQuery

namespace Group

variable {source : List Char}

def item? (source : List Char) : Group → Option InParens
  | .token _ => none
  | .parens opener inside closer =>
    some (InParens.ofInside source opener closer (pieces source inside))

theorem pieces_eq_map (source : List Char) (gs : List Group) :
    pieces source gs = gs.map (piece source) := by
  induction gs with
  | nil => rfl
  | cons g gs ih => rw [pieces, ih, List.map_cons]

theorem piece_of_item? {g : Group} {x : InParens} (read : g.item? source = some x) :
    ∃ start stop, g.piece source = .item start stop x := by
  cases g with
  | token t => cases read
  | parens opener inside closer =>
    cases read
    exact ⟨opener.start, closer.stop, by rw [piece]⟩

theorem item?_of_piece {g : Group} {start stop : Nat} {x : InParens}
    (read : g.piece source = .item start stop x) : g.item? source = some x := by
  cases g with
  | token t => cases read
  | parens opener inside closer =>
    rw [piece] at read
    cases read
    rfl

theorem eq_token_of_piece {g : Group} {t : Token} (read : g.piece source = .token t) :
    g = .token t := by
  cases g with
  | token u => cases read; rfl
  | parens opener inside closer => rw [piece] at read; cases read

/-- Pieces that are all tokens are the tokens of their groups. -/
theorem tokens?_pieces {gs : List Group} {ts : List Token}
    (read : Piece.tokens? (pieces source gs) = some ts) : tokensOf gs = ts := by
  induction gs generalizing ts with
  | nil => cases read; rfl
  | cons g gs ih =>
    rw [pieces] at read
    cases g with
    | token t =>
      rw [piece, Piece.tokens?, Option.map_eq_some_iff] at read
      obtain ⟨rest, found, rfl⟩ := read
      rw [tokensOf, tokens, ih found]
      rfl
    | parens opener inside closer =>
      rw [piece] at read
      cases read

theorem tokens?_of_noOpener {gs : List Group} (fits : ∀ g ∈ gs, g.Fits)
    (noOpener : ∀ t ∈ tokensOf gs, t.isOpening = false) :
    Piece.tokens? (pieces source gs) = some (tokensOf gs) := by
  induction gs with
  | nil => rfl
  | cons g gs ih =>
    rw [List.forall_mem_cons] at fits
    rw [tokensOf, List.forall_mem_append] at noOpener
    cases g with
    | token t => simp [pieces, piece, Piece.tokens?, ih fits.2 noOpener.2, tokensOf, tokens]
    | parens opener inside closer =>
      cases fits.1 with
      | parens opens closes within =>
        have closed := noOpener.1 opener (by simp [tokens])
        rw [opens] at closed
        cases closed

/-- A test is read off the pieces of groups as the grammar reads it off their tokens. -/
theorem test_eq_some {gs : List Group} {f : Feature} (fits : ∀ g ∈ gs, g.Fits) :
    (Piece.tokens? (pieces source gs)).bind Feature.ofTokens? = some f ↔
      Feature.Reads (tokensOf gs) f := by
  constructor
  · intro read
    obtain ⟨ts, found, read⟩ := Option.bind_eq_some_iff.1 read
    rw [tokens?_pieces found]
    exact Feature.ofTokens?_eq_some.1 read
  · intro reads
    rw [tokens?_of_noOpener fits fun t mem => (reads.1.noParens t mem).1, Option.bind_some]
    exact Feature.ofTokens?_eq_some.2 reads

end Group

section Items

variable {source : List Char} {nested : List Token → Condition → Prop} {n : Nat}

theorem Token.kind_of_isOpening {t : Token} (opens : t.isOpening = true) :
    t.kind = .opening ∨ ∃ name, t.kind = .function name := by
  unfold isOpening at opens
  split at opens
  · exact .inl ‹_›
  · exact .inr ⟨_, ‹_›⟩
  · cases opens

private theorem parens_inj {opener opener' closer closer' : Token} {inside inside' : List Token}
    (same : opener :: (inside ++ [closer]) = opener' :: (inside' ++ [closer'])) :
    opener = opener' ∧ inside = inside' ∧ closer = closer' := by
  obtain ⟨first, rest⟩ := List.cons.inj same
  obtain ⟨middle, last⟩ := List.append_inj' rest rfl
  exact ⟨first, middle, List.head_eq_of_cons_eq last⟩

variable {opener closer : Token} {gs : List Group} {x : InParens}

/-- What the tokens in a pair of parentheses derive is what is read off their groups. -/
theorem InParens.ofInside_eq_of_form (fits : ∀ g ∈ gs, g.Fits)
    (inner : ∀ c, nested (Group.tokensOf gs) c ↔
      Condition.ofAllPieces? (Group.pieces source gs) = some c)
    (form : InParens.Form source nested Feature.Reads
      (opener :: (Group.tokensOf gs ++ [closer])) x) :
    InParens.ofInside source opener closer (Group.pieces source gs) = x := by
  have unread (noCondition : ∀ c, ¬nested (Group.tokensOf gs) c) :
      Condition.ofAllPieces? (Group.pieces source gs) = none :=
    Option.eq_none_iff_forall_ne_some.2 fun c read => noCondition c ((inner c).2 read)
  generalize made : opener :: (Group.tokensOf gs ++ [closer]) = ts at form
  cases form with
  | function opens =>
    obtain ⟨rfl, rfl, rfl⟩ := parens_inj made
    simp only [ofInside, opens]
  | condition opens _ _ whole =>
    obtain ⟨rfl, rfl, rfl⟩ := parens_inj made
    simp only [ofInside, opens, (inner _).1 whole]
  | feature opens _ _ noCondition whole =>
    obtain ⟨rfl, rfl, rfl⟩ := parens_inj made
    simp only [ofInside, opens, unread noCondition, (Group.test_eq_some fits).2 whole]
  | enclosed opens _ _ noCondition noTest =>
    obtain ⟨rfl, rfl, rfl⟩ := parens_inj made
    have untested : (Piece.tokens? (Group.pieces source gs)).bind Feature.ofTokens? = none :=
      Option.eq_none_iff_forall_ne_some.2 fun f read =>
        noTest f ((Group.test_eq_some fits).1 read)
    simp only [ofInside, opens, unread noCondition, untested]

/-- What is read off the groups in a pair of parentheses is what their tokens derive. -/
theorem InParens.form_ofInside (opens : opener.isOpening = true) (closes : closer.isClosing = true)
    (fits : ∀ g ∈ gs, g.Fits)
    (inner : ∀ c, nested (Group.tokensOf gs) c ↔
      Condition.ofAllPieces? (Group.pieces source gs) = some c) :
    InParens.Form source nested Feature.Reads (opener :: (Group.tokensOf gs ++ [closer]))
      (InParens.ofInside source opener closer (Group.pieces source gs)) := by
  have balanced := Group.balanced_tokensOf gs (fun _ => true) fits fun _ _ => rfl
  rcases Token.kind_of_isOpening opens with opens | ⟨name, opens⟩
  · simp only [ofInside, opens]
    cases condition : Condition.ofAllPieces? (Group.pieces source gs) with
    | some c => exact .condition opens closes balanced ((inner c).2 condition)
    | none =>
      have noCondition (c : Condition) : ¬nested (Group.tokensOf gs) c := by
        rw [inner c, condition]
        exact nofun
      cases test : (Piece.tokens? (Group.pieces source gs)).bind Feature.ofTokens? with
      | some f =>
        exact .feature opens closes balanced noCondition ((Group.test_eq_some fits).1 test)
      | none =>
        refine .enclosed opens closes balanced noCondition fun f reads => ?_
        rw [← Group.test_eq_some fits, test] at reads
        cases reads
  · simp only [ofInside, opens]
    exact .function opens closes balanced

/-- An item is read off the group with its tokens, if the conditions inside are. -/
theorem InParens.form_iff
    (inner : ∀ gs : List Group, (∀ g ∈ gs, g.Fits) → (Group.tokensOf gs).length < n → ∀ c,
      (nested (Group.tokensOf gs) c ↔
        Condition.ofAllPieces? (Group.pieces source gs) = some c))
    {ts : List Token} (size : ts.length ≤ n) :
    InParens.Form source nested Feature.Reads ts x ↔
      ∃ g : Group, g.Fits ∧ g.tokens = ts ∧ g.item? source = some x := by
  constructor
  · intro form
    obtain ⟨opener, inside, closer, rfl, opens, closes, balanced⟩ := form.parens
    obtain ⟨gs, fits, rfl, _⟩ := Group.balanced_iff.1 balanced
    simp only [List.length_cons, List.length_append] at size
    have read := InParens.ofInside_eq_of_form fits (inner gs fits (by omega)) form
    exact ⟨.parens opener gs closer, .parens opens closes fits, rfl, congrArg some read⟩
  · rintro ⟨g, fits, rfl, read⟩
    cases fits with
    | token noOpener noCloser => cases read
    | @parens opener closer gs opens closes within =>
      simp only [Group.tokens, List.length_cons, List.length_append] at size
      cases read
      exact InParens.form_ofInside opens closes within (inner gs within (by omega))

end Items

theorem bind_eq_ok {ε α β : Type} {first : Except ε α} {next : α → Except ε β} {b : β} :
    (first >>= next) = .ok b ↔ ∃ a, first = .ok a ∧ next a = .ok b := by
  cases first with
  | ok a => simp [bind, Except.bind]
  | error e => simp [bind, Except.bind]

/-- The pieces of a source are those of the groups of its tokens. -/
theorem Piece.ofSource_eq_ok {source : String} {ts : List Token} (lexed : tokenize source = .ok ts)
    {ps : List Piece} :
    Piece.ofSource source = .ok ps ↔ ∃ gs : List Group, (∀ g ∈ gs, g.Fits) ∧
      Group.tokensOf gs = ts ∧ Group.pieces source.toList gs = ps := by
  constructor
  · intro read
    obtain ⟨ts', lexed', read⟩ := bind_eq_ok.1 read
    obtain rfl : ts' = ts := Except.ok.inj (lexed'.symm.trans lexed)
    obtain ⟨gs, grouped, same⟩ := bind_eq_ok.1 read
    obtain ⟨fits, made⟩ := Group.ofTokens_eq_ok.1 grouped
    exact ⟨gs, fits, made, Except.ok.inj same⟩
  · rintro ⟨gs, fits, made, rfl⟩
    have grouped := Group.ofTokens_eq_ok.2 ⟨fits, made⟩
    exact bind_eq_ok.2 ⟨ts, lexed, bind_eq_ok.2 ⟨gs, grouped, rfl⟩⟩

def Connective.text : Connective → String
  | .and => "and"
  | .or => "or"

theorem Connective.ofName?_eq_some {name : String} {word : Connective} :
    ofName? name = some word ↔ name = word.text := by
  constructor
  · intro read
    unfold ofName? at read
    split at read <;> cases read <;> rfl
  · rintro rfl
    cases word <;> rfl

/-- Items as they are read off groups of at most some number of tokens. -/
def InParens.ReadOff (source : List Char) (n : Nat) (item : List Token → InParens → Prop) : Prop :=
  ∀ ts x, ts.length ≤ n →
    (item ts x ↔ ∃ g : Group, g.Fits ∧ g.tokens = ts ∧ g.item? source = some x)

section Conditions

variable {source : List Char} {item : List Token → InParens → Prop} {n : Nat}

namespace Group

theorem length_tokens_pos (g : Group) : 0 < g.tokens.length := by
  cases g <;> simp [tokens]

theorem token_of_ident? {g : Group} {name : String}
    (named : (g.piece source).ident? = some name) : ∃ t, g = .token t ∧ t.ident? = some name := by
  cases g with
  | token t => exact ⟨t, rfl, named⟩
  | parens opener inside closer =>
    rw [piece] at named
    cases named

theorem fits_of_ident? {t : Token} {name : String} (named : t.ident? = some name) :
    (Group.token t).Fits :=
  .token (Token.noParens_of_ident? named).1 (Token.noParens_of_ident? named).2

end Group

theorem InParens.ofPieces_eq_ok {stop : Nat} {ps rest : List Piece} {x : InParens} :
    InParens.ofPieces stop ps = .ok (x, rest) ↔ ∃ a b, ps = .item a b x :: rest := by
  constructor
  · intro read
    unfold InParens.ofPieces at read
    split at read <;> cases read
    exact ⟨_, _, rfl⟩
  · rintro ⟨a, b, rfl⟩
    rfl

namespace Condition

/-- One further item: a connective that may stand there, and the item behind it. -/
theorem following_step {stop : Nat} {allowOr : Bool} {joiner joiner' : Option Connective}
    {p : Piece} {ps : List Piece} {xs : List InParens}
    (read : following stop allowOr joiner (p :: ps) = .ok (joiner', xs, [])) :
    ∃ word a b x rest xs', p.ident? = some (Connective.text word) ∧
      (word = .or → allowOr = true) ∧ joiner.all (· = word) = true ∧
      ps = .item a b x :: rest ∧ xs = x :: xs' ∧
      following stop allowOr (some word) rest = .ok (joiner', xs', []) := by
  rw [following] at read
  split at read
  · cases read
  · rename_i word named
    obtain ⟨name, ident, spelt⟩ := Option.bind_eq_some_iff.1 named
    rw [Connective.ofName?_eq_some.1 spelt] at ident
    split at read
    · cases read
    · rename_i allowed
      split at read
      · cases read
      · rename_i same
        split at read
        · rename_i a b x rest
          obtain ⟨⟨joiner₁, xs', rest'⟩, made, same'⟩ := bind_eq_ok.1 read
          cases same'
          refine ⟨word, a, b, x, rest, xs', ident, ?_, ?_, rfl, rfl, made⟩
          · intro isOr
            simpa [isOr] using allowed
          · cases joiner <;> simp_all
        · cases read

theorem following_item {stop : Nat} {allowOr : Bool} {joiner : Option Connective} {p : Piece}
    {a b : Nat} {x : InParens} {ps : List Piece} {word : Connective}
    (named : p.ident? = some word.text) (allowed : word = .or → allowOr = true)
    (same : joiner.all (· = word) = true) :
    following stop allowOr joiner (p :: .item a b x :: ps) = do
      let (joiner, xs, rest) ← following stop allowOr (some word) ps
      return (joiner, x :: xs, rest) := by
  have spelt : p.ident?.bind Connective.ofName? = some word := by
    rw [named, Option.bind_some, Connective.ofName?_eq_some.2 rfl]
  have noFault : ¬(word = .or ∧ allowOr = false) := by
    rintro ⟨isOr, forbidden⟩
    rw [allowed isOr] at forbidden
    cases forbidden
  have noMix : joiner.any (· ≠ word) = false := by
    cases joiner <;> simp_all
  rw [following]
  simp only [spelt, noFault, if_false, noMix, Bool.false_eq_true]

/-- Reading further items finds them behind one and the same word. -/
theorem following_sound (items : InParens.ReadOff source n item) {stop : Nat} {allowOr : Bool} :
    ∀ (gs : List Group) (joiner joiner' : Option Connective) (xs : List InParens),
      (∀ g ∈ gs, g.Fits) → (Group.tokensOf gs).length ≤ n →
      following stop allowOr joiner (Group.pieces source gs) = .ok (joiner', xs, []) →
        gs = [] ∧ xs = [] ∧ joiner' = joiner ∨
          ∃ word, joiner' = some word ∧ (word = .or → allowOr = true) ∧ xs ≠ [] ∧
            joiner.all (· = word) = true ∧
            InParens.Following item word.text (Group.tokensOf gs) xs
  | [], joiner, joiner', xs, fits, size, read => by
    cases read
    exact .inl ⟨rfl, rfl, rfl⟩
  | [g], joiner, joiner', xs, fits, size, read => by
    obtain ⟨_, _, _, _, _, _, _, _, _, more, _⟩ := following_step read
    cases more
  | g :: h :: gs, joiner, joiner', xs, fits, size, read => by
    obtain ⟨word, a, b, x, rest, xs', named, allowed, same, more, rfl, further⟩ :=
      following_step read
    rw [Group.pieces, List.cons.injEq] at more
    obtain ⟨isItem, rfl⟩ := more
    obtain ⟨t, rfl, named⟩ := Group.token_of_ident? named
    simp only [List.forall_mem_cons] at fits
    simp only [Group.tokensOf, List.length_append] at size
    have first := (items h.tokens x (by omega)).2
      ⟨h, fits.2.1, rfl, Group.item?_of_piece isItem⟩
    refine .inr ⟨word, ?_⟩
    change _ ∧ _ ∧ _ ∧ _ ∧ InParens.Following item word.text
      (t :: (h.tokens ++ Group.tokensOf gs)) (x :: xs')
    rcases following_sound items gs (some word) joiner' xs' fits.2.2 (by omega) further with
      ⟨rfl, rfl, rfl⟩ | ⟨word', rfl, _, _, same', rest⟩
    · exact ⟨rfl, allowed, by simp, same, .cons named first .nil⟩
    · have equal : word = word' := by simpa using same'
      subst equal
      exact ⟨rfl, allowed, by simp, same, .cons named first rest⟩

/-- Further items are read off the groups of their tokens. -/
theorem following_complete (items : InParens.ReadOff source n item) {word : Connective}
    {ts : List Token} {xs : List InParens} (size : ts.length ≤ n)
    (derived : InParens.Following item word.text ts xs) :
    ∃ gs : List Group, (∀ g ∈ gs, g.Fits) ∧ Group.tokensOf gs = ts ∧
      ∀ stop allowOr joiner, (word = .or → allowOr = true) →
        joiner.all (· = word) = true →
        following stop allowOr joiner (Group.pieces source gs) =
          .ok (if xs = [] then joiner else some word, xs, []) := by
  induction derived with
  | nil => exact ⟨[], by simp, rfl, fun _ _ _ _ _ => rfl⟩
  | @cons w ts us x xs joined first rest ih =>
    simp only [List.length_cons, List.length_append] at size
    obtain ⟨gs, fits, rfl, reads⟩ := ih (by omega)
    obtain ⟨g, fitsItem, rfl, isItem⟩ := (items ts x (by omega)).1 first
    obtain ⟨a, b, isPiece⟩ := Group.piece_of_item? isItem
    refine ⟨.token w :: g :: gs, ?_, by simp [Group.tokensOf, Group.tokens], ?_⟩
    · simp only [List.forall_mem_cons]
      exact ⟨Group.fits_of_ident? joined, fitsItem, fits⟩
    · intro stop allowOr joiner allowed same
      have next := reads stop allowOr (some word) allowed (by simp)
      rw [Group.pieces, Group.pieces, isPiece, Group.piece,
        following_item (p := .token w) joined allowed same, next]
      simp [bind, Except.bind, pure, Except.pure]

theorem ofPieces_item (stop : Nat) (allowOr : Bool) (a b : Nat) (x : InParens) (ps : List Piece) :
    ofPieces stop allowOr (.item a b x :: ps) = do
      let (joiner, xs, rest) ← following stop allowOr none ps
      return (Connective.join joiner (x :: xs), rest) := by
  rw [ofPieces, if_neg (by simp [Piece.ident?])]
  simp only [InParens.ofPieces, bind, Except.bind]

/-- A condition is read off groups whose tokens form it. -/
theorem ofPieces_sound (items : InParens.ReadOff source n item) {stop : Nat} {allowOr : Bool}
    {gs : List Group} {c : Condition} (fits : ∀ g ∈ gs, g.Fits)
    (size : (Group.tokensOf gs).length ≤ n)
    (read : ofPieces stop allowOr (Group.pieces source gs) = .ok (c, [])) :
    Condition.Form item allowOr (Group.tokensOf gs) c := by
  cases gs with
  | nil => cases read
  | cons g gs =>
    rw [List.forall_mem_cons] at fits
    simp only [Group.tokensOf, List.length_append] at size ⊢
    rw [Group.pieces] at read
    by_cases negated : (g.piece source).ident? = some "not"
    · rw [ofPieces, if_pos negated] at read
      obtain ⟨⟨x, rest⟩, first, same⟩ := bind_eq_ok.1 read
      cases same
      obtain ⟨a, b, more⟩ := InParens.ofPieces_eq_ok.1 first
      obtain ⟨t, rfl, named⟩ := Group.token_of_ident? negated
      cases gs with
      | nil => cases more
      | cons h gs =>
        rw [Group.pieces, List.cons.injEq] at more
        cases gs with
        | nil =>
          simp only [Group.tokensOf, List.length_append] at size
          have whole := (items h.tokens x (by omega)).2
            ⟨h, by simpa using fits.2, rfl, Group.item?_of_piece more.1⟩
          have form : Condition.Form item allowOr (t :: h.tokens) (.not x) := .not named whole
          simpa [Group.tokensOf, Group.tokens] using form
        | cons h' gs => cases more.2
    · rw [ofPieces, if_neg negated] at read
      obtain ⟨⟨x, rest⟩, front, read⟩ := bind_eq_ok.1 read
      obtain ⟨⟨joiner, xs, rest'⟩, further, same⟩ := bind_eq_ok.1 read
      cases same
      obtain ⟨a, b, more⟩ := InParens.ofPieces_eq_ok.1 front
      rw [List.cons.injEq] at more
      obtain ⟨isItem, rfl⟩ := more
      have first := (items g.tokens x (by omega)).2 ⟨g, fits.1, rfl, Group.item?_of_piece isItem⟩
      rcases following_sound items gs none joiner xs fits.2 (by omega) further with
        ⟨rfl, rfl, rfl⟩ | ⟨word, rfl, allowed, several, _, rest⟩
      · exact .and first .nil
      · cases word with
        | and => exact .and first rest
        | or =>
          rw [allowed rfl]
          exact .or first rest several

/-- A condition is read off the groups of the tokens that form it. -/
theorem ofPieces_complete (items : InParens.ReadOff source n item) {allowOr : Bool}
    {ts : List Token} {c : Condition} (size : ts.length ≤ n)
    (form : Condition.Form item allowOr ts c) :
    ∃ gs : List Group, (∀ g ∈ gs, g.Fits) ∧ Group.tokensOf gs = ts ∧
      ∀ stop, ofPieces stop allowOr (Group.pieces source gs) = .ok (c, []) := by
  have joined (word : Connective) {us vs : List Token} {x : InParens} {xs : List InParens}
      (bound : (us ++ vs).length ≤ n) (allowed : word = .or → allowOr = true)
      (first : item us x) (rest : InParens.Following item word.text vs xs) :
      ∃ gs : List Group, (∀ g ∈ gs, g.Fits) ∧ Group.tokensOf gs = us ++ vs ∧
        ∀ stop, ofPieces stop allowOr (Group.pieces source gs) =
          .ok (Connective.join (if xs = [] then none else some word) (x :: xs), []) := by
    simp only [List.length_append] at bound
    obtain ⟨gs, fits, rfl, reads⟩ := following_complete items (by omega) rest
    obtain ⟨g, fitsItem, rfl, isItem⟩ := (items us x (by omega)).1 first
    obtain ⟨a, b, isPiece⟩ := Group.piece_of_item? isItem
    refine ⟨g :: gs, ?_, rfl, fun stop => ?_⟩
    · rw [List.forall_mem_cons]
      exact ⟨fitsItem, fits⟩
    · rw [Group.pieces, isPiece, ofPieces_item, reads stop allowOr none allowed rfl]
      rfl
  cases form with
  | @not allowOr t ts x word whole =>
    simp only [List.length_cons] at size
    obtain ⟨g, fitsItem, rfl, isItem⟩ := (items ts x (by omega)).1 whole
    obtain ⟨a, b, isPiece⟩ := Group.piece_of_item? isItem
    refine ⟨[.token t, g], ?_, by simp [Group.tokensOf, Group.tokens], fun stop => ?_⟩
    · simp only [List.forall_mem_cons]
      exact ⟨Group.fits_of_ident? word, fitsItem, by simp⟩
    · have negated : (Piece.token t).ident? = some "not" := word
      rw [Group.pieces, Group.piece, ofPieces, if_pos negated, Group.pieces, isPiece,
        Group.pieces]
      rfl
  | @and allowOr us vs x xs first rest =>
    obtain ⟨gs, fits, made, reads⟩ := joined .and size nofun first rest
    refine ⟨gs, fits, made, fun stop => ?_⟩
    rw [reads stop]
    split <;> rfl
  | @or us vs x xs first rest several =>
    obtain ⟨gs, fits, made, reads⟩ := joined .or size (fun _ => rfl) first rest
    refine ⟨gs, fits, made, fun stop => ?_⟩
    rw [reads stop, if_neg several]
    rfl

end Condition

end Conditions

section Derivations

variable {source : List Char}

theorem Condition.ofAllPieces?_eq_some {ps : List Piece} {c : Condition} :
    ofAllPieces? ps = some c ↔ ofPieces 0 true ps = .ok (c, []) := by
  unfold ofAllPieces?
  constructor
  · intro read
    split at read <;> cases read
    assumption
  · intro read
    rw [read]

/-- The condition in a pair of parentheses is the one that the tokens between them derive. -/
theorem Condition.derives_iff_read {gs : List Group} (fits : ∀ g ∈ gs, g.Fits) (c : Condition) :
    Condition.Derives Feature.Reads source (Group.tokensOf gs) c ↔
      ofAllPieces? (Group.pieces source gs) = some c := by
  induction length : (Group.tokensOf gs).length using Nat.strongRecOn generalizing gs c with
  | ind size ih =>
    have bound := Nat.le_of_eq length
    have items : InParens.ReadOff source size (InParens.Derives Feature.Reads source) :=
      fun ts x bound => InParens.form_iff
        (fun inside fitsInside shorter inner => ih _ shorter fitsInside inner rfl) bound
    rw [Condition.derives_iff, ofAllPieces?_eq_some]
    constructor
    · intro form
      obtain ⟨hs, fits', made, reads⟩ := ofPieces_complete items bound form
      rw [← Group.eq_of_tokensOf fits' fits made]
      exact reads 0
    · exact ofPieces_sound items fits bound

theorem InParens.readOff_derives (n : Nat) :
    InParens.ReadOff source n (InParens.Derives Feature.Reads source) :=
  fun _ _ bound => InParens.form_iff
    (fun _ fits _ inner => Condition.derives_iff_read fits inner) bound

end Derivations

section Queries

variable {source : List Char} {item : List Token → InParens → Prop} {n : Nat}

theorem Group.head_isOpening (source : List Char) {gs : List Group} (fits : ∀ g ∈ gs, g.Fits) :
    (tokensOf gs).head?.any Token.isOpening =
      ((pieces source gs).head?.map Piece.isItem).getD false := by
  cases gs with
  | nil => rfl
  | cons g gs =>
    rw [List.forall_mem_cons] at fits
    cases fits.1 with
    | token noOpener noCloser => simp [tokensOf, tokens, pieces, piece, noOpener, Piece.isItem]
    | parens opens closes within => simp [tokensOf, tokens, pieces, piece, opens, Piece.isItem]

theorem Qualifier.ofName?_of_legal {name : String} (legal : name ∉ MediaType.reserved) :
    ofName? name = none := by
  unfold ofName?
  split
  · exact absurd (by decide) legal
  · exact absurd (by decide) legal
  · rfl

namespace Query

theorem ofTyped_sound (items : InParens.ReadOff source n item) {stop : Nat}
    {qualifier : Option Qualifier} {gs : List Group} {q : Query} (fits : ∀ g ∈ gs, g.Fits)
    (size : (Group.tokensOf gs).length ≤ n)
    (read : ofTyped stop qualifier (Group.pieces source gs) = .ok (q, [])) :
    ∃ t ts name condition, Group.tokensOf gs = t :: ts ∧ t.ident? = some name ∧
      name ∉ MediaType.reserved ∧ Condition.Behind item ts condition ∧
      q = ⟨qualifier, MediaType.ofName name, condition⟩ := by
  cases gs with
  | nil => cases read
  | cons g gs =>
    rw [List.forall_mem_cons] at fits
    simp only [Group.tokensOf, List.length_append] at size
    rw [Group.pieces] at read
    simp only [ofTyped] at read
    split at read
    · cases read
    · rename_i name named
      obtain ⟨t, rfl, named⟩ := Group.token_of_ident? named
      split at read
      · cases read
      · rename_i legal
        cases gs with
        | nil =>
          cases read
          exact ⟨t, [], name, none, rfl, named, legal, .none, rfl⟩
        | cons h gs =>
          rw [List.forall_mem_cons] at fits
          simp only [Group.tokensOf, List.length_append] at size
          rw [Group.pieces] at read
          simp only at read
          split at read
          · rename_i joined
            obtain ⟨w, rfl, joined⟩ := Group.token_of_ident? joined
            obtain ⟨⟨c, rest⟩, condition, same⟩ := bind_eq_ok.1 read
            cases same
            have whole := Condition.ofPieces_sound items fits.2.2 (by omega) condition
            exact ⟨t, w :: Group.tokensOf gs, name, some c, rfl, named, legal,
              .some joined whole, rfl⟩
          · cases read

theorem ofTyped_complete (items : InParens.ReadOff source n item) {ts : List Token} {t : Token}
    {name : String} {condition : Option Condition} (size : ts.length ≤ n)
    (named : t.ident? = some name) (legal : name ∉ MediaType.reserved)
    (behind : Condition.Behind item ts condition) :
    ∃ gs : List Group, (∀ g ∈ gs, g.Fits) ∧ Group.tokensOf gs = ts ∧
      ∀ stop qualifier, ofTyped stop qualifier (.token t :: Group.pieces source gs) =
        .ok (⟨qualifier, MediaType.ofName name, condition⟩, []) := by
  have named : (Piece.token t).ident? = some name := named
  cases behind with
  | none =>
    refine ⟨[], by simp, rfl, fun stop qualifier => ?_⟩
    simp only [ofTyped, named, legal, if_false, Group.pieces]
  | @some w us c joined whole =>
    simp only [List.length_cons] at size
    obtain ⟨gs, fits, rfl, reads⟩ := Condition.ofPieces_complete items (by omega) whole
    refine ⟨.token w :: gs, ?_, rfl, fun stop qualifier => ?_⟩
    · rw [List.forall_mem_cons]
      exact ⟨Group.fits_of_ident? joined, fits⟩
    · have joined : (Piece.token w).ident? = some "and" := joined
      simp only [ofTyped, named, legal, if_false, Group.pieces, Group.piece, joined, if_true,
        reads stop]
      rfl

theorem ofAllPieces_eq_ok {stop : Nat} {ps : List Piece} {q : Query} :
    ofAllPieces stop ps = .ok q ↔ ofPieces stop ps = .ok (q, []) := by
  constructor
  · intro read
    obtain ⟨⟨q', rest⟩, front, read⟩ := bind_eq_ok.1 read
    obtain ⟨_, ended, same⟩ := bind_eq_ok.1 read
    cases same
    cases rest with
    | nil => exact front
    | cons p ps => cases ended
  · intro read
    simp only [ofAllPieces, read]
    rfl

/-- A query whose tokens begin like a condition is read as one. -/
theorem ofPieces_of_begins (stop : Nat) {gs : List Group} (fits : ∀ g ∈ gs, g.Fits)
    (begins : beginsCondition (Group.tokensOf gs) = true) :
    ofPieces stop (Group.pieces source gs) = ofUntyped stop (Group.pieces source gs) := by
  cases gs with
  | nil => cases begins
  | cons g gs =>
    rw [List.forall_mem_cons] at fits
    cases fits.1 with
    | parens opens closes within => rw [Group.pieces, Group.piece]; rfl
    | @token t noOpener noCloser =>
      change beginsCondition (t :: Group.tokensOf gs) = true at begins
      simp only [beginsCondition, noOpener, Bool.false_or, Bool.and_eq_true, beq_iff_eq,
        Group.head_isOpening source fits.2] at begins
      rw [Group.pieces, Group.piece]
      simp only [ofPieces, begins.1]
      rw [if_pos ⟨trivial, begins.2⟩]

/-- A query whose tokens begin unlike a condition is read from its qualifier or its type on. -/
theorem ofPieces_of_not_begins (stop : Nat) {t : Token} {word : String} {gs : List Group}
    (fits : ∀ g ∈ gs, g.Fits) (named : t.ident? = some word)
    (begins : beginsCondition (t :: Group.tokensOf gs) = false) :
    ofPieces stop (.token t :: Group.pieces source gs) =
      match Qualifier.ofName? word with
      | some qualifier => ofTyped stop (some qualifier) (Group.pieces source gs)
      | none => ofTyped stop none (.token t :: Group.pieces source gs) := by
  have noCondition : ¬(word = "not" ∧
      ((Group.pieces source gs).head?.map Piece.isItem).getD false = true) := by
    rintro ⟨rfl, item⟩
    rw [← Group.head_isOpening source fits] at item
    simp [beginsCondition, named, item] at begins
  cases known : Qualifier.ofName? word with
  | none => simp only [ofPieces, named, if_neg noCondition, known]
  | some qualifier => simp only [ofPieces, named, if_neg noCondition, known]

theorem ofUntyped_eq_ok {stop : Nat} {ps : List Piece} {q : Query} :
    ofUntyped stop ps = .ok (q, []) ↔
      ∃ c, q = ofCondition c ∧ Condition.ofPieces stop true ps = .ok (c, []) := by
  constructor
  · intro read
    obtain ⟨⟨c, rest⟩, condition, same⟩ := bind_eq_ok.1 read
    cases same
    exact ⟨c, rfl, condition⟩
  · rintro ⟨c, rfl, read⟩
    simp only [ofUntyped, read]
    rfl

/-- A query is read off groups whose tokens form it. -/
theorem ofPieces_sound (items : InParens.ReadOff source n item) {stop : Nat} {gs : List Group}
    {q : Query} (fits : ∀ g ∈ gs, g.Fits) (size : (Group.tokensOf gs).length ≤ n)
    (read : ofPieces stop (Group.pieces source gs) = .ok (q, [])) :
    Query.Form item (Group.tokensOf gs) q := by
  by_cases begins : beginsCondition (Group.tokensOf gs) = true
  · rw [ofPieces_of_begins stop fits begins] at read
    obtain ⟨c, rfl, condition⟩ := ofUntyped_eq_ok.1 read
    exact .condition begins (Condition.ofPieces_sound items fits size condition)
  · rw [Bool.not_eq_true] at begins
    cases gs with
    | nil => cases read
    | cons g gs =>
      have fits' := List.forall_mem_cons.1 fits
      cases fits'.1 with
      | parens opens closes within =>
        simp [Group.tokensOf, Group.tokens, beginsCondition, opens] at begins
      | @token t noOpener noCloser =>
        change Query.Form item (t :: Group.tokensOf gs) q
        change beginsCondition (t :: Group.tokensOf gs) = false at begins
        change (t :: Group.tokensOf gs).length ≤ n at size
        rw [Group.pieces, Group.piece] at read
        cases named : t.ident? with
        | none =>
          simp only [ofPieces, named] at read
          cases read
        | some word =>
          rw [ofPieces_of_not_begins stop fits'.2 named begins] at read
          split at read
          · rename_i qualifier known
            obtain ⟨u, us, name, condition, made, typed, legal, behind, rfl⟩ :=
              ofTyped_sound items fits'.2 (Nat.le_of_succ_le size) read
            rw [made] at begins ⊢
            change Query.Form item ([t] ++ u :: us) _
            exact .typed begins (.some named known) typed legal behind
          · have plain : Group.pieces source (.token t :: gs) =
                .token t :: Group.pieces source gs := by rw [Group.pieces, Group.piece]
            rw [← plain] at read
            obtain ⟨u, us, name, condition, made, typed, legal, behind, rfl⟩ :=
              ofTyped_sound items fits size read
            change t :: Group.tokensOf gs = u :: us at made
            rw [made] at begins ⊢
            change Query.Form item ([] ++ u :: us) _
            exact .typed begins .none typed legal behind

/-- A query is read off the groups of the tokens that form it. -/
theorem ofPieces_complete (items : InParens.ReadOff source n item) {ts : List Token} {q : Query}
    (size : ts.length ≤ n) (form : Query.Form item ts q) :
    ∃ gs : List Group, (∀ g ∈ gs, g.Fits) ∧ Group.tokensOf gs = ts ∧
      ∀ stop, ofPieces stop (Group.pieces source gs) = .ok (q, []) := by
  cases form with
  | @condition ts c begins whole =>
    obtain ⟨gs, fits, rfl, reads⟩ := Condition.ofPieces_complete items size whole
    refine ⟨gs, fits, rfl, fun stop => ?_⟩
    rw [ofPieces_of_begins stop fits begins]
    exact ofUntyped_eq_ok.2 ⟨c, rfl, reads stop⟩
  | @typed lead ts t qualifier name condition begins qualified named legal behind =>
    simp only [List.length_append, List.length_cons] at size
    obtain ⟨gs, fits, rfl, reads⟩ := ofTyped_complete items (by omega) named legal behind
    have fitsType := Group.fits_of_ident? named
    cases qualified with
    | none =>
      refine ⟨.token t :: gs, List.forall_mem_cons.2 ⟨fitsType, fits⟩, rfl, fun stop => ?_⟩
      rw [Group.pieces, Group.piece, ofPieces_of_not_begins stop fits named begins,
        Qualifier.ofName?_of_legal legal]
      exact reads stop none
    | @some u word q spelt known =>
      have fits' : ∀ g ∈ .token t :: gs, g.Fits := List.forall_mem_cons.2 ⟨fitsType, fits⟩
      refine ⟨.token u :: .token t :: gs,
        List.forall_mem_cons.2 ⟨Group.fits_of_ident? spelt, fits'⟩, rfl, fun stop => ?_⟩
      rw [Group.pieces, Group.piece, ofPieces_of_not_begins stop fits' spelt begins, known,
        Group.pieces, Group.piece]
      exact reads stop (some q)

end Query

end Queries

end MediaQuery
