import MediaQuery.Proofs.OffsetReading

set_option autoImplicit false

namespace MediaQuery

namespace ByOffset

open Access

section Split

variable {source : List Char} {gs : List Group} {size start : Nat} {ts : List Token}

/-- Nothing is divided inside of parentheses. -/
theorem countsDepth_splitFrom :
    Group.CountsDepth fun i depth rest => splitFrom size ts depth start i rest where
  opening i depth t ts opens := by rw [splitFrom, if_pos opens]
  closing i depth t ts noOpener closes := by
    simp only [splitFrom, noOpener, closes, Bool.false_eq_true, if_false, if_true,
      Nat.add_one_sub_one]
  other i depth t ts noOpener noCloser := by
    simp only [splitFrom, noOpener, noCloser, Bool.false_eq_true, if_false, Nat.add_one_ne_zero,
      and_false]

/-- A part of the tokens, with its position, and the part of the pieces that it is read as. -/
def IsPart (source : List Char) (gs : List Group) (found : Nat × List Token)
    (read : List Piece) : Prop :=
  ∃ front part back, gs = front ++ (part ++ back) ∧ found.1 = (Group.tokensOf front).length ∧
    found.2 = Group.tokensOf part ∧ read = Group.pieces source part

theorem part_tokensOf (front part_ back : List Group) :
    part (Group.tokensOf (front ++ (part_ ++ back))) (Group.tokensOf front).length
      (Group.tokensOf (front ++ part_)).length = pure (Group.tokensOf part_) := by
  rw [Group.tokensOf_append, Group.tokensOf_append, Group.tokensOf_append, List.length_append]
  exact part_append _ _ _

theorem splitFrom_group {g : Group} (fits : g.Fits) (noComma : (g.piece source).isComma = false)
    (i : Nat) (rest : List Token) :
    splitFrom size ts 0 start i (g.tokens ++ rest) =
      splitFrom size ts 0 start (i + g.tokens.length) rest := by
  cases fits with
  | @token t noOpener noCloser =>
    change t.isComma = false at noComma
    change splitFrom size ts 0 start i (t :: rest) = splitFrom size ts 0 start (i + 1) rest
    simp only [splitFrom, noOpener, noCloser, noComma, Bool.false_eq_true, false_and, if_false]
  | @parens opener closer inside opens closes within =>
    have noOpener := Token.noOpener_of_isClosing closes
    have counts : Group.CountsDepth fun i depth rest => splitFrom size ts depth start i rest :=
      countsDepth_splitFrom
    have inner := counts.tokensOf inside (i + 1) 0 (closer :: rest) within
    rw [Group.length_tokens_parens, ← Nat.add_assoc, ← Nat.add_assoc, Group.tokens,
      List.cons_append, List.append_assoc, List.singleton_append, splitFrom, if_pos opens]
    refine inner.trans ?_
    simp only [splitFrom, noOpener, closes, Bool.false_eq_true, if_false, if_true,
      Nat.add_one_sub_one]

theorem length_tokensOf_lt (front : List Group) (g : Group) (part : List Group) :
    (Group.tokensOf front).length < (Group.tokensOf (front ++ g :: part)).length := by
  have positive := g.length_tokens_pos
  simp only [Group.tokensOf_append, Group.tokensOf, List.length_append]
  omega

section Steps

variable {front part rest : List Group}

theorem splitFrom_end (whole : gs = front ++ part)
    (alone : ∀ p ∈ Group.pieces source part, p.isComma = false) (i : Nat) :
    Agrees (List.Forall₂ (IsPart source gs))
      (splitFrom size (Group.tokensOf gs) 0 (Group.tokensOf front).length i [])
      (Piece.segments size (Group.pieces source part)) := by
  subst whole
  rw [splitFrom]
  cases part with
  | nil =>
    rw [if_pos (by simp)]
    exact .error _
  | cons g part =>
    have filled := (length_tokensOf_lt front g part).ne
    have last := part_tokensOf front (g :: part) []
    have divided : Piece.Divided (Group.pieces source (g :: part))
        [Group.pieces source (g :: part)] := .last (List.cons_ne_nil _ _) alone
    rw [List.append_nil] at last
    rw [if_neg filled, last, pure_bind, Piece.segments_of_divided size divided]
    exact .ok (.cons ⟨front, g :: part, [], by simp, rfl, rfl, rfl⟩ .nil)

theorem splitFrom_comma {t : Token} (noOpener : t.isOpening = false)
    (noCloser : t.isClosing = false) (isComma : t.isComma = true)
    (whole : gs = front ++ (part ++ .token t :: rest))
    (alone : ∀ p ∈ Group.pieces source part, p.isComma = false)
    (further : Agrees (List.Forall₂ (IsPart source gs))
      (splitFrom size (Group.tokensOf gs) 0 ((Group.tokensOf (front ++ part)).length + 1)
        ((Group.tokensOf (front ++ part)).length + 1) (Group.tokensOf rest))
      (Piece.segments size (Group.pieces source rest))) :
    Agrees (List.Forall₂ (IsPart source gs))
      (splitFrom size (Group.tokensOf gs) 0 (Group.tokensOf front).length
        (Group.tokensOf (front ++ part)).length (t :: Group.tokensOf rest))
      (Piece.segments size (Group.pieces source (part ++ .token t :: rest))) := by
  simp only [splitFrom, noOpener, noCloser, isComma, Bool.false_eq_true, if_false, and_self,
    if_true]
  cases part with
  | nil =>
    have empty : Piece.segments size (Group.pieces source ([] ++ .token t :: rest)) =
        .error ⟨.emptyQuery, t.start⟩ := Piece.segments_isComma (p := .token t) isComma _
    rw [if_pos (by rw [List.append_nil]), empty]
    exact .error _
  | cons g part =>
    have filled := (length_tokensOf_lt front g part).ne'
    have slice := part_tokensOf front (g :: part) (.token t :: rest)
    have divided : Piece.segments size (Group.pieces source (g :: part ++ .token t :: rest)) =
        (do
          let parts ← Piece.segments size (Group.pieces source rest)
          return Group.pieces source (g :: part) :: parts) := by
      rw [Group.pieces_eq_map, List.map_append, ← Group.pieces_eq_map, List.map_cons,
        ← Group.pieces_eq_map]
      exact Piece.segments_append (List.cons_ne_nil _ _) alone isComma
    rw [← whole] at slice
    rw [if_neg filled, slice, pure_bind, divided]
    refine further.bind fun found parts related => .ok (.cons ?_ related)
    exact ⟨front, g :: part, .token t :: rest, whole, rfl, rfl, rfl⟩

end Steps

/-- Tokens are divided at their commas where pieces are. -/
theorem splitFrom_agrees (fits : ∀ g ∈ gs, g.Fits) (rest : List Group) :
    ∀ front part : List Group, gs = front ++ (part ++ rest) →
      (∀ p ∈ Group.pieces source part, p.isComma = false) →
      Agrees (List.Forall₂ (IsPart source gs))
        (splitFrom size (Group.tokensOf gs) 0 (Group.tokensOf front).length
          (Group.tokensOf (front ++ part)).length (Group.tokensOf rest))
        (Piece.segments size (Group.pieces source (part ++ rest))) := by
  induction rest with
  | nil =>
    intro front part whole alone
    rw [List.append_nil] at whole ⊢
    exact splitFrom_end whole alone _
  | cons g rest ih =>
    intro front part whole alone
    have fitsGroup := fits g (by simp [whole])
    have longer : (Group.tokensOf (front ++ (part ++ [g]))).length =
        (Group.tokensOf (front ++ part)).length + g.tokens.length := by
      simp only [Group.tokensOf_append, Group.tokensOf, List.length_append, List.append_nil]
      omega
    rw [Group.tokensOf]
    cases isComma : (g.piece source).isComma with
    | true =>
      cases fitsGroup with
      | parens => cases isComma
      | @token t noOpener noCloser =>
        have next := ih (front ++ (part ++ [.token t])) [] (by simp [whole])
          (List.forall_mem_nil _)
        rw [List.append_nil, longer] at next
        exact splitFrom_comma noOpener noCloser isComma whole alone next
    | false =>
      have still : ∀ p ∈ Group.pieces source (part ++ [g]), p.isComma = false := by
        rw [Group.pieces_eq_map, List.map_append, ← Group.pieces_eq_map, List.forall_mem_append]
        exact ⟨alone, by simpa using isComma⟩
      have next := ih front (part ++ [g]) (by simp [whole]) still
      rw [longer, List.append_assoc, List.singleton_append] at next
      rw [splitFrom_group fitsGroup isComma]
      exact next

end Split

section Lists

variable {source : List Char} {gs : List Group} {ts : List Token}

theorem split_agrees (size : Nat) (fits : ∀ g ∈ gs, g.Fits) :
    Agrees (List.Forall₂ (IsPart source gs)) (split size (Group.tokensOf gs))
      (Piece.segments size (Group.pieces source gs)) := by
  rw [split, Group.pairs_tokensOf fits, ofExcept_ok, pure_bind]
  exact splitFrom_agrees fits gs [] [] rfl (List.forall_mem_nil _)

theorem IsPart.wholeQuery_agrees (sliced : Sliced source (Group.tokensOf gs))
    (fits : ∀ g ∈ gs, g.Fits) {found : Nat × List Token} {read : List Piece}
    (isPart : IsPart source gs found read) :
    Agrees Eq (wholeQuery source found.2)
      (Query.ofAllPieces (Piece.lastStop (Text.byteSize source) read) read) := by
  obtain ⟨front, part, back, rfl, -, same, rfl⟩ := isPart
  simp only [List.forall_mem_append] at fits
  have inner : Group.tokensOf part <:+: Group.tokensOf (front ++ (part ++ back)) :=
    ⟨Group.tokensOf front, Group.tokensOf back, by simp [Group.tokensOf_append]⟩
  rw [same]
  exact ByOffset.wholeQuery_agrees (sliced.sub inner) fits.2.1

theorem mapM_agrees {α β γ : Type} {R : α → β → Prop} {next : α → Access γ}
    {after : β → Except ParseError γ} (each : ∀ a b, R a b → Agrees Eq (next a) (after b))
    {xs : List α} {ys : List β} (related : List.Forall₂ R xs ys) :
    Agrees Eq (xs.mapM next) (ys.mapM after) := by
  induction related with
  | nil => exact .ok rfl
  | cons first rest ih =>
    rw [List.mapM_cons, List.mapM_cons]
    refine (each _ _ first).bind ?_
    rintro c _ rfl
    refine ih.bind ?_
    rintro cs _ rfl
    exact .ok rfl

theorem list_agrees (sliced : Sliced source (Group.tokensOf gs)) (fits : ∀ g ∈ gs, g.Fits)
    (nonempty : Group.pieces source gs ≠ []) :
    Agrees Eq (list source (Group.tokensOf gs))
      (do
        let parts ← Piece.segments (Text.byteSize source) (Group.pieces source gs)
        parts.mapM fun part =>
          Query.ofAllPieces (Piece.lastStop (Text.byteSize source) part) part) := by
  have filled : ¬(Group.tokensOf gs).isEmpty = true := by
    rw [List.isEmpty_iff]
    exact Group.tokensOf_ne_nil nonempty
  rw [list, if_neg filled]
  refine (split_agrees _ fits).bind fun found read related => ?_
  exact mapM_agrees (fun _ _ isPart => isPart.wholeQuery_agrees sliced fits) related

/-- The text between parentheses of a source can be sliced. -/
theorem sliced_of_lexes (lexes : Lexes 0 source ts) : Sliced source ts := by
  intro opener inside closer place closes
  obtain ⟨front, text, back, whole, begins, ends⟩ := lexes.exists_text place closes
  have parts : source = front ++ ((text ++ [')']) ++ back) := by simp [whole]
  have slice : Text.slice source opener.start closer.stop = text ++ [')'] := by
    rw [parts, begins, ends, Text.byteSize_append, Text.slice_append]
  rw [slice, Text.slice?_eq_some]
  exact ⟨front, back, parts, begins.symm, ends.symm⟩

end Lists

def parseList (source : String) : Access QueryList := do
  let ts ← tokenize source
  list source.toList ts

def parseQuery (source : String) : Access Query := do
  match ← parseList source with
  | [q] => return q
  | _ => throw ⟨.severalQueries, 0⟩

def parseCondition (source : String) : Access Condition := do
  let ts ← tokenize source
  wholeCondition source.toList ts

section Texts

variable {ts : List Token} {e : ParseError}

theorem pairs_eq_error (refused : Group.ofTokens ts = .error e) : pairs ts = .error e := by
  have faults := Group.pairs_faults ts
  rw [refused] at faults
  cases paired : pairs ts with
  | ok found => rw [paired] at faults; cases faults
  | error e' => rw [paired] at faults; exact congrArg _ (Except.error.inj faults)

theorem list_eq_throw (source : List Char) (refused : Group.ofTokens ts = .error e) :
    list source ts = throw e := by
  have filled : ¬ts.isEmpty = true := by
    rw [List.isEmpty_iff]
    rintro rfl
    cases refused
  rw [list, if_neg filled, split, pairs_eq_error refused]
  rfl

theorem ofSource_of_lexed {source : String} (lexed : MediaQuery.tokenize source = .ok ts) :
    Piece.ofSource source = (Group.ofTokens ts).map (Group.pieces source.toList) := by
  rw [Piece.ofSource, lexed]
  rfl

/-- A list is read by offsets as it is read, never astray. -/
theorem parseList_eq (source : String) : parseList source = ofExcept (QueryList.parse source) := by
  rw [parseList, tokenize_eq, QueryList.parse]
  cases lexed : MediaQuery.tokenize source with
  | error e =>
    rw [Piece.ofSource, lexed]
    rfl
  | ok ts =>
    rw [ofExcept_ok, pure_bind, ofSource_of_lexed lexed]
    cases grouped : Group.ofTokens ts with
    | error e =>
      rw [list_eq_throw _ grouped]
      rfl
    | ok gs =>
      obtain ⟨fits, rfl⟩ := Group.ofTokens_eq_ok.1 grouped
      cases gs with
      | nil => rfl
      | cons g gs =>
        have sliced := sliced_of_lexes (tokenize_eq_ok.1 lexed)
        exact (list_agrees sliced fits (List.cons_ne_nil _ _)).eq

theorem parseQuery_eq (source : String) : parseQuery source = ofExcept (Query.parse source) := by
  rw [parseQuery, parseList_eq, Query.parse]
  cases read : QueryList.parse source with
  | error e => rfl
  | ok list =>
    rw [ofExcept_ok, pure_bind]
    match list with
    | [] => rfl
    | [q] => rfl
    | q :: r :: rest => rfl

theorem parseCondition_eq (source : String) :
    parseCondition source = ofExcept (Condition.parse source) := by
  rw [parseCondition, tokenize_eq, Condition.parse]
  cases lexed : MediaQuery.tokenize source with
  | error e =>
    rw [Piece.ofSource, lexed]
    rfl
  | ok ts =>
    rw [ofExcept_ok, pure_bind, ofSource_of_lexed lexed]
    cases grouped : Group.ofTokens ts with
    | error e =>
      rw [wholeCondition, pairs_eq_error grouped]
      rfl
    | ok gs =>
      obtain ⟨fits, rfl⟩ := Group.ofTokens_eq_ok.1 grouped
      exact (wholeCondition_agrees (sliced_of_lexes (tokenize_eq_ok.1 lexed)) fits).eq

end Texts

end ByOffset

end MediaQuery
