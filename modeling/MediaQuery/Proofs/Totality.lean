import MediaQuery.Proofs.Faults
import MediaQuery.Proofs.OffsetLists

set_option autoImplicit false

namespace MediaQuery

namespace ByOffset

open Access

/-- The slices of the tokens that are read on their own, each with the position of its first token:
all of the tokens, the parts between outer commas, and what is inside of parentheses. -/
inductive Window (size : Nat) (ts : List Token) : Nat → List Token → Prop where
  | whole : Window size ts 0 ts
  | segment {parts : List (Nat × List Token)} {a : Nat} {ws : List Token}
      (divided : split size ts = pure parts) (mem : (a, ws) ∈ parts) : Window size ts a ws
  | inside {a pos close : Nat} {ws inner : List Token} {opener : Token}
      (outer : Window size ts a ws) (here : ws[pos]? = some opener)
      (opens : opener.isOpening = true) (partner : matchingParen ws pos = pure close)
      (slice : part ws (pos + 1) close = pure inner) : Window size ts (a + (pos + 1)) inner

/-- A slice of the tokens `ts` at `a` that is made of groups, with the pairs that it has there. -/
structure IsGrouped (ts : List Token) (found : List (Nat × Nat)) (a : Nat) (ws : List Token)
    (gs : List Group) : Prop where
  made : Group.tokensOf gs = ws
  fits : ∀ g ∈ gs, g.Fits
  place : ∃ front back, ts = front ++ (ws ++ back) ∧ front.length = a
  paired : Group.pairsOf a gs ⊆ found

/-- The tokens `ws` around the opening token at `pos` and its partner. -/
structure Partnered (found : List (Nat × Nat)) (a pos : Nat) (ws us : List Token) (opener : Token)
    (inside : List Group) (closer : Token) (back : List Token) : Prop extends
    Group.Encloses (a + pos) (Group.tokensOf inside ++ closer :: back) found inside closer
      back where
  whole : ws = us ++ opener :: (Group.tokensOf inside ++ closer :: back)
  position : us.length = pos

section Windows

variable {ts ws : List Token} {found : List (Nat × Nat)} {a pos : Nat} {gs : List Group}
  {opener : Token}

theorem IsGrouped.exists_partnered (grouped : IsGrouped ts found a ws gs)
    (here : ws[pos]? = some opener) (opens : opener.isOpening = true) :
    ∃ us inside closer back, Partnered found a pos ws us opener inside closer back := by
  obtain ⟨inRange, rfl⟩ := List.getElem?_eq_some_iff.1 here
  have divided : ws = ws.take pos ++ ws[pos] :: ws.drop (pos + 1) := by
    rw [← List.drop_eq_getElem_cons inRange, List.take_append_drop]
  have position : (ws.take pos).length = pos := List.length_take_of_le (Nat.le_of_lt inRange)
  obtain ⟨inside, closer, back, encloses⟩ :=
    Group.exists_encloses_tokensOf gs a _ _ grouped.fits opens (grouped.made.trans divided)
  have place := encloses.place
  rw [place] at divided encloses
  rw [position] at encloses
  exact ⟨ws.take pos, inside, closer, back, encloses.mono grouped.paired, divided, position⟩

theorem Partnered.matchingParen_eq {us back : List Token} {inside : List Group} {closer : Token}
    (partnered : Partnered found a pos ws us opener inside closer back)
    (opens : opener.isOpening = true) :
    matchingParen ws pos = pure (pos + 1 + (Group.tokensOf inside).length) := by
  rw [partnered.whole, ← partnered.position]
  exact Group.matchingParen_eq us back opens partnered.closes partnered.within

theorem Partnered.isGrouped {us back : List Token} {inside : List Group} {closer : Token}
    (partnered : Partnered found a pos ws us opener inside closer back)
    (place : ∃ front back, ts = front ++ (ws ++ back) ∧ front.length = a) :
    IsGrouped ts found (a + (pos + 1)) (Group.tokensOf inside) inside where
  made := rfl
  fits := partnered.within
  place := by
    obtain ⟨front, behind, rfl, rfl⟩ := place
    refine ⟨front ++ (us ++ [opener]), closer :: (back ++ behind), ?_, ?_⟩
    · simp [partnered.whole]
    · simp [partnered.position]
  paired := partnered.nested

theorem Partnered.slice {us back inner : List Token} {inside : List Group} {closer : Token}
    (partnered : Partnered found a pos ws us opener inside closer back)
    (slice : part ws (pos + 1) (pos + 1 + (Group.tokensOf inside).length) = pure inner) :
    inner = Group.tokensOf inside := by
  obtain ⟨-, between, -⟩ := parts_at_second us (Group.tokensOf inside) back opener closer
  rw [← partnered.whole, partnered.position, slice] at between
  cases between
  rfl

theorem exists_of_forall₂ {α β : Type} {R : α → β → Prop} {xs : List α} {ys : List β}
    (related : List.Forall₂ R xs ys) {x : α} (mem : x ∈ xs) : ∃ y, R x y := by
  induction related with
  | nil => cases mem
  | cons first _ ih =>
    rcases List.mem_cons.1 mem with rfl | mem
    · exact ⟨_, first⟩
    · exact ih mem

/-- Every slice that is read on its own is made of groups, and paired as all tokens are. -/
theorem Window.exists_grouped {size : Nat} (fits : ∀ g ∈ gs, g.Fits)
    (window : Window size (Group.tokensOf gs) a ws) :
    ∃ hs, IsGrouped (Group.tokensOf gs) (Group.pairsOf 0 gs) a ws hs := by
  induction window with
  | whole => exact ⟨gs, rfl, fits, ⟨[], [], by simp, rfl⟩, List.Subset.refl _⟩
  | @segment parts a ws divided mem =>
    have agrees : Agrees (List.Forall₂ (IsPart [] gs)) _ _ := split_agrees size fits
    rw [divided] at agrees
    obtain ⟨_, -, related⟩ := agrees.exists_of_pure
    obtain ⟨_, front, hs, back, rfl, rfl, rfl, -⟩ := exists_of_forall₂ related mem
    simp only [List.forall_mem_append] at fits
    refine ⟨hs, rfl, fits.2.1, ⟨Group.tokensOf front, Group.tokensOf back, ?_, rfl⟩, ?_⟩
    · simp only [Group.tokensOf_append]
    · rw [Group.pairsOf_append, Group.pairsOf_append, Nat.zero_add]
      exact fun _ mem => List.mem_append_left _ (List.mem_append_right _ mem)
  | @inside a pos close ws inner opener _ here opens partner slice ih =>
    obtain ⟨hs, grouped⟩ := ih
    obtain ⟨us, inside, closer, back, partnered⟩ := grouped.exists_partnered here opens
    rw [partnered.matchingParen_eq opens] at partner
    cases partner
    rw [partnered.slice slice]
    exact ⟨inside, partnered.isGrouped grouped.place⟩

/-- An opening token in a slice is read on behind its partner. -/
theorem Partnered.exists_inParens {source : List Char} {us back : List Token}
    {inside : List Group} {closer : Token} (sliced : Sliced source ws)
    (partnered : Partnered found a pos ws us opener inside closer back)
    (opens : opener.isOpening = true) :
    ∃ x, inParens source ws pos = pure (x, pos + 1 + (Group.tokensOf inside).length + 1) := by
  have inner : Group.tokensOf inside <:+: ws :=
    ⟨us ++ [opener], closer :: back, by simp [partnered.whole]⟩
  have agrees (pos : Nat) (ps : List Piece) (stands : Stands source inside pos ps) :
      Agrees (Same source inside) (inParens source (Group.tokensOf inside) pos)
        (InParens.ofPieces (lastStop source inside) ps) :=
    inParens_agrees (sliced.sub inner) partnered.within stands
  rw [partnered.whole] at sliced ⊢
  rw [← partnered.position]
  exact ⟨_, inParens_parens sliced opens partnered.closes partnered.within agrees⟩

/-- Where parentheses match, each opening token in a slice that is read on its own is read on behind
its partner, which is the one that it has among all tokens. -/
theorem Window.exists_partner {source : List Char} {size : Nat}
    (sliced : Sliced source (Group.tokensOf gs)) (fits : ∀ g ∈ gs, g.Fits)
    (window : Window size (Group.tokensOf gs) a ws) (here : ws[pos]? = some opener)
    (opens : opener.isOpening = true) :
    (Group.tokensOf gs)[a + pos]? = some opener ∧ ∃ close, matchingParen ws pos = pure close ∧
      (∃ x, inParens source ws pos = pure (x, close + 1)) ∧
      ∀ partner, (a + pos, partner) ∈ Group.pairsOf 0 gs ↔ partner = a + close := by
  obtain ⟨hs, grouped⟩ := window.exists_grouped fits
  obtain ⟨us, inside, closer, back, partnered⟩ := grouped.exists_partnered here opens
  obtain ⟨front, behind, whole, rfl⟩ := grouped.place
  have inRange : pos < ws.length := (List.getElem?_eq_some_iff.1 here).1
  have inner : ws <:+: Group.tokensOf gs := ⟨front, behind, by rw [whole, List.append_assoc]⟩
  refine ⟨?_, _, partnered.matchingParen_eq opens,
    partnered.exists_inParens (sliced.sub inner) opens, fun partner => ?_⟩
  · rw [whole, List.getElem?_append_right (Nat.le_add_right _ _), Nat.add_sub_cancel_left,
      List.getElem?_append_left inRange, here]
  · have paired := partnered.paired
    rw [Nat.add_assoc, Nat.add_assoc, ← Nat.add_assoc pos] at paired
    constructor
    · exact fun mem => Group.eq_of_mem_pairsOf gs 0 mem paired
    · rintro rfl
      exact paired

end Windows

end ByOffset

/-- An error points in front of a character of a text, or behind the last one. -/
def ParseError.PointsInto (source : String) (e : ParseError) : Prop :=
  e.position ≤ Text.byteSize source.toList ∧ Text.IsOffset source.toList e.position

theorem ErrorsAt.pointsInto {α : Type} {source : String} {Q : α → Prop} {x : Except ParseError α}
    (places : ErrorsAt (Text.IsOffset source.toList) Q x) {e : ParseError}
    (refused : x = .error e) : e.PointsInto source :=
  ⟨(places.place refused).le, places.place refused⟩

/-- Every text is read or refused: no step goes astray, errors point into the text, and where the
parentheses match, all of them are read on behind their partners. -/
theorem parsing_total (source : String) :
    (ByOffset.tokenize source = ofExcept (tokenize source) ∧
      ByOffset.parseList source = ofExcept (QueryList.parse source) ∧
      ByOffset.parseQuery source = ofExcept (Query.parse source) ∧
      ByOffset.parseCondition source = ofExcept (Condition.parse source)) ∧
    ((∀ e, tokenize source = .error e → e.PointsInto source) ∧
      (∀ e, QueryList.parse source = .error e → e.PointsInto source) ∧
      (∀ e, Query.parse source = .error e → e.PointsInto source) ∧
      (∀ e, Condition.parse source = .error e → e.PointsInto source)) ∧
    ∀ ts gs, tokenize source = .ok ts → Group.ofTokens ts = .ok gs →
      ∃ found, ByOffset.pairs ts = .ok found ∧
        ∀ a ws, ByOffset.Window (Text.byteSize source.toList) ts a ws →
          ∀ pos opener, ws[pos]? = some opener → opener.isOpening = true →
            ts[a + pos]? = some opener ∧
            ∃ close, ByOffset.matchingParen ws pos = pure close ∧
              (∃ x, ByOffset.inParens source.toList ws pos = pure (x, close + 1)) ∧
              ∀ partner, (a + pos, partner) ∈ found ↔ partner = a + close := by
  refine ⟨⟨ByOffset.tokenize_eq source, ByOffset.parseList_eq source,
    ByOffset.parseQuery_eq source, ByOffset.parseCondition_eq source⟩, ⟨?_, ?_, ?_, ?_⟩, ?_⟩
  · exact fun e => (tokenize_errorsAt source).pointsInto
  · exact fun e => (QueryList.parse_errorsAt source).pointsInto
  · exact fun e => (Query.parse_errorsAt source).pointsInto
  · exact fun e => (Condition.parse_errorsAt source).pointsInto
  intro ts gs lexed grouped
  obtain ⟨fits, rfl⟩ := Group.ofTokens_eq_ok.1 grouped
  have sliced := ByOffset.sliced_of_lexes (tokenize_eq_ok.1 lexed)
  refine ⟨_, Group.pairs_tokensOf fits, ?_⟩
  intro a ws window pos opener here opens
  exact window.exists_partner sliced fits here opens

theorem parsing_total_nested :
    (tokenize "é/*" = .error ⟨.unterminatedComment, 2⟩ ∧
      ParseError.PointsInto "é/*" ⟨.unterminatedComment, 2⟩) ∧
    ∃ ts found, tokenize "all,((b))" = .ok ts ∧ ByOffset.pairs ts = .ok found ∧
      ∃ ws, ByOffset.Window 9 ts 3 ws ∧ ByOffset.matchingParen ws 0 = pure 2 ∧
        (3, 5) ∈ found := by
  have unended : tokenize "é/*" = .error ⟨.unterminatedComment, 2⟩ := by cbv
  refine ⟨⟨unended, (parsing_total "é/*").2.1.1 _ unended⟩, ?_⟩
  obtain ⟨ts, lexed, window, gs, grouped⟩ : ∃ ts, tokenize "all,((b))" = .ok ts ∧
      ByOffset.Window 9 ts 3 [⟨.opening, 5, 6⟩, ⟨.ident "b", 6, 7⟩, ⟨.closing, 7, 8⟩] ∧
      ∃ gs, Group.ofTokens ts = .ok gs :=
    ⟨[⟨.ident "all", 0, 3⟩, ⟨.comma, 3, 4⟩, ⟨.opening, 4, 5⟩, ⟨.opening, 5, 6⟩,
      ⟨.ident "b", 6, 7⟩, ⟨.closing, 7, 8⟩, ⟨.closing, 8, 9⟩], by cbv,
      @ByOffset.Window.inside _ _ 2 0 _ _ _ _ (.segment rfl (.tail _ (.head _))) rfl rfl rfl rfl,
      _, rfl⟩
  obtain ⟨found, paired, partners⟩ := (parsing_total "all,((b))").2.2 ts gs lexed grouped
  obtain ⟨-, close, partner, -, same⟩ := partners _ _ window 0 _ rfl rfl
  cases partner
  exact ⟨ts, found, lexed, paired, _, window, rfl, (same 5).2 rfl⟩

end MediaQuery
