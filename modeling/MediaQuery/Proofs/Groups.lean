import MediaQuery.Proofs.Grammar

set_option autoImplicit false

namespace MediaQuery

theorem Token.noOpener_of_isClosing {t : Token} (closes : t.isClosing = true) :
    t.isOpening = false := by
  cases opens : t.isOpening with
  | false => rfl
  | true =>
    rw [Token.isClosing_of_isOpening t opens] at closes
    cases closes

namespace Group

/-- A group whose single tokens are no parentheses and whose parentheses are some. -/
inductive Fits : Group → Prop where
  | token {t : Token} (noOpener : t.isOpening = false) (noCloser : t.isClosing = false) :
      Fits (.token t)
  | parens {opener closer : Token} {inside : List Group} (opens : opener.isOpening = true)
      (closes : closer.isClosing = true) (within : ∀ g ∈ inside, Fits g) :
      Fits (.parens opener inside closer)

theorem fits_gather {ts : List Token} {stack : List (Token × List Group)} {done gs : List Group}
    (gathered : gather ts stack done = .ok gs) (fitsDone : ∀ g ∈ done, g.Fits)
    (fitsStack : ∀ open_ ∈ stack, open_.1.isOpening = true ∧ ∀ g ∈ open_.2, g.Fits) :
    ∀ g ∈ gs, g.Fits := by
  induction ts generalizing stack done with
  | nil =>
    cases stack with
    | nil =>
      cases gathered
      simpa using fitsDone
    | cons top stack => cases gathered
  | cons t ts ih =>
    simp only [gather] at gathered
    split at gathered
    · rename_i opens
      refine ih gathered (by simp) ?_
      rw [List.forall_mem_cons]
      exact ⟨⟨opens, fitsDone⟩, fitsStack⟩
    · rename_i noOpener
      split at gathered
      · rename_i closes
        cases stack with
        | nil => cases gathered
        | cons top stack =>
          rw [List.forall_mem_cons] at fitsStack
          obtain ⟨⟨opens, fitsBefore⟩, fitsOuter⟩ := fitsStack
          refine ih gathered ?_ fitsOuter
          rw [List.forall_mem_cons]
          exact ⟨.parens opens closes (by simpa using fitsDone), fitsBefore⟩
      · rename_i noCloser
        refine ih gathered ?_ fitsStack
        rw [List.forall_mem_cons]
        exact ⟨.token (by simpa using noOpener) (by simpa using noCloser), fitsDone⟩

mutual

theorem gather_tokens_append : ∀ (g : Group) (rest : List Token)
    (stack : List (Token × List Group)) (done : List Group), g.Fits →
      gather (g.tokens ++ rest) stack done = gather rest stack (g :: done)
  | .token t, rest, stack, done, fits => by
    cases fits with
    | token noOpener noCloser => simp [tokens, gather, noOpener, noCloser]
  | .parens opener inside closer, rest, stack, done, fits => by
    cases fits with
    | parens opens closes within =>
      have noOpener := Token.noOpener_of_isClosing closes
      have inner := gather_tokensOf_append inside (closer :: rest) ((opener, done) :: stack) []
        within
      simp only [tokens, List.cons_append, List.append_assoc, gather, opens, if_true,
        List.nil_append, inner, noOpener, closes, Bool.false_eq_true, if_false, List.append_nil,
        List.reverse_reverse]

theorem gather_tokensOf_append : ∀ (gs : List Group) (rest : List Token)
    (stack : List (Token × List Group)) (done : List Group), (∀ g ∈ gs, g.Fits) →
      gather (tokensOf gs ++ rest) stack done = gather rest stack (gs.reverse ++ done)
  | [], rest, stack, done, fits => by simp [tokensOf]
  | g :: gs, rest, stack, done, fits => by
    rw [List.forall_mem_cons] at fits
    rw [tokensOf, List.append_assoc, gather_tokens_append g _ stack done fits.1,
      gather_tokensOf_append gs rest stack (g :: done) fits.2]
    simp

end

/-- Grouping finds the groups that fit together and are made of the tokens. -/
theorem ofTokens_eq_ok {ts : List Token} {gs : List Group} :
    ofTokens ts = .ok gs ↔ (∀ g ∈ gs, g.Fits) ∧ tokensOf gs = ts := by
  constructor
  · intro grouped
    exact ⟨fits_gather grouped (by simp) (by simp), tokensOf_ofTokens ts gs grouped⟩
  · rintro ⟨fits, rfl⟩
    have gathered := gather_tokensOf_append gs [] [] [] fits
    rw [List.append_nil, List.append_nil] at gathered
    simp [ofTokens, gathered, gather]

/-- Groups that fit together are determined by their tokens. -/
theorem eq_of_tokensOf {gs hs : List Group} (left : ∀ g ∈ gs, g.Fits) (right : ∀ g ∈ hs, g.Fits)
    (same : tokensOf gs = tokensOf hs) : gs = hs := by
  have first := ofTokens_eq_ok.2 ⟨left, same⟩
  have second := ofTokens_eq_ok.2 ⟨right, rfl⟩
  exact Except.ok.inj (first.symm.trans second)

theorem exists_of_balanced {top : Token → Bool} {ts : List Token} (balanced : Balanced top ts) :
    ∃ gs : List Group, (∀ g ∈ gs, g.Fits) ∧ tokensOf gs = ts ∧
      ∀ t, .token t ∈ gs → top t = true := by
  induction balanced with
  | nil => exact ⟨[], by simp, rfl, by simp⟩
  | @token top t ts noOpener noCloser allowed _ ih =>
    obtain ⟨gs, fits, made, tops⟩ := ih
    refine ⟨.token t :: gs, ?_, by simp [tokensOf, tokens, made], ?_⟩
    · rw [List.forall_mem_cons]
      exact ⟨.token noOpener noCloser, fits⟩
    · intro u mem
      rcases List.mem_cons.1 mem with same | mem
      · cases same
        exact allowed
      · exact tops u mem
  | @parens top opener closer inside ts opens closes _ _ ihInside ih =>
    obtain ⟨inner, fitsInner, rfl, _⟩ := ihInside
    obtain ⟨gs, fits, rfl, tops⟩ := ih
    refine ⟨.parens opener inner closer :: gs, ?_, by simp [tokensOf, tokens], ?_⟩
    · rw [List.forall_mem_cons]
      exact ⟨.parens opens closes fitsInner, fits⟩
    · intro u mem
      exact tops u ((List.mem_cons.1 mem).resolve_left nofun)

mutual

theorem balanced_cons : ∀ (g : Group) (top : Token → Bool) (ts : List Token), g.Fits →
    (∀ t, g = .token t → top t = true) → Balanced top ts → Balanced top (g.tokens ++ ts)
  | .token t, top, ts, fits, allowed, rest => by
    cases fits with
    | token noOpener noCloser => exact .token noOpener noCloser (allowed t rfl) rest
  | .parens opener inside closer, top, ts, fits, allowed, rest => by
    cases fits with
    | parens opens closes within =>
      have inner := balanced_tokensOf inside (fun _ => true) within (fun _ _ => rfl)
      simpa [tokens] using Balanced.parens opens closes inner rest

theorem balanced_tokensOf : ∀ (gs : List Group) (top : Token → Bool), (∀ g ∈ gs, g.Fits) →
    (∀ t, .token t ∈ gs → top t = true) → Balanced top (tokensOf gs)
  | [], top, fits, allowed => .nil
  | g :: gs, top, fits, allowed => by
    rw [List.forall_mem_cons] at fits
    refine balanced_cons g top (tokensOf gs) fits.1 (fun t same => ?_) ?_
    · exact allowed t (by simp [same])
    · exact balanced_tokensOf gs top fits.2 fun t mem => allowed t (List.mem_cons_of_mem _ mem)

end

/-- Parentheses balance exactly in the tokens of groups that fit together. -/
theorem balanced_iff {top : Token → Bool} {ts : List Token} :
    Balanced top ts ↔ ∃ gs : List Group, (∀ g ∈ gs, g.Fits) ∧ tokensOf gs = ts ∧
      ∀ t, .token t ∈ gs → top t = true := by
  constructor
  · exact exists_of_balanced
  · rintro ⟨gs, fits, rfl, allowed⟩
    exact balanced_tokensOf gs top fits allowed

end Group

end MediaQuery
