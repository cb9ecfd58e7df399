import MediaQuery.Query.ParseError
import MediaQuery.Query.Token

set_option autoImplicit false

namespace MediaQuery

/-- A token, or an opening token with its partner and what stands between them. -/
inductive Group where
  | token (token : Token)
  | parens (opener : Token) (inside : List Group) (closer : Token)

namespace Group

/-- Groups tokens from left to right. `stack` holds the opening tokens that wait for a partner,
the innermost first, each with the groups in front of it, and `done` the groups read since then;
both lists of groups are reversed. -/
def gather : List Token → List (Token × List Group) → List Group → Except ParseError (List Group)
  | [], [], done => .ok done.reverse
  | [], (opener, _) :: _, _ => .error ⟨.unclosedParenthesis, opener.start⟩
  | t :: ts, stack, done =>
    if t.isOpening then gather ts ((t, done) :: stack) []
    else if t.isClosing then
      match stack with
      | [] => .error ⟨.unexpectedClose, t.start⟩
      | (opener, before) :: outer => gather ts outer (.parens opener done.reverse t :: before)
    else gather ts stack (.token t :: done)

def ofTokens (ts : List Token) : Except ParseError (List Group) := gather ts [] []

mutual

def tokens : Group → List Token
  | .token t => [t]
  | .parens opener inside closer => opener :: (tokensOf inside ++ [closer])

def tokensOf : List Group → List Token
  | [] => []
  | g :: gs => g.tokens ++ tokensOf gs

end

theorem tokensOf_append (xs ys : List Group) :
    tokensOf (xs ++ ys) = tokensOf xs ++ tokensOf ys := by
  induction xs with
  | nil => rfl
  | cons x xs ih => simp only [List.cons_append, tokensOf, ih, List.append_assoc]

/-- The tokens that a stack of open parentheses holds, from the outermost on. -/
def stackTokens : List (Token × List Group) → List Token
  | [] => []
  | (opener, before) :: outer => stackTokens outer ++ (tokensOf before.reverse ++ [opener])

theorem gather_tokens (ts : List Token) (stack : List (Token × List Group)) (done gs : List Group)
    (h : gather ts stack done = .ok gs) :
    tokensOf gs = stackTokens stack ++ (tokensOf done.reverse ++ ts) := by
  induction ts generalizing stack done with
  | nil =>
    cases stack with
    | nil =>
      simp only [gather, Except.ok.injEq] at h
      simp [stackTokens, h]
    | cons s stack => simp [gather] at h
  | cons t ts ih =>
    simp only [gather] at h
    split at h
    · rw [ih _ _ h]
      simp [stackTokens, tokensOf]
    · split at h
      · cases stack with
        | nil => simp at h
        | cons s stack =>
          rw [ih _ _ h]
          simp [stackTokens, tokensOf, tokensOf_append, tokens]
      · rw [ih _ _ h]
        simp [tokensOf, tokensOf_append, tokens]

/-- Grouping loses no token and changes no order. -/
theorem tokensOf_ofTokens (ts : List Token) (gs : List Group) (h : ofTokens ts = .ok gs) :
    tokensOf gs = ts := by
  simpa [stackTokens, tokensOf] using gather_tokens ts [] [] gs h

end Group

end MediaQuery
