import MediaQuery.Proofs.Access
import MediaQuery.Proofs.Groups

set_option autoImplicit false

/- The partner of an opening token, found in two ways. One look at all tokens keeps the positions of
the opening tokens that wait on a stack, and pairs the innermost one with each closing token. A
later look counts how deep it is from one opening token on. Where the first look finds no fault, the
second one ends at the same partner, and its count never falls below zero. -/
namespace MediaQuery

namespace ByOffset

open Access

/-- Pairs the positions of parentheses. `stack` holds the opening tokens that wait for a partner,
the innermost first, each with its position. -/
def pair (i : Nat) : List Token → List (Nat × Token) → List (Nat × Nat) →
    Except ParseError (List (Nat × Nat))
  | [], [], pairs => .ok pairs
  | [], (_, opener) :: _, _ => .error ⟨.unclosedParenthesis, opener.start⟩
  | t :: ts, stack, pairs =>
    if t.isOpening then pair (i + 1) ts ((i, t) :: stack) pairs
    else if t.isClosing then
      match stack with
      | [] => .error ⟨.unexpectedClose, t.start⟩
      | (j, _) :: outer => pair (i + 1) ts outer ((j, i) :: pairs)
    else pair (i + 1) ts stack pairs

/-- The positions of matching parentheses among all tokens of a text. -/
def pairs (ts : List Token) : Except ParseError (List (Nat × Nat)) := pair 0 ts [] []

/-- Looks for the end of the parentheses that are open, `depth` of them. -/
def seek (i depth : Nat) : List Token → Access (Option Nat)
  | [] => return none
  | t :: ts =>
    if t.isOpening then seek (i + 1) (depth + 1) ts
    else if t.isClosing then
      match depth with
      | 0 => astray
      | depth + 1 => if depth = 0 then return some i else seek (i + 1) depth ts
    else seek (i + 1) depth ts

/-- The position of the partner of the opening token at a position. -/
def matchingParen (ts : List Token) (pos : Nat) : Access Nat := do
  match ← seek pos 0 (ts.drop pos) with
  | some close => return close
  | none => do
    let opener ← find ts[pos]?
    throw ⟨.unclosedParenthesis, opener.start⟩

end ByOffset

namespace Group

mutual

/-- The positions of the parentheses in a group whose first token stands at `i`. -/
def pairs (i : Nat) : Group → List (Nat × Nat)
  | .token _ => []
  | .parens _ inside _ => (i, i + 1 + (tokensOf inside).length) :: pairsOf (i + 1) inside

def pairsOf (i : Nat) : List Group → List (Nat × Nat)
  | [] => []
  | g :: gs => pairsOf (i + g.tokens.length) gs ++ g.pairs i

end

section Positions

open ByOffset

variable {gs : List Group} {opener closer : Token} {inside : List Group}

theorem length_tokens_parens (opener : Token) (inside : List Group) (closer : Token) :
    (parens opener inside closer).tokens.length = 1 + (tokensOf inside).length + 1 := by
  simp only [tokens, List.length_cons, List.length_append, List.length_nil]
  omega

mutual

theorem pair_tokens : ∀ (g : Group) (i : Nat) (rest : List Token)
    (stack : List (Nat × Token)) (found : List (Nat × Nat)), g.Fits →
      pair i (g.tokens ++ rest) stack found =
        pair (i + g.tokens.length) rest stack (g.pairs i ++ found)
  | .token t, i, rest, stack, found, fits => by
    cases fits with
    | token noOpener noCloser => simp [tokens, pair, noOpener, noCloser, pairs]
  | .parens opener inside closer, i, rest, stack, found, fits => by
    cases fits with
    | parens opens closes within =>
      have noOpener := Token.noOpener_of_isClosing closes
      have inner := pair_tokensOf inside (i + 1) (closer :: rest) ((i, opener) :: stack) found
        within
      rw [length_tokens_parens, ← Nat.add_assoc, ← Nat.add_assoc]
      simp only [tokens, List.cons_append, List.append_assoc, List.nil_append, pair, opens, if_true,
        inner, noOpener, Bool.false_eq_true, if_false, closes, pairs]

theorem pair_tokensOf : ∀ (gs : List Group) (i : Nat) (rest : List Token)
    (stack : List (Nat × Token)) (found : List (Nat × Nat)), (∀ g ∈ gs, g.Fits) →
      pair i (tokensOf gs ++ rest) stack found =
        pair (i + (tokensOf gs).length) rest stack (pairsOf i gs ++ found)
  | [], i, rest, stack, found, fits => by simp [tokensOf, pairsOf]
  | g :: gs, i, rest, stack, found, fits => by
    rw [List.forall_mem_cons] at fits
    rw [tokensOf, List.append_assoc, pair_tokens g i _ stack found fits.1,
      pair_tokensOf gs _ rest stack _ fits.2, List.length_append, pairsOf, List.append_assoc,
      Nat.add_assoc]

end

theorem pairsOf_append (gs hs : List Group) (i : Nat) :
    pairsOf i (gs ++ hs) = pairsOf (i + (tokensOf gs).length) hs ++ pairsOf i gs := by
  induction gs generalizing i with
  | nil => simp [pairsOf, tokensOf]
  | cons g gs ih =>
    rw [List.cons_append, pairsOf, ih, pairsOf, tokensOf, List.length_append, Nat.add_assoc,
      List.append_assoc]

mutual

theorem bounds_of_mem_pairs : ∀ (g : Group) (i : Nat) {j k : Nat}, (j, k) ∈ g.pairs i →
    i ≤ j ∧ j < i + g.tokens.length
  | .token _, _, _, _, mem => by cases mem
  | .parens opener inside closer, i, j, k, mem => by
    rw [length_tokens_parens]
    rcases List.mem_cons.1 mem with same | mem
    · cases same
      omega
    · have bounds := bounds_of_mem_pairsOf inside (i + 1) mem
      omega

theorem bounds_of_mem_pairsOf : ∀ (gs : List Group) (i : Nat) {j k : Nat},
    (j, k) ∈ pairsOf i gs → i ≤ j ∧ j < i + (tokensOf gs).length
  | [], _, _, _, mem => by cases mem
  | g :: gs, i, j, k, mem => by
    rw [tokensOf, List.length_append]
    rcases List.mem_append.1 mem with mem | mem
    · have bounds := bounds_of_mem_pairsOf gs _ mem
      omega
    · have bounds := bounds_of_mem_pairs g i mem
      omega

end

mutual

theorem eq_of_mem_pairs : ∀ (g : Group) (i : Nat) {j k l : Nat}, (j, k) ∈ g.pairs i →
    (j, l) ∈ g.pairs i → k = l
  | .token _, _, _, _, _, mem, _ => by cases mem
  | .parens opener inside closer, i, j, k, l, left, right => by
    rcases List.mem_cons.1 left with first | left <;> rcases List.mem_cons.1 right with last | right
    · cases first
      cases last
      rfl
    · cases first
      have bounds := bounds_of_mem_pairsOf inside _ right
      omega
    · cases last
      have bounds := bounds_of_mem_pairsOf inside _ left
      omega
    · exact eq_of_mem_pairsOf inside _ left right

theorem eq_of_mem_pairsOf : ∀ (gs : List Group) (i : Nat) {j k l : Nat},
    (j, k) ∈ pairsOf i gs → (j, l) ∈ pairsOf i gs → k = l
  | [], _, _, _, _, mem, _ => by cases mem
  | g :: gs, i, j, k, l, left, right => by
    rcases List.mem_append.1 left with left | left <;>
      rcases List.mem_append.1 right with right | right
    · exact eq_of_mem_pairsOf gs _ left right
    · have behind := bounds_of_mem_pairsOf gs _ left
      have front := bounds_of_mem_pairs g i right
      omega
    · have front := bounds_of_mem_pairs g i left
      have behind := bounds_of_mem_pairsOf gs _ right
      omega
    · exact eq_of_mem_pairs g i left right

end

/-- The parentheses of groups that fit together are paired as the groups say. -/
theorem pairs_tokensOf (fits : ∀ g ∈ gs, g.Fits) :
    ByOffset.pairs (tokensOf gs) = .ok (pairsOf 0 gs) := by
  have paired := pair_tokensOf gs 0 [] [] [] fits
  rw [List.append_nil, List.append_nil] at paired
  rw [ByOffset.pairs, paired, pair]

/-- The stack of positions finds the same faults as grouping does. -/
theorem pair_faults (ts : List Token) (i : Nat) (waiting : List (Nat × Token))
    (found : List (Nat × Nat)) (stack : List (Token × List Group)) (done : List Group)
    (same : waiting.map Prod.snd = stack.map Prod.fst) :
    (pair i ts waiting found).map (fun _ => ()) = (gather ts stack done).map fun _ => () := by
  induction ts generalizing i waiting found stack done with
  | nil =>
    cases stack with
    | nil =>
      obtain rfl := List.map_eq_nil_iff.1 same
      rfl
    | cons top stack =>
      obtain ⟨⟨_, opener⟩, rest, rfl, rfl, _⟩ := List.map_eq_cons_iff.1 same
      rfl
  | cons t ts ih =>
    simp only [pair, gather]
    split
    · exact ih _ _ _ _ _ (by simp [same])
    · split
      · cases stack with
        | nil =>
          obtain rfl := List.map_eq_nil_iff.1 same
          rfl
        | cons top stack =>
          obtain ⟨first, rest, rfl, _, outer⟩ := List.map_eq_cons_iff.1 same
          exact ih _ _ _ _ _ outer
      · exact ih _ _ _ _ _ same

theorem pairs_faults (ts : List Token) :
    (ByOffset.pairs ts).map (fun _ => ()) = (ofTokens ts).map fun _ => () :=
  pair_faults ts 0 [] [] [] [] rfl

/-- A walk over tokens that, once it is inside of parentheses, only counts how deep it is. -/
structure CountsDepth {α : Type} (walk : Nat → Nat → List Token → α) : Prop where
  opening : ∀ i depth t ts, t.isOpening = true →
    walk i (depth + 1) (t :: ts) = walk (i + 1) (depth + 2) ts
  closing : ∀ i depth t ts, t.isOpening = false → t.isClosing = true →
    walk i (depth + 2) (t :: ts) = walk (i + 1) (depth + 1) ts
  other : ∀ i depth t ts, t.isOpening = false → t.isClosing = false →
    walk i (depth + 1) (t :: ts) = walk (i + 1) (depth + 1) ts

section Depth

variable {α : Type} {walk : Nat → Nat → List Token → α}

mutual

theorem CountsDepth.tokens (counts : CountsDepth walk) :
    ∀ (g : Group) (i depth : Nat) (rest : List Token), g.Fits →
      walk i (depth + 1) (g.tokens ++ rest) = walk (i + g.tokens.length) (depth + 1) rest
  | .token t, i, depth, rest, fits => by
    cases fits with
    | token noOpener noCloser => exact counts.other i depth t rest noOpener noCloser
  | .parens opener inside closer, i, depth, rest, fits => by
    cases fits with
    | parens opens closes within =>
      have noOpener := Token.noOpener_of_isClosing closes
      have inner := counts.tokensOf inside (i + 1) (depth + 1) (closer :: rest) within
      rw [length_tokens_parens, ← Nat.add_assoc, ← Nat.add_assoc, Group.tokens, List.cons_append,
        List.append_assoc, List.singleton_append, counts.opening _ _ _ _ opens, inner,
        counts.closing _ _ _ _ noOpener closes]

theorem CountsDepth.tokensOf (counts : CountsDepth walk) :
    ∀ (gs : List Group) (i depth : Nat) (rest : List Token), (∀ g ∈ gs, g.Fits) →
      walk i (depth + 1) (Group.tokensOf gs ++ rest) =
        walk (i + (Group.tokensOf gs).length) (depth + 1) rest
  | [], i, depth, rest, fits => by simp [Group.tokensOf]
  | g :: gs, i, depth, rest, fits => by
    rw [List.forall_mem_cons] at fits
    rw [Group.tokensOf, List.append_assoc, counts.tokens g i depth _ fits.1,
      counts.tokensOf gs _ depth rest fits.2, List.length_append, Nat.add_assoc]

end

end Depth

theorem countsDepth_seek : CountsDepth seek where
  opening i depth t ts opens := by rw [seek, if_pos opens]
  closing i depth t ts noOpener closes := by
    simp only [seek, noOpener, closes, Bool.false_eq_true, if_false, if_true, Nat.add_one_ne_zero]
  other i depth t ts noOpener noCloser := by
    simp only [seek, noOpener, noCloser, Bool.false_eq_true, if_false]

/-- The partner of an opening token stands behind the groups inside. -/
theorem matchingParen_eq (front back : List Token) (opens : opener.isOpening = true)
    (closes : closer.isClosing = true) (within : ∀ g ∈ inside, g.Fits) :
    matchingParen (front ++ opener :: (tokensOf inside ++ closer :: back)) front.length =
      pure (front.length + 1 + (tokensOf inside).length) := by
  have noOpener := Token.noOpener_of_isClosing closes
  have inner := countsDepth_seek.tokensOf inside (front.length + 1) 0 (closer :: back) within
  simp only [matchingParen, List.drop_left, seek, opens, if_true, inner, noOpener,
    Bool.false_eq_true, if_false, closes, pure_bind]

/-- The tokens `vs` behind an opening token at `i` begin with the groups inside of it and with its
partner, and the pairs in there are among the given ones. -/
structure Encloses (i : Nat) (vs : List Token) (found : List (Nat × Nat)) (inside : List Group)
    (closer : Token) (back : List Token) : Prop where
  place : vs = tokensOf inside ++ closer :: back
  closes : closer.isClosing = true
  within : ∀ g ∈ inside, g.Fits
  paired : (i, i + 1 + (tokensOf inside).length) ∈ found
  nested : pairsOf (i + 1) inside ⊆ found

theorem Encloses.append {i : Nat} {vs back : List Token} {found : List (Nat × Nat)}
    (encloses : Encloses i vs found inside closer back) (ws : List Token) :
    Encloses i (vs ++ ws) found inside closer (back ++ ws) :=
  { encloses with place := by simp [encloses.place] }

theorem Encloses.mono {i : Nat} {vs back : List Token} {found found' : List (Nat × Nat)}
    (encloses : Encloses i vs found inside closer back) (sub : found ⊆ found') :
    Encloses i vs found' inside closer back :=
  { encloses with
    paired := sub encloses.paired
    nested := fun _ mem => sub (encloses.nested mem) }

mutual

theorem exists_encloses_tokens : ∀ (g : Group) (i : Nat) (us vs : List Token), g.Fits →
    opener.isOpening = true → g.tokens = us ++ opener :: vs →
      ∃ inside closer back, Encloses (i + us.length) vs (g.pairs i) inside closer back
  | .token t, i, us, vs, fits, opens, whole => by
    cases fits with
    | token noOpener noCloser =>
      cases us with
      | nil =>
        cases whole
        rw [noOpener] at opens
        cases opens
      | cons u us => simp [tokens] at whole
  | .parens first inside closer, i, us, vs, fits, opens, whole => by
    cases fits with
    | parens _ closes within =>
      have noPartner : opener ≠ closer := by
        rintro rfl
        rw [Token.noOpener_of_isClosing closes] at opens
        cases opens
      cases us with
      | nil =>
        cases whole
        exact ⟨inside, closer, [], rfl, closes, within, List.mem_cons_self,
          List.subset_cons_self _ _⟩
      | cons u us =>
        obtain ⟨rfl, same⟩ := List.cons.inj whole
        rcases List.append_eq_append_iff.1 same with ⟨more, rfl, last⟩ | ⟨more, inner, last⟩
        · cases more with
          | nil => exact absurd (List.head_eq_of_cons_eq last).symm noPartner
          | cons m more => simp at last
        · cases more with
          | nil => exact absurd (List.head_eq_of_cons_eq last) noPartner
          | cons m more =>
            obtain ⟨rfl, rfl⟩ := List.cons.inj last
            obtain ⟨deeper, partner, back, encloses⟩ :=
              exists_encloses_tokensOf inside (i + 1) us more within opens inner
            rw [List.length_cons, Nat.add_comm us.length, ← Nat.add_assoc]
            exact ⟨deeper, partner, _,
              (encloses.append [closer]).mono (List.subset_cons_self _ _)⟩

/-- Every opening token among groups that fit together has a partner among them. -/
theorem exists_encloses_tokensOf : ∀ (gs : List Group) (i : Nat) (us vs : List Token),
    (∀ g ∈ gs, g.Fits) → opener.isOpening = true → tokensOf gs = us ++ opener :: vs →
      ∃ inside closer back, Encloses (i + us.length) vs (pairsOf i gs) inside closer back
  | [], i, us, vs, fits, opens, whole => by simp [tokensOf] at whole
  | g :: gs, i, us, vs, fits, opens, whole => by
    rw [List.forall_mem_cons] at fits
    have later (us : List Token) (behind : tokensOf gs = us ++ opener :: vs) :
        ∃ inside closer back, Encloses (i + (g.tokens ++ us).length) vs (pairsOf i (g :: gs))
          inside closer back := by
      obtain ⟨inside, partner, back, encloses⟩ :=
        exists_encloses_tokensOf gs (i + g.tokens.length) us vs fits.2 opens behind
      rw [Nat.add_assoc, ← List.length_append] at encloses
      exact ⟨inside, partner, back, encloses.mono (List.subset_append_left _ _)⟩
    rw [tokensOf] at whole
    rcases List.append_eq_append_iff.1 whole with ⟨more, rfl, behind⟩ | ⟨more, front, last⟩
    · exact later more behind
    · cases more with
      | nil =>
        rw [List.append_nil] at front
        rw [← front, ← List.append_nil g.tokens]
        exact later [] last.symm
      | cons m more =>
        obtain ⟨rfl, rfl⟩ := List.cons.inj last
        obtain ⟨inside, partner, back, encloses⟩ :=
          exists_encloses_tokens g i us more fits.1 opens front
        exact ⟨inside, partner, _,
          (encloses.append (tokensOf gs)).mono (List.subset_append_right _ _)⟩

end

end Positions

end Group

end MediaQuery
