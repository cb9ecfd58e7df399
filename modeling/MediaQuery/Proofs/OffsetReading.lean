import MediaQuery.Proofs.Lists
import MediaQuery.Proofs.OffsetLexer
import MediaQuery.Proofs.OffsetParser
import MediaQuery.Proofs.Placement

set_option autoImplicit false

/- Reading by positions is reading piece by piece. The position of the parser always stands between
two groups of its tokens, so that the pieces behind it are what is left to read. Where pieces are
read as something, tokens are, and the position moves on with the pieces; where pieces lead to an
error, tokens lead to the same one. -/
namespace MediaQuery

namespace Access

variable {α β γ δ : Type} {R : α → β → Prop} {S : γ → δ → Prop}

/-- Access that does not go astray: it gives the same error, or a result that is related. -/
inductive Agrees (R : α → β → Prop) : Access α → Except ParseError β → Prop where
  | ok {a : α} {b : β} (related : R a b) : Agrees R (pure a) (.ok b)
  | error (e : ParseError) : Agrees R (throw e) (.error e)

theorem Agrees.bind {x : Access α} {y : Except ParseError β} {next : α → Access γ}
    {after : β → Except ParseError δ} (agrees : Agrees R x y)
    (further : ∀ a b, R a b → Agrees S (next a) (after b)) :
    Agrees S (x >>= next) (y >>= after) := by
  cases agrees with
  | ok related => exact further _ _ related
  | error e => exact .error e

theorem Agrees.exists_ok {x : Access α} {b : β} (agrees : Agrees R x (.ok b)) :
    ∃ a, x = pure a ∧ R a b := by
  cases agrees with
  | ok related => exact ⟨_, rfl, related⟩

theorem Agrees.exists_of_pure {a : α} {y : Except ParseError β} (agrees : Agrees R (pure a) y) :
    ∃ b, y = .ok b ∧ R a b := by
  generalize found : (pure a : Access α) = x at agrees
  cases agrees with
  | ok related => cases found; exact ⟨_, rfl, related⟩
  | error e => cases found

theorem Agrees.eq_throw {x : Access α} {e : ParseError} (agrees : Agrees R x (.error e)) :
    x = throw e := by
  cases agrees with
  | error => rfl

theorem Agrees.eq {x : Access α} {y : Except ParseError α} (agrees : Agrees Eq x y) :
    x = ofExcept y := by
  cases agrees with
  | ok related => rw [related]; rfl
  | error e => rfl

end Access

namespace Group

def first : Group → Token
  | .token t => t
  | .parens opener _ _ => opener

def last : Group → Token
  | .token t => t
  | .parens _ _ closer => closer

theorem head?_tokensOf (gs : List Group) : (tokensOf gs).head? = gs.head?.map first := by
  cases gs with
  | nil => rfl
  | cons g gs => cases g <;> rfl

theorem getLast?_tokensOf (gs : List Group) : (tokensOf gs).getLast? = gs.getLast?.map last := by
  induction gs using List.reverseRecOn with
  | nil => rfl
  | append_singleton gs g _ =>
    have ends : g.tokens.getLast? = some g.last := by
      cases g with
      | token t => rfl
      | parens opener inside closer =>
        rw [tokens, ← List.cons_append, List.getLast?_concat]
        rfl
    rw [tokensOf_append, tokensOf, tokensOf, List.append_nil, List.getLast?_append, ends,
      List.getLast?_concat]
    rfl

end Group

namespace Condition

variable {stop stop' : Nat} {allowOr : Bool}

/-- Where faults are reported makes no difference to what is read. -/
theorem following_of_stop : ∀ (ps : List Piece) (joiner : Option Connective)
    (found : Option Connective × List InParens × List Piece),
    following stop allowOr joiner ps = .ok found → following stop' allowOr joiner ps = .ok found
  | [], joiner, found, read => by
    rw [following] at read ⊢
    exact read
  | [p], joiner, found, read => by
    rw [following.eq_def] at read ⊢
    dsimp only at read ⊢
    split at read
    · exact read
    · split at read
      · cases read
      · split at read <;> cases read
  | p :: q :: ps, joiner, found, read => by
    rw [following.eq_def] at read ⊢
    dsimp only at read ⊢
    split at read
    · exact read
    · split at read
      · cases read
      · split at read
        · cases read
        · rename_i word _ noOr noMix
          cases q with
          | token t => cases read
          | item a b x =>
            obtain ⟨⟨joiner, xs, rest⟩, further, same⟩ := bind_eq_ok.1 read
            rw [if_neg noOr, if_neg noMix]
            exact bind_eq_ok.2 ⟨_, following_of_stop ps _ _ further, same⟩

theorem ofPieces_of_stop {ps : List Piece} {found : Condition × List Piece}
    (read : ofPieces stop allowOr ps = .ok found) : ofPieces stop' allowOr ps = .ok found := by
  have first {ps : List Piece} {found : InParens × List Piece}
      (read : InParens.ofPieces stop ps = .ok found) :
      InParens.ofPieces stop' ps = .ok found := by
    obtain ⟨a, b, rfl⟩ := InParens.ofPieces_eq_ok.1 read
    rfl
  cases ps with
  | nil => cases read
  | cons p ps =>
    rw [ofPieces.eq_def] at read ⊢
    dsimp only at read ⊢
    split at read
    · obtain ⟨⟨x, rest⟩, item, same⟩ := bind_eq_ok.1 read
      rw [if_pos ‹_›]
      exact bind_eq_ok.2 ⟨_, first item, same⟩
    · obtain ⟨⟨x, rest⟩, item, read⟩ := bind_eq_ok.1 read
      obtain ⟨⟨joiner, xs, rest⟩, further, same⟩ := bind_eq_ok.1 read
      rw [if_neg ‹_›]
      exact bind_eq_ok.2 ⟨_, first item, bind_eq_ok.2 ⟨_, following_of_stop _ _ _ further, same⟩⟩

theorem ofAllPieces?_of_ok {ps rest : List Piece} {c : Condition}
    (read : ofPieces stop true ps = .ok (c, rest)) :
    ofAllPieces? ps = if rest = [] then some c else none := by
  rw [ofAllPieces?, ofPieces_of_stop read]
  cases rest <;> rfl

theorem ofAllPieces?_of_error {ps : List Piece} {e : ParseError}
    (refused : ofPieces stop true ps = .error e) : ofAllPieces? ps = none := by
  rw [Option.eq_none_iff_forall_ne_some]
  intro c whole
  have read : ofPieces stop true ps = .ok (c, []) :=
    ofPieces_of_stop (ofAllPieces?_eq_some.1 whole)
  rw [refused] at read
  cases read

end Condition

namespace ByOffset

open Access

section Standing

variable {source : List Char} {gs : List Group} {pos next : Nat} {ps qs : List Piece}

/-- A position between groups, and the pieces from there on. -/
def Stands (source : List Char) (gs : List Group) (pos : Nat) (ps : List Piece) : Prop :=
  ∃ front back, gs = front ++ back ∧ pos = (Group.tokensOf front).length ∧
    ps = Group.pieces source back

namespace Stands

theorem start (source : List Char) (gs : List Group) :
    Stands source gs 0 (Group.pieces source gs) := ⟨[], gs, rfl, rfl, rfl⟩

theorem getElem? (stands : Stands source gs pos ps) : ∃ back, (∀ g ∈ back, g ∈ gs) ∧
    ps = Group.pieces source back ∧ (Group.tokensOf gs)[pos]? = back.head?.map Group.first := by
  obtain ⟨front, back, rfl, rfl, rfl⟩ := stands
  refine ⟨back, fun g mem => List.mem_append_right _ mem, rfl, ?_⟩
  rw [Group.tokensOf_append, List.getElem?_append_right (Nat.le_refl _), Nat.sub_self,
    ← Group.head?_tokensOf, List.head?_eq_getElem?]

theorem start? (stands : Stands source gs pos ps) :
    (Group.tokensOf gs)[pos]?.map Token.start = ps.head?.map Piece.start := by
  obtain ⟨back, -, rfl, found⟩ := stands.getElem?
  rw [found]
  cases back with
  | nil => rfl
  | cons g back => cases g <;> rfl

theorem isOpening? (fits : ∀ g ∈ gs, g.Fits) (stands : Stands source gs pos ps) :
    (Group.tokensOf gs)[pos]?.any Token.isOpening = (ps.head?.map Piece.isItem).getD false := by
  obtain ⟨back, sub, rfl, found⟩ := stands.getElem?
  rw [found, ← Group.head_isOpening source fun g mem => fits g (sub g mem), Group.head?_tokensOf]

theorem ident? (fits : ∀ g ∈ gs, g.Fits) (stands : Stands source gs pos ps) :
    identAt? (Group.tokensOf gs) pos = ps.head?.bind Piece.ident? := by
  obtain ⟨back, sub, rfl, found⟩ := stands.getElem?
  rw [identAt?, found]
  cases back with
  | nil => rfl
  | cons g back =>
    cases fits g (sub g List.mem_cons_self) with
    | token noOpener noCloser => rfl
    | @parens opener closer inside opens closes within =>
      have noName : opener.ident? = none := by
        cases named : opener.ident? with
        | none => rfl
        | some name =>
          rw [(Token.noParens_of_ident? named).1] at opens
          cases opens
      exact noName

theorem le_length (stands : Stands source gs pos ps) : pos ≤ (Group.tokensOf gs).length := by
  obtain ⟨front, back, rfl, rfl, rfl⟩ := stands
  rw [Group.tokensOf_append, List.length_append]
  exact Nat.le_add_right _ _

theorem at_end (stands : Stands source gs pos ps) :
    (Group.tokensOf gs).length ≤ pos ↔ ps = [] := by
  obtain ⟨front, back, rfl, rfl, rfl⟩ := stands
  rw [Group.tokensOf_append, List.length_append]
  cases back with
  | nil => simp [Group.tokensOf, Group.pieces]
  | cons g back =>
    have positive := g.length_tokens_pos
    simp only [Group.tokensOf, List.length_append, Group.pieces, reduceCtorEq, iff_false]
    omega

theorem lt (stands : Stands source gs pos ps) (later : Stands source gs next qs)
    (shorter : qs.length < ps.length) : pos < next := by
  obtain ⟨front, back, rfl, rfl, rfl⟩ := stands
  obtain ⟨front', back', same, rfl, rfl⟩ := later
  rw [Group.pieces_eq_map, Group.pieces_eq_map, List.length_map, List.length_map] at shorter
  rcases List.append_eq_append_iff.1 same with ⟨more, rfl, rfl⟩ | ⟨more, rfl, rfl⟩
  · cases more with
    | nil => exact absurd shorter (Nat.lt_irrefl _)
    | cons g more =>
      have positive := g.length_tokens_pos
      simp only [Group.tokensOf_append, Group.tokensOf, List.length_append]
      omega
  · rw [List.length_append] at shorter
    omega

theorem token {t : Token} (stands : Stands source gs pos (.token t :: ps)) :
    (Group.tokensOf gs)[pos]? = some t ∧ Stands source gs (pos + 1) ps := by
  obtain ⟨front, back, rfl, rfl, made⟩ := stands
  cases back with
  | nil => cases made
  | cons g back =>
    obtain ⟨first, rest⟩ := List.cons.inj made
    obtain rfl := Group.eq_token_of_piece first.symm
    exact ⟨by simp [Group.tokensOf_append, Group.tokensOf, Group.tokens],
      front ++ [.token t], back, by simp,
      by simp [Group.tokensOf_append, Group.tokensOf, Group.tokens], rest⟩

theorem offset (stands : Stands source gs pos ps) :
    offset source (Group.tokensOf gs) pos =
      Piece.offset (Piece.lastStop (Text.byteSize source) (Group.pieces source gs)) ps := by
  have first := stands.start?
  rw [ByOffset.offset, first]
  cases ps with
  | cons p ps => rfl
  | nil =>
    have last : (Group.tokensOf gs).getLast?.map Token.stop =
        (Group.pieces source gs).getLast?.map Piece.stop := by
      rw [Group.getLast?_tokensOf, Group.pieces_eq_map, List.getLast?_map, Option.map_map,
        Option.map_map]
      congr 1
      funext g
      cases g <;> rfl
    rw [last]
    rfl

end Stands

end Standing

section Conditions

variable {source : List Char} {gs : List Group} {pos : Nat} {ps : List Piece} {α : Type}

/-- The end of some groups, where a fault behind them is reported. -/
def lastStop (source : List Char) (gs : List Group) : Nat :=
  Piece.lastStop (Text.byteSize source) (Group.pieces source gs)

/-- What is read is the same, and so is what is left. -/
def Same (source : List Char) (gs : List Group) (found : α × Nat) (read : α × List Piece) : Prop :=
  found.1 = read.1 ∧ Stands source gs found.2 read.2

theorem fault_agrees {β : Type} {R : α → β → Prop} (stands : Stands source gs pos ps)
    (f : ParseFault) : Agrees R (fault source (Group.tokensOf gs) pos f)
      (.error ⟨f, Piece.offset (lastStop source gs) ps⟩) := by
  rw [fault, stands.offset]
  exact .error _

theorem exists_token_of_ident? {p : Piece} {name : String} (named : p.ident? = some name) :
    ∃ t, p = .token t := by
  cases p with
  | token t => exact ⟨t, rfl⟩
  | item a b x => cases named

theorem following_agrees (fits : ∀ g ∈ gs, g.Fits) {item : Nat → Access (InParens × Nat)}
    (items : ∀ pos ps, Stands source gs pos ps →
      Agrees (Same source gs) (item pos) (InParens.ofPieces (lastStop source gs) ps))
    {allowOr : Bool} (joiner : Option Connective) (stands : Stands source gs pos ps) :
    Agrees (fun found read => found.1 = read.1 ∧ Same source gs found.2 read.2)
      (following source (Group.tokensOf gs) item allowOr joiner pos)
      (Condition.following (lastStop source gs) allowOr joiner ps) := by
  induction length : ps.length using Nat.strongRecOn generalizing pos ps joiner with
  | ind size ih =>
    rw [following, stands.ident? fits]
    cases ps with
    | nil => exact .ok ⟨rfl, rfl, stands⟩
    | cons p rest =>
      rw [Condition.following.eq_def, List.head?_cons, Option.bind_some]
      dsimp only
      cases spelt : p.ident?.bind Connective.ofName? with
      | none => exact .ok ⟨rfl, rfl, stands⟩
      | some word =>
        obtain ⟨name, named, _⟩ := Option.bind_eq_some_iff.1 spelt
        obtain ⟨t, rfl⟩ := exists_token_of_ident? named
        have behind := stands.token.2
        have first := items _ _ behind
        dsimp only
        split
        · exact fault_agrees stands .orAfterType
        · split
          · exact fault_agrees stands .mixedConnectives
          · split
            · rename_i a b x rest
              have shorter : rest.length < (Piece.token t :: Piece.item a b x :: rest).length := by
                simp only [List.length_cons]
                omega
              obtain ⟨⟨_, next⟩, found, rfl, later⟩ := first.exists_ok
              have advances := stands.lt later shorter
              rw [found]
              simp only [pure_bind, advances, later.le_length, and_self, if_true]
              refine (ih rest.length (length ▸ shorter) (some word) later rfl).bind ?_
              rintro ⟨joiner, xs, stop⟩ ⟨_, _, rest⟩ ⟨rfl, rfl, further⟩
              exact .ok ⟨rfl, rfl, further⟩
            · rename_i noItem
              have refused : InParens.ofPieces (lastStop source gs) rest =
                  .error ⟨.expectedOpen, Piece.offset (lastStop source gs) rest⟩ := by
                unfold InParens.ofPieces
                split
                · exact absurd rfl (noItem _ _ _ _)
                · rfl
              rw [refused] at first
              rw [first.eq_throw]
              exact .error _

theorem several_agrees (fits : ∀ g ∈ gs, g.Fits) {item : Nat → Access (InParens × Nat)}
    (items : ∀ pos ps, Stands source gs pos ps →
      Agrees (Same source gs) (item pos) (InParens.ofPieces (lastStop source gs) ps))
    (allowOr : Bool) (stands : Stands source gs pos ps) :
    Agrees (Same source gs)
      (do
        let (x, next) ← item pos
        let (joiner, xs, stop) ←
          following source (Group.tokensOf gs) item allowOr none next
        return (Connective.join joiner (x :: xs), stop))
      (do
        let (x, rest) ← InParens.ofPieces (lastStop source gs) ps
        let (joiner, xs, rest) ← Condition.following (lastStop source gs) allowOr none rest
        return (Connective.join joiner (x :: xs), rest)) := by
  refine (items _ _ stands).bind ?_
  rintro ⟨x, next⟩ ⟨_, rest⟩ ⟨rfl, behind⟩
  refine (following_agrees fits items none behind).bind ?_
  rintro ⟨joiner, xs, stop⟩ ⟨_, _, rest⟩ ⟨rfl, rfl, further⟩
  exact .ok ⟨rfl, further⟩

theorem condition_agrees (fits : ∀ g ∈ gs, g.Fits) {item : Nat → Access (InParens × Nat)}
    (items : ∀ pos ps, Stands source gs pos ps →
      Agrees (Same source gs) (item pos) (InParens.ofPieces (lastStop source gs) ps))
    (allowOr : Bool) (stands : Stands source gs pos ps) :
    Agrees (Same source gs) (condition source (Group.tokensOf gs) item allowOr pos)
      (Condition.ofPieces (lastStop source gs) allowOr ps) := by
  have several := several_agrees fits items allowOr stands
  rw [condition, stands.ident? fits]
  cases ps with
  | nil => exact several
  | cons p rest =>
    rw [Condition.ofPieces.eq_def, List.head?_cons, Option.bind_some]
    dsimp only
    split
    · rename_i word
      obtain ⟨t, rfl⟩ := exists_token_of_ident? word
      refine (items _ _ stands.token.2).bind ?_
      rintro ⟨x, next⟩ ⟨_, rest⟩ ⟨rfl, behind⟩
      exact .ok ⟨rfl, behind⟩
    · exact several

end Conditions

section Items

variable {source : List Char} {gs : List Group} {ts us : List Token} {pos : Nat} {ps : List Piece}

/-- The text between an opening token and a closing token behind it can be sliced. -/
def Sliced (source : List Char) (ts : List Token) : Prop :=
  ∀ opener inside closer, opener :: (inside ++ [closer]) <:+: ts → closer.isClosing = true →
    Text.slice? source opener.start closer.stop =
      some (Text.slice source opener.start closer.stop)

theorem Sliced.sub (sliced : Sliced source ts) (sub : us <:+: ts) : Sliced source us :=
  fun opener inside closer inner => sliced opener inside closer (inner.trans sub)

theorem tokens?_bind_ofTokens? (fits : ∀ g ∈ gs, g.Fits) :
    (Piece.tokens? (Group.pieces source gs)).bind Feature.ofTokens? =
      Feature.ofTokens? (Group.tokensOf gs) := by
  ext f
  rw [Group.test_eq_some fits, Feature.ofTokens?_eq_some]

theorem ofInside_eq {opener closer : Token} {inside : List Group}
    {read : Access (Condition × Nat)} (opens : opener.kind = .opening)
    (within : ∀ g ∈ inside, g.Fits)
    (agrees : Agrees (Same source inside) read
      (Condition.ofPieces (lastStop source inside) true (Group.pieces source inside))) :
    ofInside (Group.tokensOf inside)
        (.enclosed (String.ofList (Text.slice source opener.start closer.stop))) read =
      pure (InParens.ofInside source opener closer (Group.pieces source inside)) := by
  have unread (none : Condition.ofAllPieces? (Group.pieces source inside) = none) :
      (do
        let found ← test (Group.tokensOf inside)
        return (found.map .feature).getD
          (.enclosed (String.ofList (Text.slice source opener.start closer.stop)))) =
      (pure (InParens.ofInside source opener closer (Group.pieces source inside)) :
        Access InParens) := by
    rw [test_eq, pure_bind, InParens.ofInside, opens]
    simp only [none, tokens?_bind_ofTokens? within]
    cases Feature.ofTokens? (Group.tokensOf inside) <;> rfl
  cases plain : Condition.ofPieces (lastStop source inside) true (Group.pieces source inside) with
  | error e =>
    rw [plain] at agrees
    rw [agrees.eq_throw]
    exact unread (Condition.ofAllPieces?_of_error plain)
  | ok found =>
    obtain ⟨c, rest⟩ := found
    rw [plain] at agrees
    obtain ⟨⟨_, stop⟩, rfl, rfl, stands⟩ := agrees.exists_ok
    have whole := Condition.ofAllPieces?_of_ok plain
    have run (found : Condition × Nat) : find (pure found : Access _).run = pure (.ok found) := rfl
    rw [ofInside, run, pure_bind]
    by_cases ended : rest = []
    · rw [if_pos ended] at whole
      simp only [if_pos (stands.at_end.2 ended)]
      rw [InParens.ofInside, opens]
      simp only [whole]
    · rw [if_neg ended] at whole
      simp only [if_neg (mt stands.at_end.1 ended)]
      exact unread whole

/-- Parentheses are read on behind their partner, as the piece that they make. -/
theorem inParens_parens {us vs : List Token} {inside : List Group} {opener closer : Token}
    (sliced : Sliced source (us ++ opener :: (Group.tokensOf inside ++ closer :: vs)))
    (opens : opener.isOpening = true) (closes : closer.isClosing = true)
    (within : ∀ g ∈ inside, g.Fits)
    (inner : ∀ pos ps, Stands source inside pos ps →
      Agrees (Same source inside) (inParens source (Group.tokensOf inside) pos)
        (InParens.ofPieces (lastStop source inside) ps)) :
    inParens source (us ++ opener :: (Group.tokensOf inside ++ closer :: vs)) us.length =
      pure (InParens.ofInside source opener closer (Group.pieces source inside),
        us.length + 1 + (Group.tokensOf inside).length + 1) := by
  obtain ⟨here, -⟩ := parts_at us (Group.tokensOf inside ++ closer :: vs) opener
  obtain ⟨there, between, -⟩ := parts_at_second us (Group.tokensOf inside) vs opener closer
  have partner := Group.matchingParen_eq us vs opens closes within
  have text := sliced opener (Group.tokensOf inside) closer ⟨us, vs, by simp⟩ closes
  have shorter : (Group.tokensOf inside).length <
      (us ++ opener :: (Group.tokensOf inside ++ closer :: vs)).length := by
    simp only [List.length_append, List.length_cons]
    omega
  rw [inParens]
  simp only [here, opens, Bool.true_eq_false, if_false, partner, pure_bind, there, find_some, text]
  rcases Token.kind_of_isOpening opens with kind | ⟨name, kind⟩
  · have read := condition_agrees within inner true (Stands.start source inside)
    simp only [kind, between, pure_bind, shorter, if_true, ofInside_eq kind within read]
  · simp only [kind, InParens.ofInside]

theorem inParens_fault (noOpener : ts[pos]?.any Token.isOpening = false) :
    inParens source ts pos = fault source ts pos .expectedOpen := by
  rw [inParens]
  cases found : ts[pos]? with
  | none => rfl
  | some t =>
    rw [found, Option.any_some] at noOpener
    exact if_pos noOpener

/-- An item is read at its opening token as it is read from its piece. -/
theorem inParens_agrees (sliced : Sliced source (Group.tokensOf gs)) (fits : ∀ g ∈ gs, g.Fits)
    (stands : Stands source gs pos ps) :
    Agrees (Same source gs) (inParens source (Group.tokensOf gs) pos)
      (InParens.ofPieces (lastStop source gs) ps) := by
  induction length : (Group.tokensOf gs).length using Nat.strongRecOn generalizing gs pos ps with
  | ind size ih =>
    have refused (noItem : (ps.head?.map Piece.isItem).getD false = false) :
        Agrees (Same source gs) (inParens source (Group.tokensOf gs) pos)
          (.error ⟨.expectedOpen, Piece.offset (lastStop source gs) ps⟩) := by
      rw [inParens_fault ((stands.isOpening? fits).trans noItem)]
      exact fault_agrees stands .expectedOpen
    obtain ⟨front, back, rfl, rfl, rfl⟩ := stands
    cases back with
    | nil => exact refused rfl
    | cons g back =>
      cases fits g (by simp) with
      | token noOpener noCloser => exact refused rfl
      | @parens opener closer inside opens closes within =>
        have tokens : Group.tokensOf (front ++ .parens opener inside closer :: back) =
            Group.tokensOf front ++
              opener :: (Group.tokensOf inside ++ closer :: Group.tokensOf back) := by
          simp [Group.tokensOf_append, Group.tokensOf, Group.tokens]
        rw [tokens] at sliced length ⊢
        have part : Group.tokensOf inside <:+: Group.tokensOf front ++
            opener :: (Group.tokensOf inside ++ closer :: Group.tokensOf back) :=
          ⟨Group.tokensOf front ++ [opener], closer :: Group.tokensOf back, by simp⟩
        have shorter : (Group.tokensOf inside).length < size := by
          rw [← length]
          simp only [List.length_append, List.length_cons]
          omega
        rw [inParens_parens sliced opens closes within fun pos ps stands =>
          ih _ shorter (sliced.sub part) within stands rfl]
        rw [Group.pieces, Group.piece]
        refine .ok ⟨rfl, front ++ [.parens opener inside closer], back, by simp, ?_, rfl⟩
        simp only [Group.tokensOf_append, Group.tokensOf, Group.tokens, List.length_append,
          List.length_cons, List.length_nil]
        omega

end Items

section Queries

variable {source : List Char} {gs : List Group} {pos : Nat} {ps : List Piece}

theorem typed_agrees (sliced : Sliced source (Group.tokensOf gs)) (fits : ∀ g ∈ gs, g.Fits)
    (qualifier : Option Qualifier) (stands : Stands source gs pos ps) :
    Agrees (Same source gs) (typed source (Group.tokensOf gs) qualifier pos)
      (Query.ofTyped (lastStop source gs) qualifier ps) := by
  rw [typed, stands.ident? fits]
  cases ps with
  | nil => exact fault_agrees stands .expectedType
  | cons p rest =>
    rw [Query.ofTyped.eq_def, List.head?_cons, Option.bind_some]
    dsimp only
    cases named : p.ident? with
    | none => exact fault_agrees stands .expectedType
    | some name =>
      obtain ⟨t, rfl⟩ := exists_token_of_ident? named
      have behind := stands.token.2
      dsimp only
      split
      · exact fault_agrees stands (.reservedType name)
      · rw [behind.ident? fits]
        cases rest with
        | nil =>
          rw [if_pos (behind.at_end.2 rfl)]
          exact .ok ⟨rfl, behind⟩
        | cons w rest =>
          rw [if_neg (mt behind.at_end.1 (List.cons_ne_nil _ _)), List.head?_cons, Option.bind_some]
          dsimp only
          split
          · rename_i joined
            obtain ⟨u, rfl⟩ := exists_token_of_ident? joined
            refine (condition_agrees fits (fun _ _ => inParens_agrees sliced fits) false
              behind.token.2).bind ?_
            rintro ⟨c, stop⟩ ⟨_, rest⟩ ⟨rfl, further⟩
            exact .ok ⟨rfl, further⟩
          · exact fault_agrees behind .expectedAnd

theorem untyped_agrees (sliced : Sliced source (Group.tokensOf gs)) (fits : ∀ g ∈ gs, g.Fits)
    (stands : Stands source gs pos ps) :
    Agrees (Same source gs) (untyped source (Group.tokensOf gs) pos)
      (Query.ofUntyped (lastStop source gs) ps) := by
  refine (condition_agrees fits (fun _ _ => inParens_agrees sliced fits) true stands).bind ?_
  rintro ⟨c, stop⟩ ⟨_, rest⟩ ⟨rfl, further⟩
  exact .ok ⟨rfl, further⟩

theorem query_agrees (sliced : Sliced source (Group.tokensOf gs)) (fits : ∀ g ∈ gs, g.Fits)
    (stands : Stands source gs pos ps) :
    Agrees (Same source gs) (query source (Group.tokensOf gs) pos)
      (Query.ofPieces (lastStop source gs) ps) := by
  have opening := stands.isOpening? fits
  cases ps with
  | nil =>
    have none : (Group.tokensOf gs)[pos]? = none := Option.map_eq_none_iff.1 stands.start?
    rw [query, none]
    exact fault_agrees stands .expectedTypeOrCondition
  | cons p rest =>
    cases p with
    | item a b x =>
      obtain ⟨t, here, opens⟩ := (Option.any_eq_true _ _).1 opening
      rw [query, here]
      dsimp only
      rw [if_pos opens]
      exact untyped_agrees sliced fits stands
    | token t =>
      obtain ⟨here, behind⟩ := stands.token
      have next := behind.isOpening? fits
      rw [here] at opening
      change t.isOpening = false at opening
      rw [query, here]
      dsimp only
      rw [if_neg (by rw [opening]; exact Bool.false_ne_true), Query.ofPieces.eq_def]
      dsimp only
      cases named : t.ident? with
      | none => exact fault_agrees stands .expectedTypeOrCondition
      | some word =>
        dsimp only
        rw [next]
        split
        · exact untyped_agrees sliced fits stands
        · cases Qualifier.ofName? word with
          | some qualifier => exact typed_agrees sliced fits (some qualifier) behind
          | none => exact typed_agrees sliced fits none stands

theorem expectEnd_agrees (stands : Stands source gs pos ps) :
    Agrees Eq (expectEnd source (Group.tokensOf gs) pos)
      (Piece.expectEnd (lastStop source gs) ps) := by
  rw [expectEnd]
  cases ps with
  | nil =>
    rw [if_pos (stands.at_end.2 rfl)]
    exact .ok rfl
  | cons p ps =>
    rw [if_neg (mt stands.at_end.1 (List.cons_ne_nil _ _))]
    exact fault_agrees stands .trailingInput

theorem wholeQuery_agrees (sliced : Sliced source (Group.tokensOf gs)) (fits : ∀ g ∈ gs, g.Fits) :
    Agrees Eq (wholeQuery source (Group.tokensOf gs))
      (Query.ofAllPieces (lastStop source gs) (Group.pieces source gs)) := by
  refine (query_agrees sliced fits (Stands.start source gs)).bind ?_
  rintro ⟨q, stop⟩ ⟨_, rest⟩ ⟨rfl, behind⟩
  exact (expectEnd_agrees behind).bind fun _ _ _ => .ok rfl

theorem wholeCondition_agrees (sliced : Sliced source (Group.tokensOf gs))
    (fits : ∀ g ∈ gs, g.Fits) :
    Agrees Eq (wholeCondition source (Group.tokensOf gs))
      (do
        let (c, rest) ← Condition.ofPieces (lastStop source gs) true (Group.pieces source gs)
        Piece.expectEnd (lastStop source gs) rest
        return c) := by
  rw [wholeCondition, Group.pairs_tokensOf fits, ofExcept_ok, pure_bind]
  refine (condition_agrees fits (fun _ _ => inParens_agrees sliced fits) true
    (Stands.start source gs)).bind ?_
  rintro ⟨c, stop⟩ ⟨_, rest⟩ ⟨rfl, behind⟩
  exact (expectEnd_agrees behind).bind fun _ _ _ => .ok rfl

end Queries

end ByOffset

end MediaQuery
