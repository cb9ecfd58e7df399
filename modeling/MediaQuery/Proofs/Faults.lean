import MediaQuery.Proofs.Lists
import MediaQuery.Proofs.Placement

set_option autoImplicit false

namespace MediaQuery

/-- A result of which `Q` holds, or an error at a place of which `P` holds. -/
inductive ErrorsAt {α : Type} (P : Nat → Prop) (Q : α → Prop) : Except ParseError α → Prop where
  | ok {a : α} (found : Q a) : ErrorsAt P Q (.ok a)
  | error {e : ParseError} (place : P e.position) : ErrorsAt P Q (.error e)

namespace ErrorsAt

variable {α β : Type} {P : Nat → Prop} {Q R : α → Prop} {S : β → Prop} {x : Except ParseError α}

theorem bind {next : α → Except ParseError β} (first : ErrorsAt P Q x)
    (further : ∀ a, Q a → ErrorsAt P S (next a)) : ErrorsAt P S (x >>= next) := by
  cases first with
  | ok found => exact further _ found
  | error place => exact .error place

theorem imp (places : ErrorsAt P Q x) (weaker : ∀ a, Q a → R a) : ErrorsAt P R x := by
  cases places with
  | ok found => exact .ok (weaker _ found)
  | error place => exact .error place

theorem result (places : ErrorsAt P Q x) : ErrorsAt P (fun a => x = .ok a) x := by
  cases places with
  | ok => exact .ok rfl
  | error place => exact .error place

theorem place {e : ParseError} (places : ErrorsAt P Q x) (refused : x = .error e) :
    P e.position := by
  cases places with
  | ok => cases refused
  | error place => cases refused; exact place

theorem mapM {f : α → Except ParseError β} {xs : List α}
    (each : ∀ a ∈ xs, ErrorsAt P (fun _ => True) (f a)) :
    ErrorsAt P (fun _ => True) (xs.mapM f) := by
  induction xs with
  | nil => exact .ok trivial
  | cons a xs ih =>
    rw [List.forall_mem_cons] at each
    rw [List.mapM_cons]
    exact each.1.bind fun _ _ => (ih each.2).bind fun _ _ => .ok trivial

end ErrorsAt

section Texts

open Text

theorem Text.isOffset_zero (cs : List Char) : IsOffset cs 0 := ⟨[], cs, rfl, rfl⟩

theorem Text.isOffset_byteSize (cs : List Char) : IsOffset cs (byteSize cs) :=
  ⟨cs, [], (List.append_nil cs).symm, rfl⟩

/-- A text that cannot be split into tokens is at fault where a lexeme begins. -/
theorem tokens_errorsAt (front cs : List Char) :
    ErrorsAt (IsOffset (front ++ cs)) (fun _ => True) (tokens (byteSize front) cs) := by
  induction length : cs.length using Nat.strongRecOn generalizing front cs with
  | ind size ih =>
    rw [tokens.eq_def]
    cases cs with
    | nil => exact .ok trivial
    | cons c cs =>
      have further (more : Nat) (reach : (Lexeme.read c cs).reach = more) :
          ErrorsAt (IsOffset (front ++ c :: cs)) (fun _ => True)
            (tokens (byteSize front + byteSize (c :: cs.take more)) (cs.drop more)) := by
        obtain ⟨ds, rest, rfl, rfl⟩ := Lexeme.exists_divided reach
        have whole : front ++ c :: (ds ++ rest) = (front ++ c :: ds) ++ rest := by simp
        rw [List.length_cons, List.length_append] at length
        rw [List.take_left, List.drop_left, ← byteSize_append, whole]
        exact ih rest.length (by omega) _ rest rfl
      dsimp only
      cases found : Lexeme.read c cs with
      | gap more => exact further more (congrArg Lexeme.reach found)
      | token kind more =>
        exact (further more (congrArg Lexeme.reach found)).bind fun _ _ => .ok trivial
      | fault f => exact .error ⟨front, c :: cs, rfl, rfl⟩

end Texts

section Places

variable {P : Nat → Prop} {source : List Char} {stop size : Nat} {ps : List Piece}

/-- Parentheses that do not match are at fault where one of them starts. -/
theorem Group.gather_errorsAt {ts : List Token} {stack : List (Token × List Group)}
    {done : List Group} (places : ∀ t ∈ ts, P t.start) (waiting : ∀ top ∈ stack, P top.1.start) :
    ErrorsAt P (fun _ => True) (gather ts stack done) := by
  induction ts generalizing stack done with
  | nil =>
    cases stack with
    | nil => exact .ok trivial
    | cons top stack => exact .error (waiting _ List.mem_cons_self)
  | cons t ts ih =>
    rw [List.forall_mem_cons] at places
    simp only [gather]
    split
    · exact ih places.2 (List.forall_mem_cons.2 ⟨places.1, waiting⟩)
    · split
      · cases stack with
        | nil => exact .error places.1
        | cons top stack => exact ih places.2 (List.forall_mem_cons.1 waiting).2
      · exact ih places.2 waiting

theorem Group.places_of_tokens {gs : List Group}
    (places : ∀ t ∈ tokensOf gs, P t.start ∧ P t.stop) :
    ∀ p ∈ pieces source gs, P p.start ∧ P p.stop := by
  induction gs with
  | nil => nofun
  | cons g gs ih =>
    rw [tokensOf, List.forall_mem_append] at places
    rw [pieces, List.forall_mem_cons]
    refine ⟨?_, ih places.2⟩
    cases g with
    | token t => exact places.1 t List.mem_cons_self
    | parens opener inside closer =>
      exact ⟨(places.1 opener List.mem_cons_self).1, (places.1 closer (by simp [tokens])).2⟩

namespace Piece

theorem offset_place (last : P stop) (starts : ∀ p ∈ ps, P p.start) : P (offset stop ps) := by
  cases ps with
  | nil => exact last
  | cons p ps => exact starts p List.mem_cons_self

theorem lastStop_place {default : Nat} (none : P default) (stops : ∀ p ∈ ps, P p.stop) :
    P (lastStop default ps) := by
  rw [lastStop]
  cases found : ps.getLast? with
  | none => exact none
  | some p => exact stops p (List.mem_of_getLast? found)

theorem expectEnd_errorsAt (starts : ∀ p ∈ ps, P p.start) :
    ErrorsAt P (fun _ => True) (expectEnd stop ps) := by
  cases ps with
  | nil => exact .ok trivial
  | cons p ps => exact .error (starts p List.mem_cons_self)

theorem subset_of_divided {parts : List (List Piece)} (divided : Divided ps parts) :
    ∀ part ∈ parts, part ⊆ ps := by
  induction divided with
  | last => simp
  | cons _ _ _ _ ih =>
    rw [List.forall_mem_cons]
    refine ⟨List.subset_append_left _ _, fun part mem p inside => ?_⟩
    exact List.mem_append_right _ (List.mem_cons_of_mem _ (ih part mem inside))

/-- A missing query is at fault at the comma behind it, or at the end of the text. -/
theorem segments_errorsAt (last : P size) : ∀ ps : List Piece, (∀ p ∈ ps, P p.start) →
    ErrorsAt P (fun _ => True) (segments size ps)
  | [], _ => .error last
  | [p], starts => by
    cases isComma : p.isComma with
    | true => exact segments_isComma isComma _ ▸ .error (starts p List.mem_cons_self)
    | false =>
      rw [segments, if_neg (by simp [isComma])]
      exact .ok trivial
  | p :: q :: ps, starts => by
    rw [List.forall_mem_cons] at starts
    cases isComma : p.isComma with
    | true => exact segments_isComma isComma _ ▸ .error starts.1
    | false =>
      cases comma : q.isComma with
      | true =>
        rw [segments_comma isComma comma]
        have behind := segments_errorsAt last ps (List.forall_mem_cons.1 starts.2).2
        exact behind.bind fun _ _ => .ok trivial
      | false =>
        rw [segments_more isComma comma]
        refine (segments_errorsAt last (q :: ps) starts.2).bind fun parts _ => ?_
        cases parts <;> exact .ok trivial

end Piece

/-- The pieces behind some of the given ones start where those do. -/
theorem starts_of_suffix {rest : List Piece} (starts : ∀ p ∈ ps, P p.start) (behind : rest <:+ ps) :
    ∀ p ∈ rest, P p.start := fun p mem => starts p (behind.subset mem)

theorem InParens.ofPieces_errorsAt (last : P stop) (starts : ∀ p ∈ ps, P p.start) :
    ErrorsAt P (fun found => found.2 <:+ ps) (InParens.ofPieces stop ps) := by
  unfold InParens.ofPieces
  split
  · exact .ok (List.suffix_cons _ _)
  · exact .error (Piece.offset_place last starts)

namespace Condition

theorem following_errorsAt (last : P stop) {allowOr : Bool} :
    ∀ (ps : List Piece) (joiner : Option Connective), (∀ p ∈ ps, P p.start) →
      ErrorsAt P (fun found => found.2.2 <:+ ps) (following stop allowOr joiner ps)
  | [], _, _ => by
    rw [following]
    exact .ok List.suffix_rfl
  | p :: rest, joiner, starts => by
    have here := starts p List.mem_cons_self
    have behind := starts_of_suffix starts (List.suffix_cons p rest)
    rw [following.eq_def]
    dsimp only
    split
    · exact .ok List.suffix_rfl
    · split
      · exact .error here
      · split
        · exact .error here
        · split
          · rename_i a b x rest
            refine (following_errorsAt last rest _ (List.forall_mem_cons.1 behind).2).bind ?_
            intro found further
            exact .ok (further.trans ((List.suffix_cons _ _).trans (List.suffix_cons _ _)))
          · exact .error (Piece.offset_place last behind)

theorem ofPieces_errorsAt (last : P stop) (allowOr : Bool) (starts : ∀ p ∈ ps, P p.start) :
    ErrorsAt P (fun found => found.2 <:+ ps) (ofPieces stop allowOr ps) := by
  cases ps with
  | nil => exact .error last
  | cons p rest =>
    rw [ofPieces.eq_def]
    dsimp only
    split
    · have behind := starts_of_suffix starts (List.suffix_cons p rest)
      refine (InParens.ofPieces_errorsAt last behind).bind fun found further => ?_
      exact .ok (further.trans (List.suffix_cons p rest))
    · refine (InParens.ofPieces_errorsAt last starts).bind fun found further => ?_
      refine (following_errorsAt last _ _ (starts_of_suffix starts further)).bind ?_
      intro found behind
      exact .ok (behind.trans further)

end Condition

namespace Query

theorem ofTyped_errorsAt (last : P stop) (qualifier : Option Qualifier)
    (starts : ∀ p ∈ ps, P p.start) :
    ErrorsAt P (fun found => found.2 <:+ ps) (ofTyped stop qualifier ps) := by
  cases ps with
  | nil => exact .error last
  | cons p rest =>
    have here := starts p List.mem_cons_self
    have behind := starts_of_suffix starts (List.suffix_cons p rest)
    rw [ofTyped.eq_def]
    dsimp only
    split
    · exact .error here
    · split
      · exact .error here
      · split
        · exact .ok (List.nil_suffix)
        · rename_i word rest
          rw [List.forall_mem_cons] at behind
          split
          · refine (Condition.ofPieces_errorsAt last false behind.2).bind fun found further => ?_
            exact .ok (further.trans ((List.suffix_cons _ _).trans (List.suffix_cons _ _)))
          · exact .error behind.1

theorem ofUntyped_errorsAt (last : P stop) (starts : ∀ p ∈ ps, P p.start) :
    ErrorsAt P (fun found => found.2 <:+ ps) (ofUntyped stop ps) :=
  (Condition.ofPieces_errorsAt last true starts).bind fun _ further => .ok further

theorem ofPieces_errorsAt (last : P stop) (starts : ∀ p ∈ ps, P p.start) :
    ErrorsAt P (fun found => found.2 <:+ ps) (ofPieces stop ps) := by
  unfold ofPieces
  split
  · exact ofUntyped_errorsAt last starts
  · rename_i t rest
    split
    · exact .error (starts _ List.mem_cons_self)
    · split
      · exact ofUntyped_errorsAt last starts
      · split
        · have behind := starts_of_suffix starts (List.suffix_cons _ rest)
          exact (ofTyped_errorsAt last _ behind).imp fun _ further =>
            further.trans (List.suffix_cons _ _)
        · exact ofTyped_errorsAt last none starts
  · exact .error last

theorem ofAllPieces_errorsAt (last : P stop) (starts : ∀ p ∈ ps, P p.start) :
    ErrorsAt P (fun _ => True) (ofAllPieces stop ps) := by
  refine (ofPieces_errorsAt last starts).bind fun found further => ?_
  have rest := starts_of_suffix starts further
  exact (Piece.expectEnd_errorsAt rest).bind fun _ _ => .ok trivial

end Query

end Places

section Sources

open Text

theorem tokenize_errorsAt (source : String) :
    ErrorsAt (IsOffset source.toList)
      (fun ts => ∀ t ∈ ts, IsOffset source.toList t.start ∧ IsOffset source.toList t.stop)
      (tokenize source) := by
  refine (tokens_errorsAt [] source.toList).result.imp fun ts lexed t mem => ?_
  have lexes : Lexes 0 source.toList ts := tokens_eq_ok.1 lexed
  obtain ⟨i, j, first, last, begins, ends⟩ := lexes.isOffset t mem
  rw [begins, ends, Nat.zero_add, Nat.zero_add]
  exact ⟨first, last⟩

theorem Piece.ofSource_errorsAt (source : String) :
    ErrorsAt (IsOffset source.toList)
      (fun ps => ∀ p ∈ ps, IsOffset source.toList p.start ∧ IsOffset source.toList p.stop)
      (Piece.ofSource source) := by
  refine (tokenize_errorsAt source).bind fun ts places => ?_
  have starts := fun t mem => (places t mem).1
  refine (Group.gather_errorsAt starts (by simp)).result.bind fun gs gathered => ?_
  rw [← Group.tokensOf_ofTokens ts gs gathered] at places
  exact .ok (Group.places_of_tokens places)

/-- What is wrong with a list is at a character of it, or at its end. -/
theorem QueryList.parse_errorsAt (source : String) :
    ErrorsAt (IsOffset source.toList) (fun _ => True) (QueryList.parse source) := by
  refine (Piece.ofSource_errorsAt source).bind fun ps places => ?_
  split
  · exact .ok trivial
  · have size := isOffset_byteSize source.toList
    have starts := fun p mem => (places p mem).1
    refine (Piece.segments_errorsAt size ps starts).result.bind fun parts divided => ?_
    refine .mapM fun part mem => ?_
    have sub := Piece.subset_of_divided (Piece.divided_of_segments _ _ divided) part mem
    have last := Piece.lastStop_place size fun p inside => (places p (sub inside)).2
    exact Query.ofAllPieces_errorsAt last fun p inside => (places p (sub inside)).1

theorem Query.parse_errorsAt (source : String) :
    ErrorsAt (IsOffset source.toList) (fun _ => True) (Query.parse source) := by
  refine (QueryList.parse_errorsAt source).bind fun list _ => ?_
  split
  · exact .ok trivial
  · exact .error (isOffset_zero _)

theorem Condition.parse_errorsAt (source : String) :
    ErrorsAt (IsOffset source.toList) (fun _ => True) (Condition.parse source) := by
  refine (Piece.ofSource_errorsAt source).bind fun ps places => ?_
  have starts := fun p mem => (places p mem).1
  have last := Piece.lastStop_place (isOffset_byteSize source.toList) fun p mem => (places p mem).2
  refine (Condition.ofPieces_errorsAt last true starts).bind fun found further => ?_
  have rest := starts_of_suffix starts further
  exact (Piece.expectEnd_errorsAt rest).bind fun _ _ => .ok trivial

end Sources

end MediaQuery
