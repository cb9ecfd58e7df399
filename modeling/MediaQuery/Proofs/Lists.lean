import Mathlib
import MediaQuery.Proofs.Parser

set_option autoImplicit false

namespace MediaQuery

namespace Piece

/-- Pieces divided at their commas into parts of which none is empty. -/
inductive Divided : List Piece → List (List Piece) → Prop where
  | last {ps : List Piece} (nonempty : ps ≠ []) (alone : ∀ p ∈ ps, p.isComma = false) :
      Divided ps [ps]
  | cons {ps qs : List Piece} {comma : Piece} {parts : List (List Piece)} (nonempty : ps ≠ [])
      (alone : ∀ p ∈ ps, p.isComma = false) (isComma : comma.isComma = true)
      (rest : Divided qs parts) : Divided (ps ++ comma :: qs) (ps :: parts)

theorem segments_comma {size : Nat} {p q : Piece} (noComma : p.isComma = false)
    (isComma : q.isComma = true) (ps : List Piece) :
    segments size (p :: q :: ps) = do
      let parts ← segments size ps
      return [p] :: parts := by
  simp [segments, noComma, isComma]

theorem segments_more {size : Nat} {p q : Piece} (noComma : p.isComma = false)
    (isNone : q.isComma = false) (ps : List Piece) :
    segments size (p :: q :: ps) = do
      let parts ← segments size (q :: ps)
      match parts with
      | part :: parts => return (p :: part) :: parts
      | [] => return [[p]] := by
  rw [segments, noComma, isNone]
  rfl

/-- What stands in front of the first comma is the first part. -/
theorem segments_append {size : Nat} {ps qs : List Piece} {comma : Piece} (nonempty : ps ≠ [])
    (alone : ∀ p ∈ ps, p.isComma = false) (isComma : comma.isComma = true) :
    segments size (ps ++ comma :: qs) = do
      let parts ← segments size qs
      return ps :: parts := by
  induction ps with
  | nil => exact absurd rfl nonempty
  | cons p ps ih =>
    rw [List.forall_mem_cons] at alone
    cases ps with
    | nil => exact segments_comma alone.1 isComma qs
    | cons q ps =>
      rw [List.cons_append, List.cons_append,
        segments_more alone.1 (List.forall_mem_cons.1 alone.2).1, ← List.cons_append,
        ih (List.cons_ne_nil _ _) alone.2]
      cases segments size qs <;> rfl

theorem segments_isComma {size : Nat} {p : Piece} (isComma : p.isComma = true) (ps : List Piece) :
    segments size (p :: ps) = .error ⟨.emptyQuery, p.start⟩ := by
  unfold segments
  exact if_pos isComma

theorem noComma_of_segments {size : Nat} {p : Piece} {ps : List Piece} {parts : List (List Piece)}
    (read : segments size (p :: ps) = .ok parts) : p.isComma = false := by
  cases isComma : p.isComma with
  | false => rfl
  | true =>
    rw [segments_isComma isComma] at read
    cases read

theorem divided_of_segments {size : Nat} : ∀ (ps : List Piece) (parts : List (List Piece)),
    segments size ps = .ok parts → Divided ps parts
  | [], parts, read => by cases read
  | [p], parts, read => by
    have noComma := noComma_of_segments read
    have single : ∀ p' ∈ [p], p'.isComma = false := by simpa using noComma
    rw [segments, if_neg (by simp [noComma])] at read
    cases read
    exact .last (by simp) single
  | p :: q :: ps, parts, read => by
    have noComma := noComma_of_segments read
    have single : ∀ p' ∈ [p], p'.isComma = false := by simpa using noComma
    cases isComma : q.isComma with
    | true =>
      rw [segments_comma noComma isComma] at read
      obtain ⟨rest, further, same⟩ := bind_eq_ok.1 read
      cases same
      exact .cons (by simp) single isComma (divided_of_segments ps rest further)
    | false =>
      rw [segments_more noComma isComma] at read
      obtain ⟨rest, further, same⟩ := bind_eq_ok.1 read
      have divided := divided_of_segments (q :: ps) rest further
      generalize q :: ps = qs at divided
      cases divided with
      | last nonempty alone =>
        cases same
        exact .last (by simp) (List.forall_mem_cons.2 ⟨noComma, alone⟩)
      | cons nonempty alone isComma rest =>
        cases same
        exact .cons (by simp) (List.forall_mem_cons.2 ⟨noComma, alone⟩) isComma rest

theorem segments_of_divided (size : Nat) {ps : List Piece} {parts : List (List Piece)}
    (divided : Divided ps parts) : segments size ps = .ok parts := by
  induction divided with
  | @last ps nonempty alone =>
    induction ps with
    | nil => exact absurd rfl nonempty
    | cons p ps ih =>
      rw [List.forall_mem_cons] at alone
      cases ps with
      | nil => simp [segments, alone.1]
      | cons q ps =>
        rw [segments_more alone.1 (List.forall_mem_cons.1 alone.2).1, ih (by simp) alone.2]
        rfl
  | cons nonempty alone isComma _ read =>
    rw [segments_append nonempty alone isComma, read]
    rfl

end Piece

variable {source : List Char} {item : List Token → InParens → Prop} {size : Nat}

theorem Group.fits_of_isComma {t : Token} (isComma : t.isComma = true) : (Group.token t).Fits := by
  have kind : t.kind = .comma := by
    unfold Token.isComma at isComma
    split at isComma
    · assumption
    · cases isComma
  exact .token (by simp [Token.isOpening, kind]) (by simp [Token.isClosing, kind])

section Segments

variable {gs : List Group}

theorem Group.tokensOf_ne_nil (nonempty : Group.pieces source gs ≠ []) :
    Group.tokensOf gs ≠ [] := by
  cases gs with
  | nil => exact absurd rfl nonempty
  | cons g gs =>
    have positive := g.length_tokens_pos
    intro none
    rw [Group.tokensOf, List.append_eq_nil_iff] at none
    rw [none.1] at positive
    cases positive

/-- Groups that are read as pieces without a comma have no comma outside of parentheses. -/
theorem Group.balanced_of_alone (fits : ∀ g ∈ gs, g.Fits)
    (alone : ∀ p ∈ Group.pieces source gs, p.isComma = false) :
    Balanced (fun t => !t.isComma) (Group.tokensOf gs) := by
  refine Group.balanced_tokensOf gs _ fits fun t mem => ?_
  rw [Group.pieces_eq_map] at alone
  have noComma := alone _ (List.mem_map_of_mem mem)
  rw [Group.piece] at noComma
  simpa [Piece.isComma] using noComma

theorem Group.alone_of_balanced (fits : ∀ g ∈ gs, g.Fits)
    (balanced : Balanced (fun t => !t.isComma) (Group.tokensOf gs)) :
    ∀ p ∈ Group.pieces source gs, p.isComma = false := by
  obtain ⟨hs, fitsHs, same, tops⟩ := Group.balanced_iff.1 balanced
  obtain rfl := Group.eq_of_tokensOf fitsHs fits same
  rw [Group.pieces_eq_map, List.forall_mem_map]
  intro g mem
  cases g with
  | token t => simpa [Group.piece, Piece.isComma] using tops t mem
  | parens opener inside closer => rw [Group.piece]; rfl

end Segments

/-- The queries read off the parts are those between the commas of the tokens. -/
theorem QueryList.form_of_divided (items : ∀ n, InParens.ReadOff source n item)
    {ps : List Piece} {parts : List (List Piece)} (divided : Piece.Divided ps parts)
    {gs : List Group} (fits : ∀ g ∈ gs, g.Fits) (made : Group.pieces source gs = ps)
    {list : QueryList}
    (read : parts.mapM (fun part => Query.ofAllPieces (Piece.lastStop size part) part) =
      .ok list) : QueryList.Form item (Group.tokensOf gs) list := by
  induction divided generalizing gs list with
  | last nonempty alone =>
    subst made
    rw [List.mapM_cons] at read
    obtain ⟨q, whole, read⟩ := bind_eq_ok.1 read
    cases read
    have whole := Query.ofPieces_sound (items _) fits (Nat.le_refl _)
      (Query.ofAllPieces_eq_ok.1 whole)
    exact .last (Group.tokensOf_ne_nil nonempty) (Group.balanced_of_alone fits alone) whole
  | @cons ps qs comma parts nonempty alone isComma _ ih =>
    rw [Group.pieces_eq_map, List.map_eq_append_iff] at made
    obtain ⟨hs, rest, rfl, madeFirst, madeRest⟩ := made
    obtain ⟨g, ks, rfl, madeComma, madeLast⟩ := List.map_eq_cons_iff.1 madeRest
    rw [← Group.pieces_eq_map] at madeFirst madeLast
    rw [List.forall_mem_append, List.forall_mem_cons] at fits
    obtain ⟨t, rfl⟩ : ∃ t, comma = .token t := by
      cases comma with
      | token t => exact ⟨t, rfl⟩
      | item a b x => cases isComma
    cases Group.eq_token_of_piece madeComma
    subst madeFirst
    rw [List.mapM_cons] at read
    obtain ⟨q, whole, read⟩ := bind_eq_ok.1 read
    obtain ⟨list', further, same⟩ := bind_eq_ok.1 read
    cases same
    have whole := Query.ofPieces_sound (items _) fits.1 (Nat.le_refl _)
      (Query.ofAllPieces_eq_ok.1 whole)
    rw [Group.tokensOf_append]
    exact .cons (Group.tokensOf_ne_nil nonempty) (Group.balanced_of_alone fits.1 alone) whole
      isComma (ih fits.2.2 madeLast further)

/-- The queries between the commas of the tokens are read off the parts. -/
theorem QueryList.divided_of_form (items : ∀ n, InParens.ReadOff source n item)
    {ts : List Token} {list : QueryList} (form : QueryList.Form item ts list) :
    ∃ gs : List Group, (∀ g ∈ gs, g.Fits) ∧ Group.tokensOf gs = ts ∧
      ∃ parts, Piece.Divided (Group.pieces source gs) parts ∧
        parts.mapM (fun part => Query.ofAllPieces (Piece.lastStop size part) part) = .ok list := by
  have segment {us : List Token} {q : Query} (nonempty : us ≠ [])
      (balanced : Balanced (fun t => !t.isComma) us) (whole : Query.Form item us q) :
      ∃ gs : List Group, (∀ g ∈ gs, g.Fits) ∧ Group.tokensOf gs = us ∧
        Group.pieces source gs ≠ [] ∧ (∀ p ∈ Group.pieces source gs, p.isComma = false) ∧
          ∀ stop, Query.ofAllPieces stop (Group.pieces source gs) = .ok q := by
    obtain ⟨gs, fits, rfl, reads⟩ := Query.ofPieces_complete (items _) (Nat.le_refl _) whole
    refine ⟨gs, fits, rfl, ?_, Group.alone_of_balanced fits balanced,
      fun stop => Query.ofAllPieces_eq_ok.2 (reads stop)⟩
    cases gs with
    | nil => exact absurd rfl nonempty
    | cons g gs => exact List.cons_ne_nil _ _
  induction form with
  | last nonempty balanced whole =>
    obtain ⟨gs, fits, rfl, filled, alone, read⟩ := segment nonempty balanced whole
    refine ⟨gs, fits, rfl, _, .last filled alone, ?_⟩
    rw [List.mapM_cons, read]
    rfl
  | @cons ts us comma q qs nonempty balanced whole isComma _ ih =>
    obtain ⟨gs, fits, rfl, filled, alone, read⟩ := segment nonempty balanced whole
    obtain ⟨hs, fitsHs, rfl, parts, divided, further⟩ := ih
    refine ⟨gs ++ .token comma :: hs, ?_, ?_, Group.pieces source gs :: parts, ?_, ?_⟩
    · rw [List.forall_mem_append, List.forall_mem_cons]
      exact ⟨fits, Group.fits_of_isComma isComma, fitsHs⟩
    · rw [Group.tokensOf_append]
      rfl
    · rw [Group.pieces_eq_map, List.map_append, List.map_cons, ← Group.pieces_eq_map,
        ← Group.pieces_eq_map, Group.piece]
      exact .cons filled alone isComma divided
    · rw [List.mapM_cons, read, further]
      rfl

/-- A list is read off the groups of the tokens of a source. -/
theorem QueryList.parse_eq_ok_iff_groups {source : String} {ts : List Token}
    (lexed : tokenize source = .ok ts) {list : QueryList} :
    QueryList.parse source = .ok list ↔
      ∃ gs : List Group, (∀ g ∈ gs, g.Fits) ∧ Group.tokensOf gs = ts ∧
        (gs = [] ∧ list = [Query.ofType .all] ∨
          ∃ parts, Piece.Divided (Group.pieces source.toList gs) parts ∧
            parts.mapM (fun part => Query.ofAllPieces
              (Piece.lastStop (Text.byteSize source.toList) part) part) = .ok list) := by
  constructor
  · intro read
    obtain ⟨ps, pieces, read⟩ := bind_eq_ok.1 read
    obtain ⟨gs, fits, made, rfl⟩ := (Piece.ofSource_eq_ok lexed).1 pieces
    refine ⟨gs, fits, made, ?_⟩
    cases gs with
    | nil => cases read; exact .inl ⟨rfl, rfl⟩
    | cons g gs =>
      obtain ⟨parts, divided, read⟩ := bind_eq_ok.1 read
      exact .inr ⟨parts, Piece.divided_of_segments _ _ divided, read⟩
  · rintro ⟨gs, fits, made, read⟩
    have pieces := (Piece.ofSource_eq_ok lexed).2 ⟨gs, fits, made, rfl⟩
    refine bind_eq_ok.2 ⟨_, pieces, ?_⟩
    rcases read with ⟨rfl, rfl⟩ | ⟨parts, divided, read⟩
    · rfl
    · have segments := Piece.segments_of_divided (Text.byteSize source.toList) divided
      cases gs with
      | nil => cases segments
      | cons g gs => exact bind_eq_ok.2 ⟨parts, segments, read⟩

/-- A source is read as the lists that its tokens derive. -/
theorem QueryList.parse_eq_ok_iff {source : String} {ts : List Token}
    (lexed : tokenize source = .ok ts) {list : QueryList} :
    QueryList.parse source = .ok list ↔
      QueryList.Derives Feature.Reads source.toList ts list := by
  have items (n : Nat) := @InParens.readOff_derives source.toList n
  rw [QueryList.parse_eq_ok_iff_groups lexed]
  constructor
  · rintro ⟨gs, fits, rfl, ⟨rfl, rfl⟩ | ⟨parts, divided, read⟩⟩
    · exact .inl ⟨rfl, rfl⟩
    · exact .inr (QueryList.form_of_divided items divided fits rfl read)
  · rintro (⟨rfl, rfl⟩ | form)
    · exact ⟨[], by simp, rfl, .inl ⟨rfl, rfl⟩⟩
    · obtain ⟨gs, fits, made, parts, divided, read⟩ := QueryList.divided_of_form items form
      exact ⟨gs, fits, made, .inr ⟨parts, divided, read⟩⟩

/-- The parser accepts exactly its grammar. A source that splits into tokens is read as the one
list that its tokens derive, and is refused if they derive none. -/
theorem QueryList.parse_grammar {source : String} {ts : List Token}
    (lexed : tokenize source = .ok ts) :
    (∀ list, QueryList.parse source = .ok list ↔
      QueryList.Derives Feature.Reads source.toList ts list) ∧
    (∀ list list', QueryList.Derives Feature.Reads source.toList ts list →
      QueryList.Derives Feature.Reads source.toList ts list' → list = list') ∧
    ((∀ list, ¬QueryList.Derives Feature.Reads source.toList ts list) →
      ∃ e, QueryList.parse source = .error e) := by
  refine ⟨fun list => QueryList.parse_eq_ok_iff lexed, fun list list' derives derives' => ?_,
    fun none => ?_⟩
  · have read := (QueryList.parse_eq_ok_iff lexed).2 derives
    have read' := (QueryList.parse_eq_ok_iff lexed).2 derives'
    exact Except.ok.inj (read.symm.trans read')
  · cases read : QueryList.parse source with
    | error e => exact ⟨e, rfl⟩
    | ok list => exact absurd ((QueryList.parse_eq_ok_iff lexed).1 read) (none list)

theorem QueryList.parse_grammar_notPrint :
    QueryList.Derives Feature.Reads "not print, (hover: none)".toList
      [⟨.ident "not", 0, 3⟩, ⟨.ident "print", 4, 9⟩, ⟨.comma, 9, 10⟩, ⟨.opening, 11, 12⟩,
        ⟨.ident "hover", 12, 17⟩, ⟨.colon, 17, 18⟩, ⟨.ident "none", 19, 23⟩, ⟨.closing, 23, 24⟩]
      [⟨some .not, .print, none⟩,
        Query.ofCondition (.and [.feature (.plain "hover" (.ident "none"))])] :=
  ((QueryList.parse_grammar (by cbv)).1 _).1 (by cbv)

/-- The forms of tests alone do not say how `(a < b)` is read: both names may be the one that is
tested. -/
theorem QueryList.forms_ambiguous :
    ¬∀ (source : String) (ts : List Token) (list : QueryList), tokenize source = .ok ts →
      (QueryList.parse source = .ok list ↔
        QueryList.Derives Feature.Form source.toList ts list) := by
  intro grammar
  let inside : List Token := [⟨.ident "a", 1, 2⟩, ⟨.comparison .lt, 3, 4⟩, ⟨.ident "b", 5, 6⟩]
  let opener : Token := ⟨.opening, 0, 1⟩
  let closer : Token := ⟨.closing, 6, 7⟩
  have lexed : tokenize "(a < b)" = .ok (opener :: (inside ++ [closer])) := by cbv
  have read : QueryList.parse "(a < b)" = .ok [Query.ofCondition
      (.and [.feature (.range "a" none (some (.lt, .ident "b")))])] := by cbv
  have balanced : Balanced (fun _ => true) inside :=
    .token rfl rfl rfl (.token rfl rfl rfl (.token rfl rfl rfl .nil))
  have noCondition (c : Condition) :
      ¬Condition.Derives Feature.Form "(a < b)".toList inside c := by
    intro derives
    cases Condition.Derives.begins derives
  have form : Feature.Form inside (.range "b" (some (.ident "a", .lt)) none) :=
    .left rfl rfl (.ident rfl)
  have item : InParens.Derives Feature.Form "(a < b)".toList (opener :: (inside ++ [closer]))
      (.feature (.range "b" (some (.ident "a", .lt)) none)) :=
    .feature rfl rfl balanced noCondition form
  have derives : QueryList.Derives Feature.Form "(a < b)".toList (opener :: (inside ++ [closer]))
      [Query.ofCondition (.and [.feature (.range "b" (some (.ident "a", .lt)) none)])] := by
    refine .inr (.last (by simp) (.parens rfl rfl balanced .nil) (.condition rfl ?_))
    exact .and item .nil
  have other := (grammar _ _ _ lexed).2 derives
  simp [read, Query.ofCondition] at other

end MediaQuery
