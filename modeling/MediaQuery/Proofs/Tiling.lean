import MediaQuery.Proofs.Spacing

set_option autoImplicit false

/- Tokens tile a text. Their spans follow each other without a byte in common, and what they leave
of the text is blanks and comments. A part that begins where a token begins and ends where a later
one ends is split, alone, as the text is split there: a lexeme does not look back, and what follows
it does not change it. -/
namespace MediaQuery

namespace Text

/-- Blanks and comments, one after the other. -/
inductive Skipped : List Char → Prop where
  | nothing : Skipped []
  | further {cs gap : List Char} (skipped : Skipped cs) (isGap : IsGap gap) : Skipped (cs ++ gap)

theorem Skipped.span {gap : List Char} (skipped : Skipped gap) (front behind : List Char) :
    Skipped
      (slice (front ++ (gap ++ behind)) (byteSize front) (byteSize front + byteSize gap)) := by
  rwa [slice_append]

end Text

open Text

namespace Lexeme

/-- A comment ends with the first closing mark behind its opening one. -/
theorem exists_body_of_commentSize? {cs : List Char} {n : Nat} (ends : commentSize? cs = some n) :
    ∃ body rest, cs = body ++ (['*', '/'] ++ rest) ∧ n = body.length + 2 ∧
      ¬['*', '/'] <:+: body := by
  induction cs generalizing n with
  | nil => cases ends
  | cons c cs ih =>
    by_cases here : c = '*' ∧ cs.head? = some '/'
    · rw [commentSize?_of_end here] at ends
      cases ends
      obtain ⟨rfl, front⟩ := here
      obtain ⟨rest, rfl⟩ := List.head?_eq_some_iff.1 front
      exact ⟨[], rest, rfl, rfl, by decide⟩
    · rw [commentSize?_of_not_end here] at ends
      obtain ⟨size, found, rfl⟩ := Option.map_eq_some_iff.1 ends
      obtain ⟨body, rest, rfl, rfl, unclosed⟩ := ih found
      refine ⟨c :: body, rest, rfl, rfl, ?_⟩
      intro inside
      rcases List.infix_cons_iff.1 inside with front | inside
      · obtain ⟨same, front⟩ := List.cons_prefix_cons.1 front
        obtain ⟨tail, rfl⟩ := front
        exact here ⟨same.symm, rfl⟩
      · exact unclosed inside

theorem ofNumeral_ne_gap (n : Decimal.Numeral) (rest : List Char) (more : Nat) :
    ofNumeral n rest ≠ gap more := by
  unfold ofNumeral
  dsimp only
  split
  · exact nofun
  · split
    · exact nofun
    · split <;> exact nofun

theorem ofIdent_ne_gap (size : Nat) (cs : List Char) (more : Nat) :
    ofIdent size cs ≠ gap more := by
  unfold ofIdent
  dsimp only
  split <;> exact nofun

theorem comparison?_ne_gap (c : Char) (cs : List Char) (more : Nat) :
    comparison? c cs ≠ some (gap more) := by
  unfold comparison?
  split <;> exact nofun

/-- What gaps there are, and what each is read from. -/
theorem read_gap_cases {c : Char} {cs : List Char} {more : Nat} (reads : read c cs = gap more) :
    (isBlank c = true ∧ more = 0) ∨
      ∃ inside size, c = '/' ∧ cs = '*' :: inside ∧ commentSize? inside = some size ∧
        more = 1 + size := by
  unfold read at reads
  split at reads
  · cases reads
    exact .inl ⟨‹_›, rfl⟩
  · split at reads
    · rename_i begins
      obtain ⟨rfl, front⟩ := begins
      obtain ⟨inside, rfl⟩ := List.head?_eq_some_iff.1 front
      split at reads
      · rename_i size ends
        cases reads
        exact .inr ⟨inside, size, rfl, rfl, ends, rfl⟩
      · cases reads
    · -- No other case gives a gap.
      split at reads
      · cases reads
      · split at reads
        · subst reads
          exact absurd ‹_› (comparison?_ne_gap _ _ _)
        · split at reads
          · exact absurd reads (ofNumeral_ne_gap _ _ _)
          · dsimp only at reads
            split at reads
            · exact absurd reads (ofIdent_ne_gap _ _ _)
            · cases reads

theorem isGap_of_read {c : Char} {cs rest : List Char}
    (reads : read c (cs ++ rest) = gap cs.length) : IsGap (c :: cs) := by
  rcases read_gap_cases reads with ⟨blank, none⟩ | ⟨inside, size, rfl, whole, ends, length⟩
  · rw [List.eq_nil_of_length_eq_zero none]
    exact .blank blank
  · obtain ⟨body, behind, rfl, rfl, unclosed⟩ := exists_body_of_commentSize? ends
    have parts : cs ++ rest = ('*' :: (body ++ ['*', '/'])) ++ behind := by
      rw [whole, ← List.append_assoc, List.cons_append]
    have size : cs.length = ('*' :: (body ++ ['*', '/'])).length := by
      rw [length, List.length_cons, List.length_append]
      exact Nat.add_comm 1 _
    rw [List.append_inj_left parts size]
    exact .comment unclosed

end Lexeme

/-- The spans from byte `start` to byte `stop` that tokens leave: in front of the first one, between
each one and the next, and behind the last one. -/
def gapSpans (start stop : Nat) : List Token → List (Nat × Nat)
  | [] => [(start, stop)]
  | t :: ts => (start, t.start) :: gapSpans t.stop stop ts

/-- Tokens that tile a text: none is empty, each begins and ends at a character, they follow each
other without a byte in common, and the rest of the text is blanks and comments. -/
structure Tiles (cs : List Char) (ts : List Token) : Prop where
  filled : ∀ t ∈ ts, t.start < t.stop
  offsets : ∀ t ∈ ts, IsOffset cs t.start ∧ IsOffset cs t.stop
  within : ∀ t ∈ ts, t.stop ≤ byteSize cs
  apart : ts.Pairwise fun t u => t.stop ≤ u.start
  skipped : ∀ span ∈ gapSpans 0 (byteSize cs) ts, Skipped (slice cs span.1 span.2)

/-- A token with its offsets counted from byte `n` on. -/
def Token.countedFrom (n : Nat) (t : Token) : Token := ⟨t.kind, t.start - n, t.stop - n⟩

namespace Lexes

variable {start : Nat} {cs front gap : List Char} {ts us vs ws : List Token} {t u : Token}

/-- What tokens leave of a text is blanks and comments. The induction is on the lexemes, with the
gap that has been passed over since the last token. -/
theorem skipped (lexes : Lexes start cs ts) (passed : Skipped gap)
    (place : start = byteSize front + byteSize gap) :
    ∀ span ∈ gapSpans (byteSize front) (byteSize (front ++ (gap ++ cs))) ts,
      Skipped (slice (front ++ (gap ++ cs)) span.1 span.2) := by
  induction lexes generalizing front gap with
  | nil =>
    intro span mem
    obtain rfl := List.mem_singleton.1 mem
    show Skipped (slice _ (byteSize front) (byteSize (front ++ (gap ++ []))))
    have stop : byteSize (front ++ (gap ++ [])) = byteSize front + byteSize gap := by
      rw [List.append_nil, byteSize_append]
    rw [stop]
    exact passed.span front []
  | @gap start c cs rest ts reads behind ih =>
    have whole : gap ++ c :: (cs ++ rest) = (gap ++ c :: cs) ++ rest := by
      rw [List.append_assoc, List.cons_append]
    rw [whole]
    apply ih (passed.further (Lexeme.isGap_of_read reads))
    rw [place, byteSize_append, Nat.add_assoc]
  | @token start c cs rest kind ts reads behind ih =>
    intro span mem
    rcases List.mem_cons.1 mem with rfl | mem
    · show Skipped (slice _ (byteSize front) start)
      rw [place]
      exact passed.span front _
    · have whole : front ++ (gap ++ c :: (cs ++ rest)) =
          (front ++ (gap ++ c :: cs)) ++ ([] ++ rest) := by simp
      have stop : start + byteSize (c :: cs) = byteSize (front ++ (gap ++ c :: cs)) := by
        rw [place, byteSize_append, byteSize_append, Nat.add_assoc]
      rw [whole] at mem ⊢
      apply ih .nothing stop span
      rwa [← stop]

/-- The tokens of a text tile it. -/
theorem tiles (lexes : Lexes 0 cs ts) : Tiles cs ts where
  filled := lexes.filled
  offsets := by
    intro t mem
    obtain ⟨i, j, first, last, begins, ends⟩ := lexes.isOffset t mem
    rw [Nat.zero_add] at begins ends
    rw [begins, ends]
    exact ⟨first, last⟩
  within := by
    intro t mem
    have bound := (lexes.le_end t mem).2
    rwa [Nat.zero_add] at bound
  apart := lexes.apart
  skipped := by
    have spans : ∀ span ∈ gapSpans (byteSize []) (byteSize ([] ++ ([] ++ cs))) ts,
        Skipped (slice ([] ++ ([] ++ cs)) span.1 span.2) := lexes.skipped .nothing rfl
    exact spans

/-- The text from a token to a later one or its own end has the tokens between the two, counted
from its start. -/
theorem counted (lexes : Lexes 0 cs (us ++ t :: (vs ++ ws)))
    (last : (t :: vs).getLast? = some u) :
    Lexes 0 (slice cs t.start u.stop) ((t :: vs).map (Token.countedFrom t.start)) := by
  obtain ⟨front, text, back, alone, rfl, begins, ends, lexes, same⟩ := lexes.between last
  have returns (w : Token) : Token.countedFrom (byteSize front)
      ⟨w.kind, byteSize front + w.start, byteSize front + w.stop⟩ = w := by
    simp only [Token.countedFrom, Nat.add_sub_cancel_left]
  have counted : (t :: vs).map (Token.countedFrom (byteSize front)) = alone := by
    rw [same, List.map_map]
    exact (List.map_congr_left fun w _ => returns w).trans (List.map_id _)
  rw [begins, ends, slice_append, counted]
  exact lexes

end Lexes

/-- Tokens tile their text, and each of them, and each run of them, is found in its own text alone:
what stands around a token does not matter. -/
theorem tokenize_tiles {source : String} {ts : List Token} (lexed : tokenize source = .ok ts) :
    Tiles source.toList ts ∧
      (∀ t ∈ ts,
        tokenize (Text.between source.toList t t) = .ok [⟨t.kind, 0, t.stop - t.start⟩]) ∧
      ∀ run, run <:+: ts → ∀ t u, run.head? = some t → run.getLast? = some u →
        tokenize (Text.between source.toList t u) = .ok (run.map (Token.countedFrom t.start)) := by
  have lexes := tokenize_eq_ok.1 lexed
  have runs : ∀ run, run <:+: ts → ∀ t u, run.head? = some t → run.getLast? = some u →
      tokenize (Text.between source.toList t u) =
        .ok (run.map (Token.countedFrom t.start)) := by
    intro run part t u first last
    obtain ⟨before, after, rfl⟩ := part
    obtain ⟨rest, rfl⟩ := List.head?_eq_some_iff.1 first
    rw [List.append_assoc] at lexes
    rw [tokenize_eq_ok, Text.between, String.toList_ofList]
    exact Lexes.counted lexes last
  refine ⟨lexes.tiles, ?_, runs⟩
  intro t mem
  obtain ⟨before, after, rfl⟩ := List.append_of_mem mem
  have alone := runs [t] ⟨before, after, by simp⟩ t t rfl rfl
  rwa [List.map_singleton, Token.countedFrom, Nat.sub_self] at alone

/-- A unit that looks like a power of ten, behind one, and a comment in front of a sign. -/
theorem tokenize_tiles_glued :
    tokenize "f(1e3e-1/**/-5%)" = .ok [⟨.function "f", 0, 2⟩, ⟨.dimension 1000 "e-1", 2, 8⟩,
      ⟨.dimension (-5) "%", 12, 15⟩, ⟨.closing, 15, 16⟩] ∧
    Skipped ['/', '*', '*', '/'] ∧
    tokenize "1e3e-1" = .ok [⟨.dimension 1000 "e-1", 0, 6⟩] ∧
    tokenize "1e3e-1/**/-5%" =
      .ok [⟨.dimension 1000 "e-1", 0, 6⟩, ⟨.dimension (-5) "%", 10, 13⟩] := by
  have thousand : Decimal.Numeral.toFloat ⟨[], ['1'], none, some ⟨'e', [], ['3']⟩⟩ = 1000 := by
    decide +kernel
  have five : Decimal.Numeral.toFloat ⟨['-'], ['5'], none, none⟩ = -5 := by decide +kernel
  have lexed : tokenize "f(1e3e-1/**/-5%)" = .ok [⟨.function "f", 0, 2⟩,
      ⟨.dimension 1000 "e-1", 2, 8⟩, ⟨.dimension (-5) "%", 12, 15⟩, ⟨.closing, 15, 16⟩] := by
    rw [tokenize_eq_ok, ← thousand, ← five]
    show Lexes 0 ('f' :: (['('] ++ '1' :: (['e', '3', 'e', '-', '1'] ++
      '/' :: (['*', '*', '/'] ++ '-' :: (['5', '%'] ++ ')' :: ([] ++ [])))))) _
    exact .token rfl (.token rfl (.gap rfl (.token rfl (.token rfl .nil))))
  obtain ⟨tiles, own, runs⟩ := tokenize_tiles lexed
  let power : Token := ⟨.dimension 1000 "e-1", 2, 8⟩
  let percent : Token := ⟨.dimension (-5) "%", 12, 15⟩
  have comment := tiles.skipped (8, 12) (by simp [gapSpans])
  have alone := own power (.tail _ (.head _))
  have both := runs [power, percent] ⟨[_], [_], rfl⟩ power percent rfl rfl
  have text : Text.between "f(1e3e-1/**/-5%)".toList power power = "1e3e-1" := by
    decide +kernel
  have texts : Text.between "f(1e3e-1/**/-5%)".toList power percent = "1e3e-1/**/-5%" := by
    decide +kernel
  rw [text] at alone
  rw [texts] at both
  exact ⟨lexed, comment, alone, both⟩

end MediaQuery
