import MediaQuery.Proofs.Correspondence
import MediaQuery.Proofs.Truncation

set_option autoImplicit false

namespace MediaQuery

namespace Text

/-- The offset of a character of a text, or of its end. -/
def IsOffset (cs : List Char) (i : Nat) : Prop := ∃ xs ys, cs = xs ++ ys ∧ byteSize xs = i

theorem IsOffset.le {cs : List Char} {i : Nat} (offset : IsOffset cs i) : i ≤ byteSize cs := by
  obtain ⟨xs, ys, rfl, rfl⟩ := offset
  rw [byteSize_append]
  exact Nat.le_add_right _ _

theorem dropBytes_byteSize_add (xs ys : List Char) (i : Nat) :
    dropBytes (byteSize xs + i) (xs ++ ys) = dropBytes i ys := by
  induction xs with
  | nil => rw [byteSize, Nat.zero_add, List.nil_append]
  | cons x xs ih =>
    have positive := x.utf8Size_pos
    rw [List.cons_append, dropBytes, if_neg (by rw [byteSize]; omega), ← ih]
    congr 1
    rw [byteSize]
    omega

theorem slice_append_left (before cs : List Char) (i j : Nat) :
    slice (before ++ cs) (byteSize before + i) (byteSize before + j) = slice cs i j := by
  rw [slice, slice, dropBytes_byteSize_add, Nat.add_sub_add_left]

theorem takeBytes_zero (cs : List Char) : takeBytes 0 cs = [] := by
  cases cs <;> rfl

theorem slice_append_right {cs : List Char} {i j : Nat} (first : IsOffset cs i)
    (last : IsOffset cs j) (behind : List Char) : slice (cs ++ behind) i j = slice cs i j := by
  obtain ⟨xs, rest, rfl, rfl⟩ := first
  obtain ⟨ys, rest', same, rfl⟩ := last
  rw [List.append_assoc, slice, slice, dropBytes_append, dropBytes_append]
  rcases List.append_eq_append_iff.1 same with ⟨inside, rfl, rfl⟩ | ⟨inside, rfl, rfl⟩
  · rw [byteSize_append, Nat.add_sub_cancel_left, List.append_assoc, takeBytes_append,
      takeBytes_append]
  · have none : byteSize ys - byteSize (ys ++ inside) = 0 := by
      rw [byteSize_append]
      omega
    rw [none, takeBytes_zero, takeBytes_zero]

end Text

open Text

theorem Lexes.isOffset {start : Nat} {cs : List Char} {ts : List Token}
    (lexes : Lexes start cs ts) : ∀ t ∈ ts,
      ∃ i j, IsOffset cs i ∧ IsOffset cs j ∧ t.start = start + i ∧ t.stop = start + j := by
  have later {front rest : List Char} {i : Nat} (offset : IsOffset rest i) :
      IsOffset (front ++ rest) (byteSize front + i) := by
    obtain ⟨xs, ys, rfl, rfl⟩ := offset
    exact ⟨front ++ xs, ys, by rw [List.append_assoc], byteSize_append front xs⟩
  induction lexes with
  | nil => simp
  | @gap start c cs rest ts front behind ih =>
    intro t mem
    obtain ⟨i, j, first, last, begins, ends⟩ := ih t mem
    rw [← List.cons_append]
    exact ⟨_, _, later first, later last, by rw [begins, Nat.add_assoc],
      by rw [ends, Nat.add_assoc]⟩
  | @token start c cs rest kind ts front behind ih =>
    rw [← List.cons_append, List.forall_mem_cons]
    constructor
    · exact ⟨0, byteSize (c :: cs), ⟨[], _, rfl, rfl⟩, ⟨c :: cs, rest, rfl, rfl⟩, rfl, rfl⟩
    · intro t mem
      obtain ⟨i, j, first, last, begins, ends⟩ := ih t mem
      exact ⟨_, _, later first, later last, by rw [begins, Nat.add_assoc],
        by rw [ends, Nat.add_assoc]⟩

/-- Tokens of one source as they stand in another one: `there` leads to the other source and
`back` from it. Kinds and slices stay. -/
structure Moved (source source' : List Char) (there back : Token → Token) (ts : List Token) :
    Prop where
  returns : ∀ t ∈ ts, back (there t) = t
  kind : ∀ t ∈ ts, (there t).kind = t.kind
  slice : ∀ o ∈ ts, ∀ c ∈ ts,
    slice source' (there o).start (there c).stop = slice source o.start c.stop

namespace Moved

variable {source source' : List Char} {there back : Token → Token} {ts : List Token}

theorem paired (moved : Moved source source' there back ts) : Paired there back ts :=
  ⟨moved.returns, moved.kind⟩

theorem symm (moved : Moved source source' there back ts) :
    Moved source' source back there (ts.map there) := by
  obtain ⟨returns, kind⟩ := moved.paired.symm
  refine ⟨returns, kind, ?_⟩
  simp only [List.forall_mem_map]
  intro o ho c hc
  rw [moved.returns o ho, moved.returns c hc, moved.slice o ho c hc]

/-- Texts between the same parentheses are the same where slices stay. -/
theorem texts_eq {texts texts' : List String} (moved : Moved source source' there back ts)
    (same : SameSpans source source' there ts texts texts') : texts' = texts := by
  obtain ⟨spans, enclosures, rfl, rfl⟩ := same
  refine List.map_congr_left fun span mem => ?_
  obtain ⟨opener, closer⟩ := enclosures.mem span mem
  rw [Text.between, Text.between, moved.slice _ opener _ closer]

end Moved

/-- The tokens of a text that is a part of another one. -/
theorem Lexes.moved_part {cs : List Char} {ts : List Token} (lexes : Lexes 0 cs ts)
    (before behind : List Char) :
    Moved cs (before ++ (cs ++ behind))
      (fun t => ⟨t.kind, byteSize before + t.start, byteSize before + t.stop⟩)
      (fun t => ⟨t.kind, t.start - byteSize before, t.stop - byteSize before⟩) ts := by
  refine ⟨fun t _ => by simp, fun t _ => rfl, fun o ho c hc => ?_⟩
  obtain ⟨i, _, first, _, begins, _⟩ := lexes.isOffset o ho
  obtain ⟨_, j, _, last, _, ends⟩ := lexes.isOffset c hc
  rw [Nat.zero_add] at begins ends
  rw [slice_append_left, begins, ends, slice_append_right first last]

theorem InParens.Derives.moved {source source' : List Char} {there back : Token → Token}
    {ts : List Token} {x : InParens} (moved : Moved source source' there back ts)
    (derives : InParens.Derives Feature.Reads source ts x) :
    InParens.Derives Feature.Reads source' (ts.map there) x := by
  obtain ⟨x', derives', alike⟩ := derives.exists_alike moved.paired
  rwa [← x.eq_of_outline x' alike.outline (moved.texts_eq alike.texts)]

/-- A source is read as the condition that its tokens derive. -/
theorem Condition.parse_eq_ok_iff {source : String} {ts : List Token}
    (lexed : tokenize source = .ok ts) {c : Condition} :
    Condition.parse source = .ok c ↔ Condition.Derives Feature.Reads source.toList ts c := by
  have items (n : Nat) := @InParens.readOff_derives source.toList n
  rw [Condition.derives_iff]
  constructor
  · intro read
    obtain ⟨ps, pieces, read⟩ := bind_eq_ok.1 read
    obtain ⟨gs, fits, rfl, rfl⟩ := (Piece.ofSource_eq_ok lexed).1 pieces
    obtain ⟨⟨c', rest⟩, condition, read⟩ := bind_eq_ok.1 read
    obtain ⟨_, ended, same⟩ := bind_eq_ok.1 read
    cases same
    cases rest with
    | nil => exact Condition.ofPieces_sound (items _) fits (Nat.le_refl _) condition
    | cons p ps => cases ended
  · intro form
    obtain ⟨gs, fits, made, reads⟩ :=
      Condition.ofPieces_complete (items _) (Nat.le_refl _) form
    have pieces := (Piece.ofSource_eq_ok lexed).2 ⟨gs, fits, made, rfl⟩
    exact bind_eq_ok.2 ⟨_, pieces, bind_eq_ok.2 ⟨_, reads _, rfl⟩⟩

theorem tokenize_eq_ok {source : String} {ts : List Token} :
    tokenize source = .ok ts ↔ Lexes 0 source.toList ts :=
  tokens_eq_ok

theorem Lexes.exists_text {source : List Char} {ts inside : List Token} {opener closer : Token}
    (lexes : Lexes 0 source ts) (place : opener :: (inside ++ [closer]) <:+: ts)
    (closes : closer.isClosing = true) :
    ∃ front text back, source = front ++ (text ++ ')' :: back) ∧
      opener.start = byteSize front ∧ closer.stop = byteSize (front ++ (text ++ [')'])) := by
  obtain ⟨before, after, whole⟩ := place
  have divided : ts = before ++ opener :: (inside ++ closer :: after) := by simp [← whole]
  rw [divided] at lexes
  obtain ⟨front, rest, rfl, begins, lexes⟩ := lexes.behind
  rw [← List.cons_append] at lexes
  rw [Nat.zero_add] at begins
  obtain ⟨text, back, rfl, _, rfl⟩ := lexes.upTo closes
  refine ⟨front, text, back, rfl, begins, ?_⟩
  dsimp only
  rw [begins, byteSize_append, byteSize_append, Nat.add_assoc]

/-- The text from a token to a later one or its own end, and the tokens that it has alone. -/
theorem Lexes.between {cs : List Char} {us vs ws : List Token} {t u : Token}
    (lexes : Lexes 0 cs (us ++ t :: (vs ++ ws))) (last : (t :: vs).getLast? = some u) :
    ∃ front text back alone, cs = front ++ (text ++ back) ∧ t.start = byteSize front ∧
      u.stop = byteSize front + byteSize text ∧ Lexes 0 text alone ∧
      t :: vs = alone.map fun w => ⟨w.kind, byteSize front + w.start, byteSize front + w.stop⟩ := by
  obtain ⟨front, rest, rfl, begins, lexes⟩ := lexes.behind
  rw [Nat.zero_add] at begins
  rw [begins, ← List.cons_append] at lexes
  obtain ⟨text, back, rfl, ends, lexes⟩ := lexes.upToEnd last
  rw [← Nat.add_zero (byteSize front)] at lexes
  obtain ⟨alone, lexes, same⟩ := lexes.rebased
  exact ⟨front, text, back, alone, rfl, begins, ends, lexes, same⟩

/-- A pair of parentheses in a source, with the tokens of its text alone. -/
theorem Lexes.exists_parens {cs : List Char} {before inside after : List Token}
    {opener closer : Token}
    (lexes : Lexes 0 cs (before ++ (opener :: (inside ++ [closer]) ++ after))) :
    ∃ us there back, Lexes 0 (slice cs opener.start closer.stop) us ∧
      Moved (slice cs opener.start closer.stop) cs there back us ∧
      us.map there = opener :: (inside ++ [closer]) := by
  have last : (opener :: (inside ++ [closer])).getLast? = some closer := by
    rw [← List.cons_append, List.getLast?_concat]
  obtain ⟨front, text, back, alone, rfl, begins, ends, lexes, same⟩ := lexes.between last
  rw [begins, ends, slice_append]
  exact ⟨alone, _, _, lexes, lexes.moved_part front back, same.symm⟩

theorem InParens.Derives.kept {source : List Char} {ts : List Token} {text : String}
    (derives : InParens.Derives Feature.Reads source ts (.enclosed text)) :
    ∃ opener inside closer, ts = opener :: (inside ++ [closer]) ∧ closer.isClosing = true ∧
      text = String.ofList (slice source opener.start closer.stop) := by
  cases derives with
  | function opens closes | enclosed opens closes => exact ⟨_, _, _, rfl, closes, rfl⟩

theorem Condition.Form.single {item : List Token → InParens → Prop} {ts : List Token}
    {x : InParens} (whole : item ts x) : Condition.Form item true ts (.single x) := by
  have form : Condition.Form item true (ts ++ []) (.single x) := .and whole .nil
  rwa [List.append_nil] at form

/-- Text that is kept as it is written in a source is read as itself. -/
theorem Condition.parse_enclosed {source : List Char} {before ts after : List Token} {text : String}
    (lexes : Lexes 0 source (before ++ (ts ++ after)))
    (derives : InParens.Derives Feature.Reads source ts (.enclosed text)) :
    Condition.parse text = .ok (.single (.enclosed text)) := by
  obtain ⟨opener, inside, closer, rfl, closes, kept⟩ := derives.kept
  obtain ⟨us, there, back, alone, moved, same⟩ := Lexes.exists_parens lexes
  rw [← same] at derives
  have itself := InParens.Derives.moved moved.symm derives
  rw [moved.paired.map_back] at itself
  have form := Condition.Form.single itself
  have lexed : tokenize text = .ok us := by rwa [tokenize_eq_ok, kept, String.toList_ofList]
  rw [Condition.parse_eq_ok_iff lexed, Condition.derives_iff, kept, String.toList_ofList]
  rwa [kept] at form

/-- Text that is read as text alone is read as text wherever its tokens stand. -/
theorem InParens.derives_enclosed {text : String}
    (alone : Condition.parse text = .ok (.single (.enclosed text))) (before behind : List Char) :
    ∃ ts, Lexes (Text.byteSize before) text.toList ts ∧
      InParens.Derives Feature.Reads (before ++ (text.toList ++ behind)) ts (.enclosed text) := by
  obtain ⟨ps, pieces, _⟩ := bind_eq_ok.1 alone
  obtain ⟨ts, lexed, _⟩ := bind_eq_ok.1 pieces
  have derives := (Condition.parse_eq_ok_iff lexed).1 alone
  have lexes := tokenize_eq_ok.1 lexed
  rw [Condition.derives_iff] at derives
  cases derives with
  | @and _ us vs _ _ first rest =>
    cases rest with
    | nil =>
      rw [List.append_nil] at lexes
      exact ⟨_, lexes.moved _, first.moved (lexes.moved_part before behind)⟩

end MediaQuery
