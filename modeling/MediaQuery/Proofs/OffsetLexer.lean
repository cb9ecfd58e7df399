import MediaQuery.Proofs.Access
import MediaQuery.Proofs.Lexing

set_option autoImplicit false

namespace MediaQuery

/-- The byte offset at which a mark is first found in a text. -/
def Text.find? (mark : List Char) : List Char → Option Nat
  | [] => none
  | c :: cs =>
    if mark.isPrefixOf (c :: cs) then some 0 else (find? mark cs).map (c.utf8Size + ·)

namespace ByOffset

open Text Lexeme Access

/-- The operator at an offset, one or two bytes long. -/
def comparisonAt (pos : Nat) (c : Char) (rest : List Char) : Access (Option TokenKind × Nat) := do
  let size ← if c = '=' then pure 1 else do
    let behind ← find (from? 1 rest)
    pure (if ['='].isPrefixOf behind then 2 else 1)
  let text ← find (upTo? size rest)
  let op ← find (Comparison.ofText? (String.ofList text))
  return (some (.comparison op), pos + size)

def numeralAt (source : List Char) (pos : Nat) (n : Decimal.Numeral) :
    Access (Option TokenKind × Nat) := do
  if n.isAscii = false then throw ⟨.invalidNumber (String.ofList n.chars), pos⟩
  let stop := pos + byteSize n.chars
  let behind ← find (from? stop source)
  let unit := behind.take (identSize behind)
  if 0 < identSize behind then
    return (some (.dimension n.toFloat (nameOf unit)), stop + byteSize unit)
  else if ['%'].isPrefixOf behind then return (some (.dimension n.toFloat "%"), stop + 1)
  else return (some (.number n.toFloat n.isInteger), stop)

def identAt (source : List Char) (pos : Nat) (name : List Char) :
    Access (Option TokenKind × Nat) := do
  let stop := pos + byteSize name
  let behind ← find (from? stop source)
  if ['('].isPrefixOf behind then return (some (.function (nameOf name)), stop + 1)
  else return (some (.ident (nameOf name)), stop)

/-- What stands at an offset, where the text `rest` begins with `c`: a token or a gap, and the
offset behind it. -/
def lexAt (source : List Char) (pos : Nat) (c : Char) (rest : List Char) :
    Access (Option TokenKind × Nat) :=
  if isBlank c then return (none, pos + c.utf8Size)
  else if ['/', '*'].isPrefixOf rest then do
    let inside ← find (from? 2 rest)
    match Text.find? ['*', '/'] inside with
    | some stop => return (none, pos + (stop + 4))
    | none => throw ⟨.unterminatedComment, pos⟩
  else match punctuation? c with
  | some kind => return (some kind, pos + 1)
  | none =>
    if c = '<' ∨ c = '>' ∨ c = '=' then comparisonAt pos c rest
    else match Decimal.splitNumeral? isDecimal rest with
    | some (n, _) => numeralAt source pos n
    | none =>
      if 0 < identSize rest then identAt source pos (rest.take (identSize rest))
      else return (some (.delim c), pos + c.utf8Size)

/-- The tokens of a text from an offset on. -/
def tokensFrom (source : List Char) (pos : Nat) : Access (List Token) :=
  if pos < byteSize source then do
    match ← find (from? pos source) with
    | [] => return []
    | c :: cs => do
      let (kind, next) ← lexAt source pos c (c :: cs)
      if pos < next then do
        let rest ← tokensFrom source next
        return match kind with
          | some kind => ⟨kind, pos, next⟩ :: rest
          | none => rest
      else astray
  else return []
termination_by byteSize source - pos

def tokenize (source : String) : Access (List Token) := tokensFrom source.toList 0

end ByOffset

open Text Lexeme Access Decimal

theorem Text.isPrefixOf_single {a : Char} {cs : List Char} :
    [a].isPrefixOf cs = true ↔ cs.head? = some a := by
  cases cs with
  | nil => simp [List.isPrefixOf]
  | cons c cs => simp [List.isPrefixOf, eq_comm (a := a)]

theorem Text.isPrefixOf_pair {a b c : Char} {cs : List Char} :
    [a, b].isPrefixOf (c :: cs) = true ↔ c = a ∧ cs.head? = some b := by
  cases cs with
  | nil => simp [List.isPrefixOf]
  | cons d cs => simp [List.isPrefixOf, eq_comm (a := a), eq_comm (a := b)]

/-- The mark that ends a comment is found where the comment ends. -/
theorem Text.find?_of_commentSize? {cs : List Char} {n : Nat} (ends : commentSize? cs = some n) :
    ∃ inside rest, cs = inside ++ '*' :: '/' :: rest ∧ n = inside.length + 2 ∧
      find? ['*', '/'] cs = some (byteSize inside) := by
  induction cs generalizing n with
  | nil => cases ends
  | cons c cs ih =>
    by_cases here : c = '*' ∧ cs.head? = some '/'
    · rw [commentSize?_of_end here] at ends
      cases ends
      obtain ⟨rfl, front⟩ := here
      obtain ⟨rest, rfl⟩ := List.head?_eq_some_iff.1 front
      exact ⟨[], rest, rfl, rfl, rfl⟩
    · rw [commentSize?_of_not_end here] at ends
      obtain ⟨size, found, rfl⟩ := Option.map_eq_some_iff.1 ends
      obtain ⟨inside, rest, rfl, rfl, again⟩ := ih found
      refine ⟨c :: inside, rest, rfl, rfl, ?_⟩
      rw [find?, if_neg (mt isPrefixOf_pair.1 here), again]
      rfl

theorem Text.find?_eq_none {cs : List Char} (unended : commentSize? cs = none) :
    find? ['*', '/'] cs = none := by
  induction cs with
  | nil => rfl
  | cons c cs ih =>
    by_cases here : c = '*' ∧ cs.head? = some '/'
    · rw [commentSize?_of_end here] at unended
      cases unended
    · rw [commentSize?_of_not_end here, Option.map_eq_none_iff] at unended
      rw [find?, if_neg (mt isPrefixOf_pair.1 here), ih unended]
      rfl

theorem Decimal.exists_cons_of_splitNumeral? {cs rest : List Char} {n : Numeral}
    (divided : splitNumeral? isDecimal cs = some (n, rest)) : ∃ d ds, n.chars = d :: ds := by
  simp only [splitNumeral?] at divided
  split at divided
  · cases divided
  · rename_i filled
    cases divided
    rw [← List.ne_nil_iff_exists_cons]
    intro none
    simp only [Numeral.chars, List.append_eq_nil_iff] at none
    obtain ⟨-, whole, fraction, -⟩ := none
    refine filled ?_
    rw [whole]
    cases found : (splitFraction isDecimal (splitDigits isDecimal (splitSign cs).2).2).1 with
    | none => rfl
    | some digits =>
      rw [found] at fraction
      cases fraction

namespace ByOffset

/-- What a lexeme at an offset comes to: its kind and the offset behind it, or its fault. -/
def ofLexeme (pos : Nat) (c : Char) (cs : List Char) : Lexeme → Access (Option TokenKind × Nat)
  | .gap more => return (none, pos + byteSize (c :: cs.take more))
  | .token kind more => return (some kind, pos + byteSize (c :: cs.take more))
  | .fault f => throw ⟨f, pos⟩

section Steps

variable {front cs rest : List Char} {c : Char} {n : Numeral}

theorem comparisonAt_eq_long (pos : Nat) {op : Comparison} (other : c ≠ '=')
    (narrow : c.utf8Size = 1) (reads : Comparison.ofText? (String.ofList [c, '=']) = some op)
    (rest : List Char) :
    comparisonAt pos c (c :: '=' :: rest) = pure (some (.comparison op), pos + 2) := by
  have behind : from? 1 (c :: '=' :: rest) = some ('=' :: rest) := by
    rw [← narrow]
    exact from?_append [c] ('=' :: rest)
  have text : upTo? 2 (c :: '=' :: rest) = some [c, '='] := by
    have size : byteSize [c, '='] = 2 := by rw [byteSize, narrow]; rfl
    rw [← size]
    exact upTo?_append [c, '='] rest
  have mark : ['='].isPrefixOf ('=' :: rest) = true := isPrefixOf_single.2 rfl
  simp only [comparisonAt, if_neg other, behind, find_some, pure_bind, mark, if_true, text, reads]

theorem comparisonAt_eq_short (pos : Nat) {op : Comparison} (short : c = '=' ∨ cs.head? ≠ some '=')
    (narrow : c.utf8Size = 1) (reads : Comparison.ofText? (String.ofList [c]) = some op) :
    comparisonAt pos c (c :: cs) = pure (some (.comparison op), pos + 1) := by
  have size : byteSize [c] = 1 := by rw [byteSize, narrow]; rfl
  have behind : from? 1 (c :: cs) = some cs := by
    rw [← size]
    exact from?_append [c] cs
  have text : upTo? 1 (c :: cs) = some [c] := by
    rw [← size]
    exact upTo?_append [c] cs
  by_cases mark : c = '='
  · simp only [comparisonAt, if_pos mark, pure_bind, text, find_some, reads]
  · have noMark : ['='].isPrefixOf cs = false := by
      rw [← Bool.not_eq_true]
      exact mt isPrefixOf_single.1 (short.resolve_left mark)
    simp only [comparisonAt, if_neg mark, behind, find_some, pure_bind, noMark, Bool.false_eq_true,
      if_false, text, reads]

theorem comparisonAt_eq (pos : Nat) (cs : List Char) (mark : c = '<' ∨ c = '>' ∨ c = '=') :
    ∃ lexeme, comparison? c cs = some lexeme ∧
      comparisonAt pos c (c :: cs) = ofLexeme pos c cs lexeme := by
  by_cases longer : cs.head? = some '='
  · obtain ⟨cs, rfl⟩ := List.head?_eq_some_iff.1 longer
    rcases mark with rfl | rfl | rfl
    · exact ⟨_, rfl, comparisonAt_eq_long pos (by decide) rfl (by decide) cs⟩
    · exact ⟨_, rfl, comparisonAt_eq_long pos (by decide) rfl (by decide) cs⟩
    · exact ⟨_, rfl, comparisonAt_eq_short pos (.inl rfl) rfl (by decide)⟩
  · rcases mark with rfl | rfl | rfl
    · refine ⟨.token (.comparison .lt) 0, ?_,
        comparisonAt_eq_short pos (.inr longer) rfl (by decide)⟩
      unfold comparison?
      split <;> simp_all
    · refine ⟨.token (.comparison .gt) 0, ?_,
        comparisonAt_eq_short pos (.inr longer) rfl (by decide)⟩
      unfold comparison?
      split <;> simp_all
    · exact ⟨_, rfl, comparisonAt_eq_short pos (.inl rfl) rfl (by decide)⟩

theorem comparison?_eq_none (noMark : ¬(c = '<' ∨ c = '>' ∨ c = '=')) :
    comparison? c cs = none := by
  unfold comparison?
  split <;> simp_all

theorem cons_take (c : Char) (cs : List Char) (n : Nat) : c :: cs.take n = (c :: cs).take (n + 1) :=
  rfl

theorem numeralAt_eq (divided : splitNumeral? isDecimal (c :: cs) = some (n, rest)) :
    numeralAt (front ++ c :: cs) (byteSize front) n =
      ofLexeme (byteSize front) c cs (ofNumeral n rest) := by
  have whole := splitNumeral?_append _ _ _ _ divided
  have filled : 0 < n.chars.length := by
    obtain ⟨d, ds, chars⟩ := exists_cons_of_splitNumeral? divided
    rw [chars]
    exact Nat.zero_lt_succ _
  have behind : from? (byteSize front + byteSize n.chars) (front ++ c :: cs) = some rest := by
    rw [← whole, ← List.append_assoc, ← byteSize_append]
    exact from?_append _ rest
  have reaches (more : Nat) : c :: cs.take (n.chars.length + more - 1) =
      n.chars ++ rest.take more := by
    rw [cons_take, Nat.sub_add_cancel (by omega), ← whole, List.take_append,
      Nat.add_sub_cancel_left, List.take_of_length_le (by omega)]
  unfold numeralAt ofNumeral
  cases ascii : n.isAscii with
  | false => rfl
  | true =>
    simp only [Bool.true_eq_false, if_false, behind, find_some, pure_bind, Bool.not_true,
      Bool.false_eq_true]
    split
    · rw [ofLexeme, reaches, byteSize_append, Nat.add_assoc]
    · split
      · rename_i mark
        rw [if_pos (isPrefixOf_single.1 mark)]
        obtain ⟨behind, rfl⟩ := List.head?_eq_some_iff.1 (isPrefixOf_single.1 mark)
        have one := reaches 1
        rw [Nat.add_sub_cancel] at one
        rw [ofLexeme, one, byteSize_append, Nat.add_assoc]
        rfl
      · rename_i mark
        have none := reaches 0
        rw [Nat.add_zero] at none
        rw [if_neg (mt isPrefixOf_single.2 mark), ofLexeme, none, List.take_zero, List.append_nil]

theorem identAt_eq {size : Nat} (some : 0 < size) :
    identAt (front ++ c :: cs) (byteSize front) ((c :: cs).take size) =
      ofLexeme (byteSize front) c cs (ofIdent size (c :: cs)) := by
  have behind : from? (byteSize front + byteSize ((c :: cs).take size)) (front ++ c :: cs) =
      Option.some ((c :: cs).drop size) := by
    rw [← byteSize_append]
    conv => enter [1, 2]; rw [← List.take_append_drop size (c :: cs), ← List.append_assoc]
    exact from?_append _ _
  simp only [identAt, behind, find_some, pure_bind, ofIdent]
  split
  · rename_i mark
    rw [if_pos (isPrefixOf_single.1 mark)]
    obtain ⟨rest, more⟩ := List.head?_eq_some_iff.1 (isPrefixOf_single.1 mark)
    rw [ofLexeme, cons_take, List.take_add, more, byteSize_append, Nat.add_assoc]
    rfl
  · rename_i mark
    rw [if_neg (mt isPrefixOf_single.2 mark), ofLexeme, cons_take, Nat.sub_add_cancel some]

theorem utf8Size_of_punctuation? {kind : TokenKind} (mark : punctuation? c = some kind) :
    c.utf8Size = 1 := by
  unfold punctuation? at mark
  split at mark
  · rfl
  · rfl
  · rfl
  · rfl
  · rfl
  · cases mark

theorem commentAt_eq (pos : Nat) (cs : List Char) :
    (match Text.find? ['*', '/'] cs with
      | some stop => pure (none, pos + (stop + 4))
      | none => throw ⟨.unterminatedComment, pos⟩) =
    ofLexeme pos '/' ('*' :: cs) (match commentSize? cs with
      | some size => .gap (1 + size)
      | none => .fault .unterminatedComment) := by
  cases ends : commentSize? cs with
  | none =>
    rw [find?_eq_none ends]
    rfl
  | some size =>
    obtain ⟨inside, rest, rfl, rfl, found⟩ := find?_of_commentSize? ends
    have taken : ('*' :: (inside ++ '*' :: '/' :: rest)).take (1 + (inside.length + 2)) =
        '*' :: (inside ++ ['*', '/']) := by
      rw [Nat.add_comm 1, List.take_succ_cons, List.take_length_add_append]
      rfl
    have marks : byteSize ('/' :: '*' :: (inside ++ ['*', '/'])) = byteSize inside + 4 := by
      have two : byteSize ['/', '*'] = 2 ∧ byteSize ['*', '/'] = 2 := ⟨rfl, rfl⟩
      have parts : '/' :: '*' :: (inside ++ ['*', '/']) = ['/', '*'] ++ (inside ++ ['*', '/']) :=
        rfl
      rw [parts, byteSize_append, byteSize_append]
      omega
    rw [found, ofLexeme, taken, marks]

/-- What the lexer finds at an offset is what is read off the front of the text there. -/
theorem lexAt_eq (front cs : List Char) (c : Char) :
    lexAt (front ++ c :: cs) (byteSize front) c (c :: cs) =
      ofLexeme (byteSize front) c cs (Lexeme.read c cs) := by
  unfold lexAt Lexeme.read
  split
  · rfl
  · by_cases comment : c = '/' ∧ cs.head? = some '*'
    · rw [if_pos (isPrefixOf_pair.2 comment), if_pos comment]
      obtain ⟨rfl, star⟩ := comment
      obtain ⟨cs, rfl⟩ := List.head?_eq_some_iff.1 star
      have behind : from? 2 ('/' :: '*' :: cs) = some cs := from?_append ['/', '*'] cs
      simp only [behind, find_some, pure_bind]
      exact commentAt_eq _ cs
    · rw [if_neg (mt isPrefixOf_pair.1 comment), if_neg comment]
      cases mark : punctuation? c with
      | some kind =>
        rw [← utf8Size_of_punctuation? mark]
        rfl
      | none =>
        dsimp only
        split
        · rename_i mark
          obtain ⟨lexeme, compares, reads⟩ := comparisonAt_eq (byteSize front) cs mark
          rw [reads, compares]
        · rename_i noMark
          rw [comparison?_eq_none noMark]
          cases divided : splitNumeral? isDecimal (c :: cs) with
          | some found => exact numeralAt_eq divided
          | none =>
            dsimp only
            split
            · exact identAt_eq ‹_›
            · rfl

end Steps

/-- The tokens from an offset on are those of the text there. -/
theorem tokensFrom_eq (front cs : List Char) :
    tokensFrom (front ++ cs) (byteSize front) = ofExcept (tokens (byteSize front) cs) := by
  induction length : cs.length using Nat.strongRecOn generalizing front cs with
  | ind size ih =>
    rw [tokensFrom, tokens.eq_def]
    cases cs with
    | nil =>
      rw [List.append_nil, if_neg (Nat.lt_irrefl _)]
      rfl
    | cons c cs =>
      have inside : byteSize front < byteSize (front ++ c :: cs) := by
        have positive := c.utf8Size_pos
        rw [byteSize_append, byteSize]
        omega
      have advances (ds : List Char) : byteSize front < byteSize front + byteSize (c :: ds) := by
        have positive := c.utf8Size_pos
        rw [byteSize]
        omega
      rw [List.length_cons] at length
      -- What is left behind a lexeme, and the tokens there.
      have further (more : Nat) (reach : (Lexeme.read c cs).reach = more) :
          tokensFrom (front ++ c :: cs) (byteSize front + byteSize (c :: cs.take more)) =
            ofExcept (tokens (byteSize front + byteSize (c :: cs.take more)) (cs.drop more)) := by
        obtain ⟨ds, rest, rfl, rfl⟩ := Lexeme.exists_divided reach
        rw [List.take_left, List.drop_left, ← byteSize_append]
        have whole : front ++ c :: (ds ++ rest) = (front ++ c :: ds) ++ rest := by simp
        rw [List.length_append] at length
        rw [whole]
        exact ih rest.length (by omega) _ rest rfl
      simp only [if_pos inside, from?_append, find_some, pure_bind, lexAt_eq]
      cases found : Lexeme.read c cs with
      | fault f => rfl
      | gap more =>
        have rest := further more (congrArg reach found)
        simp only [ofLexeme, pure_bind, if_pos (advances _), rest, bind_pure]
      | token kind more =>
        have rest := further more (congrArg reach found)
        simp only [ofLexeme, pure_bind, if_pos (advances _), rest, ofExcept_bind]
        rfl

/-- Splitting by offsets never goes astray, and it finds the tokens of the text. -/
theorem tokenize_eq (source : String) :
    tokenize source = ofExcept (MediaQuery.tokenize source) :=
  tokensFrom_eq [] source.toList

end ByOffset

end MediaQuery
