import MediaQuery.Query.Lexer

set_option autoImplicit false

namespace MediaQuery

namespace Text

theorem takeWhile_append_of_stop {p : Char → Bool} {b : Char} (stop : p b = false)
    (xs zs : List Char) : (xs ++ b :: zs).takeWhile p = xs.takeWhile p := by
  induction xs with
  | nil => simp [stop]
  | cons x xs ih => rw [List.cons_append, List.takeWhile_cons, List.takeWhile_cons, ih]

theorem dropWhile_append_of_stop {p : Char → Bool} {b : Char} (stop : p b = false)
    (xs zs : List Char) : (xs ++ b :: zs).dropWhile p = xs.dropWhile p ++ b :: zs := by
  induction xs with
  | nil => simp [stop]
  | cons x xs ih =>
    rw [List.cons_append, List.dropWhile_cons, List.dropWhile_cons, ih]
    split <;> rfl

end Text

namespace Decimal

/-- What no numeral in front of it takes in. -/
structure Terminator (isDigit : Char → Bool) (b : Char) : Prop where
  notDigit : isDigit b = false
  notMark : b ∉ ['-', '+', '.', 'e', 'E']

section Terminator

open Text

variable {isDigit : Char → Bool} {b : Char} (ends : Terminator isDigit b) (xs zs : List Char)

include ends

theorem splitSign_terminator :
    splitSign (xs ++ b :: zs) = ((splitSign xs).1, (splitSign xs).2 ++ b :: zs) := by
  have notMark := ends.notMark
  cases xs with
  | nil =>
    unfold splitSign
    split <;> simp_all
  | cons x xs =>
    unfold splitSign
    split <;> simp_all

theorem splitDigits_terminator : splitDigits isDigit (xs ++ b :: zs) =
    ((splitDigits isDigit xs).1, (splitDigits isDigit xs).2 ++ b :: zs) := by
  rw [splitDigits, takeWhile_append_of_stop ends.notDigit,
    dropWhile_append_of_stop ends.notDigit, splitDigits]

theorem splitFraction_terminator : splitFraction isDigit (xs ++ b :: zs) =
    ((splitFraction isDigit xs).1, (splitFraction isDigit xs).2 ++ b :: zs) := by
  have notMark := ends.notMark
  cases xs with
  | nil =>
    unfold splitFraction
    split <;> simp_all
  | cons x xs =>
    by_cases point : x = '.'
    · subst point
      simp only [List.cons_append, splitFraction, splitDigits_terminator ends]
      split <;> rfl
    · simp [splitFraction, point]

theorem splitPower_terminator : splitPower isDigit (xs ++ b :: zs) =
    ((splitPower isDigit xs).1, (splitPower isDigit xs).2 ++ b :: zs) := by
  have notMark := ends.notMark
  simp only [List.mem_cons, not_or] at notMark
  cases xs with
  | nil => simp [splitPower, notMark]
  | cons x xs =>
    simp only [List.cons_append, splitPower, splitSign_terminator ends, splitDigits_terminator ends]
    split
    · split <;> rfl
    · rfl

/-- A numeral is the same in front of anything that it cannot take in. -/
theorem splitNumeral?_terminator : splitNumeral? isDigit (xs ++ b :: zs) =
    (splitNumeral? isDigit xs).map fun (n, rest) => (n, rest ++ b :: zs) := by
  simp only [splitNumeral?, splitSign_terminator ends, splitDigits_terminator ends,
    splitFraction_terminator ends, splitPower_terminator ends]
  split <;> rfl

end Terminator

end Decimal

namespace Text

/-- What ends every lexeme in front of it, other than a comment. -/
structure Boundary (b : Char) : Prop where
  notName : isNameChar b = false
  notDecimal : isDecimal b = false
  notMark : b ∉ ['.', 'e', 'E', '+', '%', '(', '=', '*']

namespace Boundary

theorem space : Boundary ' ' := ⟨by decide, by decide, by decide⟩

theorem closing : Boundary ')' := ⟨by decide, by decide, by decide⟩

theorem comma : Boundary ',' := ⟨by decide, by decide, by decide⟩

theorem colon : Boundary ':' := ⟨by decide, by decide, by decide⟩

theorem slash : Boundary '/' := ⟨by decide, by decide, by decide⟩

variable {b : Char}

theorem not_begins (boundary : Boundary b) :
    (isLetter b || b == '_') = false ∧ (b == '-') = false := by
  have notName := boundary.notName
  simp only [isNameChar, Bool.or_eq_false_iff] at notName
  simp [notName]

theorem terminator (boundary : Boundary b) : Decimal.Terminator isDecimal b where
  notDigit := boundary.notDecimal
  notMark := by
    have notMark := boundary.notMark
    have notHyphen := boundary.not_begins.2
    simp_all

end Boundary

end Text

namespace Lexeme

open Text Decimal

theorem identSize_of_ne_hyphen {c : Char} (other : c ≠ '-') (cs : List Char) :
    identSize (c :: cs) =
      if isLetter c || c == '_' then 1 + (cs.takeWhile isNameChar).length else 0 := by
  unfold identSize
  split
  · simp_all
  · simp_all
  · rename_i same
    cases same
    rfl
  · simp_all

theorem identSize_hyphen (d : Char) (ds : List Char) :
    identSize ('-' :: d :: ds) =
      if d == '-' || isLetter d || d == '_' then 2 + (ds.takeWhile isNameChar).length else 0 := by
  by_cases hyphen : d = '-'
  · subst hyphen
    rfl
  · simp [identSize, hyphen]

theorem identSize_le_length (cs : List Char) : identSize cs ≤ cs.length := by
  have bound (ds : List Char) : (ds.takeWhile isNameChar).length ≤ ds.length :=
    (List.takeWhile_prefix _).length_le
  match cs with
  | [] => simp [identSize]
  | [c] => unfold identSize; split <;> simp_all; split <;> simp
  | c :: d :: ds =>
    by_cases hyphen : c = '-'
    · subst hyphen
      rw [identSize_hyphen]
      have := bound ds
      simp only [List.length_cons]
      split <;> omega
    · rw [identSize_of_ne_hyphen hyphen]
      have := bound (d :: ds)
      simp only [List.length_cons] at this ⊢
      split <;> omega

section Boundary

variable {b : Char} (boundary : Boundary b) (xs zs : List Char)

include boundary

theorem identSize_append : identSize (xs ++ b :: zs) = identSize xs := by
  obtain ⟨notLetter, notHyphen⟩ := boundary.not_begins
  have none : identSize (b :: zs) = 0 := by
    rw [identSize_of_ne_hyphen (by simpa using notHyphen), notLetter]
    rfl
  match xs with
  | [] => exact none
  | [c] =>
    by_cases hyphen : c = '-'
    · subst hyphen
      rw [List.cons_append, List.nil_append, identSize_hyphen, Bool.or_assoc, notLetter, notHyphen]
      rfl
    · have stop := takeWhile_append_of_stop boundary.notName [] zs
      rw [List.cons_append, identSize_of_ne_hyphen hyphen, identSize_of_ne_hyphen hyphen, stop]
  | c :: d :: ds =>
    have stop := takeWhile_append_of_stop boundary.notName
    rw [List.cons_append, List.cons_append]
    by_cases hyphen : c = '-'
    · subst hyphen
      rw [identSize_hyphen, identSize_hyphen, stop]
    · rw [identSize_of_ne_hyphen hyphen, identSize_of_ne_hyphen hyphen, ← List.cons_append, stop]

theorem ofNumeral_boundary (n : Numeral) : ofNumeral n (xs ++ b :: zs) = ofNumeral n xs := by
  have notMark := boundary.notMark
  have taken : (xs ++ b :: zs).take (identSize xs) = xs.take (identSize xs) :=
    List.take_append_of_le_length (identSize_le_length xs)
  have percent : (xs ++ b :: zs).head? = some '%' ↔ xs.head? = some '%' := by
    cases xs <;> simp_all
  simp only [ofNumeral, identSize_append boundary, taken, percent]

theorem ofIdent_boundary {size : Nat} (bound : size ≤ xs.length) :
    ofIdent size (xs ++ b :: zs) = ofIdent size xs := by
  have notMark := boundary.notMark
  have taken : (xs ++ b :: zs).take size = xs.take size := List.take_append_of_le_length bound
  have opening : ((xs ++ b :: zs).drop size).head? = some '(' ↔
      (xs.drop size).head? = some '(' := by
    rw [List.drop_append_of_le_length bound]
    cases xs.drop size <;> simp_all
  simp only [ofIdent, taken, opening]

end Boundary

theorem commentSize?_of_end {c : Char} {cs : List Char} (here : c = '*' ∧ cs.head? = some '/') :
    commentSize? (c :: cs) = some 2 := by
  obtain ⟨rfl, front⟩ := here
  obtain ⟨rest, rfl⟩ := List.head?_eq_some_iff.1 front
  rfl

theorem commentSize?_of_not_end {c : Char} {cs : List Char}
    (further : ¬(c = '*' ∧ cs.head? = some '/')) :
    commentSize? (c :: cs) = (commentSize? cs).map (· + 1) := by
  rw [commentSize?]
  rintro rest rfl rfl
  exact further ⟨rfl, rfl⟩

/-- A comment that ends in a text ends there whatever follows. -/
theorem commentSize?_append {n : Nat} {xs : List Char} (ends : commentSize? xs = some n)
    (ys : List Char) : commentSize? (xs ++ ys) = some n ∧ n ≤ xs.length := by
  induction xs generalizing n with
  | nil => cases ends
  | cons x xs ih =>
    rw [List.cons_append]
    by_cases here : x = '*' ∧ xs.head? = some '/'
    · rw [commentSize?_of_end here] at ends
      cases ends
      obtain ⟨rest, rfl⟩ := List.head?_eq_some_iff.1 here.2
      exact ⟨commentSize?_of_end ⟨here.1, rfl⟩, by simp⟩
    · rw [commentSize?_of_not_end here] at ends
      obtain ⟨size, found, rfl⟩ := Option.map_eq_some_iff.1 ends
      obtain ⟨same, bound⟩ := ih found
      have front : (xs ++ ys).head? = xs.head? := by
        cases xs with
        | nil => cases found
        | cons y xs => rfl
      rw [commentSize?_of_not_end (by rwa [front]), same, List.length_cons]
      exact ⟨rfl, by omega⟩

/-- A comment that does not end in a text reaches behind it. -/
theorem length_lt_of_commentSize? {n : Nat} {xs ys : List Char} (unended : commentSize? xs = none)
    (ends : commentSize? (xs ++ ys) = some n) : xs.length < n := by
  induction xs generalizing n with
  | nil =>
    cases ys with
    | nil => cases ends
    | cons y ys =>
      by_cases here : y = '*' ∧ ys.head? = some '/'
      · rw [List.nil_append, commentSize?_of_end here] at ends
        cases ends
        simp
      · rw [List.nil_append, commentSize?_of_not_end here] at ends
        obtain ⟨size, found, rfl⟩ := Option.map_eq_some_iff.1 ends
        simp
  | cons x xs ih =>
    by_cases here : x = '*' ∧ xs.head? = some '/'
    · rw [commentSize?_of_end here] at unended
      cases unended
    · rw [commentSize?_of_not_end here, Option.map_eq_none_iff] at unended
      rw [List.cons_append] at ends
      by_cases behind : x = '*' ∧ (xs ++ ys).head? = some '/'
      · rw [commentSize?_of_end behind] at ends
        cases ends
        cases xs with
        | nil => simp
        | cons y xs => exact absurd behind here
      · rw [commentSize?_of_not_end behind] at ends
        obtain ⟨size, found, rfl⟩ := Option.map_eq_some_iff.1 ends
        have bound := ih unended found
        rw [List.length_cons]
        omega

/-- The number of characters behind the first one that a lexeme takes in. -/
def reach : Lexeme → Nat
  | gap more | token _ more => more
  | fault _ => 0

theorem reach_ofNumeral (n : Numeral) (rest : List Char) :
    (ofNumeral n rest).reach ≤ n.chars.length + rest.length - 1 := by
  have bound := identSize_le_length rest
  unfold ofNumeral
  dsimp only
  split
  · exact Nat.zero_le _
  · split
    · simp only [reach]
      omega
    · split
      · rename_i percent
        obtain ⟨rest, rfl⟩ := List.head?_eq_some_iff.1 percent
        simp [reach]
      · simp only [reach]
        omega

theorem reach_ofIdent {size : Nat} {cs : List Char} (bound : size ≤ cs.length) :
    (ofIdent size cs).reach ≤ cs.length - 1 := by
  unfold ofIdent
  dsimp only
  split
  · rename_i opening
    obtain ⟨rest, more⟩ := List.head?_eq_some_iff.1 opening
    have length := congrArg List.length more
    simp only [List.length_drop, List.length_cons] at length
    simp only [reach]
    omega
  · simp only [reach]
    omega

theorem reach_comparison? {c : Char} {cs : List Char} {lexeme : Lexeme}
    (compares : comparison? c cs = some lexeme) : lexeme.reach ≤ cs.length := by
  unfold comparison? at compares
  split at compares <;> cases compares <;> simp [reach]

/-- A lexeme does not reach behind the text. -/
theorem reach_read (c : Char) (cs : List Char) : (read c cs).reach ≤ cs.length := by
  unfold read
  split
  · exact Nat.zero_le _
  · split
    · rename_i begins
      obtain ⟨rest, rfl⟩ := List.head?_eq_some_iff.1 begins.2
      cases ends : commentSize? (('*' :: rest).drop 1) with
      | none => exact Nat.zero_le _
      | some size =>
        have bound := (commentSize?_append ends []).2
        simp only [List.drop_succ_cons, List.drop_zero] at bound
        simp only [reach, List.length_cons]
        omega
    · split
      · exact Nat.zero_le _
      · split
        · exact reach_comparison? ‹_›
        · split
          · rename_i n rest divided
            have length := congrArg List.length (splitNumeral?_append _ _ _ _ divided)
            have bound := reach_ofNumeral n rest
            simp only [List.length_append, List.length_cons] at length
            omega
          · dsimp only
            split
            · exact reach_ofIdent (identSize_le_length _)
            · exact Nat.zero_le _

/-- What kinds of tokens there are, and what each is read from. -/
theorem read_cases {c : Char} {cs : List Char} {kind : TokenKind} {more : Nat}
    (reads : read c cs = .token kind more) :
    (punctuation? c = some kind ∧ more = 0) ∨ comparison? c cs = some (.token kind more) ∨
      (∃ n rest, ofNumeral n rest = .token kind more) ∨
      (0 < identSize (c :: cs) ∧ ofIdent (identSize (c :: cs)) (c :: cs) = .token kind more) ∨
      kind = .delim c := by
  unfold read at reads
  split at reads
  · cases reads
  · split at reads
    · split at reads <;> cases reads
    · split at reads
      · cases reads
        exact .inl ⟨‹_›, rfl⟩
      · split at reads
        · subst reads
          exact .inr (.inl ‹_›)
        · split at reads
          · exact .inr (.inr (.inl ⟨_, _, reads⟩))
          · dsimp only at reads
            split at reads
            · exact .inr (.inr (.inr (.inl ⟨‹_›, reads⟩)))
            · cases reads
              exact .inr (.inr (.inr (.inr rfl)))

theorem read_closing {c : Char} {cs : List Char} {more : Nat}
    (reads : read c cs = .token .closing more) : c = ')' ∧ more = 0 := by
  rcases read_cases reads with ⟨mark, none⟩ | compares | ⟨n, rest, numeral⟩ | ⟨_, ident⟩ | delim
  · unfold punctuation? at mark
    split at mark <;> cases mark
    exact ⟨rfl, none⟩
  · unfold comparison? at compares
    split at compares <;> cases compares
  · unfold ofNumeral at numeral
    grind
  · unfold ofIdent at ident
    grind
  · cases delim

theorem comparison?_boundary {b : Char} (boundary : Boundary b) (c : Char) (xs zs : List Char) :
    comparison? c (xs ++ b :: zs) = comparison? c xs := by
  have notMark := boundary.notMark
  cases xs with
  | nil => unfold comparison?; split <;> simp_all
  | cons x xs => unfold comparison?; split <;> simp_all

/-- What a lexeme is does not depend on what stands behind a boundary, unless it is a comment that
reaches there. -/
theorem read_boundary {b : Char} (boundary : Boundary b) (c : Char) (xs zs : List Char) :
    read c (xs ++ b :: zs) = read c xs ∨ read c xs = .fault .unterminatedComment := by
  have notMark := boundary.notMark
  have star : (xs ++ b :: zs).head? = some '*' ↔ xs.head? = some '*' := by
    cases xs <;> simp_all
  by_cases comment : ¬isBlank c = true ∧ c = '/' ∧ xs.head? = some '*'
  · obtain ⟨notBlank, rfl, front⟩ := comment
    obtain ⟨rest, rfl⟩ := List.head?_eq_some_iff.1 front
    simp only [read, notBlank, List.cons_append, List.head?_cons, List.drop_succ_cons,
      List.drop_zero, and_self, if_true]
    cases ends : commentSize? rest with
    | some size =>
      rw [(commentSize?_append ends _).1]
      exact .inl rfl
    | none => exact .inr rfl
  · refine .inl ?_
    by_cases blank : isBlank c = true
    · rw [read, read, if_pos blank, if_pos blank]
    · have numeral := splitNumeral?_terminator boundary.terminator (c :: xs) zs
      have ident := identSize_append boundary (c :: xs) zs
      have name := ofIdent_boundary boundary (c :: xs) zs (identSize_le_length _)
      have here : ¬(c = '/' ∧ xs.head? = some '*') := fun begins => comment ⟨blank, begins⟩
      have there : ¬(c = '/' ∧ (xs ++ b :: zs).head? = some '*') := fun begins =>
        here ⟨begins.1, star.1 begins.2⟩
      rw [List.cons_append] at numeral ident name
      simp only [read, if_neg blank, if_neg here, if_neg there, comparison?_boundary boundary,
        numeral, ident, name]
      cases splitNumeral? isDecimal (c :: xs) with
      | none => rfl
      | some parts => simp only [Option.map_some, ofNumeral_boundary boundary]

end Lexeme

open Text

/-- A text that begins at some byte, and its tokens. -/
inductive Lexes : Nat → List Char → List Token → Prop where
  | nil {start : Nat} : Lexes start [] []
  | gap {start : Nat} {c : Char} {cs rest : List Char} {ts : List Token}
      (front : Lexeme.read c (cs ++ rest) = .gap cs.length)
      (behind : Lexes (start + byteSize (c :: cs)) rest ts) : Lexes start (c :: (cs ++ rest)) ts
  | token {start : Nat} {c : Char} {cs rest : List Char} {kind : TokenKind} {ts : List Token}
      (front : Lexeme.read c (cs ++ rest) = .token kind cs.length)
      (behind : Lexes (start + byteSize (c :: cs)) rest ts) :
      Lexes start (c :: (cs ++ rest)) (⟨kind, start, start + byteSize (c :: cs)⟩ :: ts)

theorem Lexeme.exists_divided {c : Char} {cs : List Char} {more : Nat}
    (reach : (Lexeme.read c cs).reach = more) :
    ∃ front rest, cs = front ++ rest ∧ front.length = more :=
  ⟨cs.take more, cs.drop more, (List.take_append_drop more cs).symm,
    List.length_take_of_le (reach ▸ Lexeme.reach_read c cs)⟩

theorem tokens_eq_ok {start : Nat} {cs : List Char} {ts : List Token} :
    tokens start cs = .ok ts ↔ Lexes start cs ts := by
  constructor
  · intro read
    induction length : cs.length using Nat.strongRecOn generalizing start cs ts with
    | ind size ih =>
      cases cs with
      | nil =>
        -- An equation for each constructor would open all of `Lexeme.read`.
        rw [tokens.eq_def] at read
        cases read
        exact .nil
      | cons c cs =>
        rw [tokens.eq_def] at read
        dsimp only at read
        rw [List.length_cons] at length
        split at read
        · rename_i more front
          obtain ⟨cs, rest, rfl, rfl⟩ := Lexeme.exists_divided (congrArg Lexeme.reach front)
          rw [List.take_left, List.drop_left] at read
          rw [List.length_append] at length
          exact .gap front (ih rest.length (by omega) read rfl)
        · rename_i kind more front
          obtain ⟨cs, rest, rfl, rfl⟩ := Lexeme.exists_divided (congrArg Lexeme.reach front)
          simp only [List.take_left, List.drop_left] at read
          rw [List.length_append] at length
          cases further : tokens (start + byteSize (c :: cs)) rest with
          | error e =>
            rw [further] at read
            cases read
          | ok us =>
            rw [further] at read
            cases read
            exact .token front (ih rest.length (by omega) further rfl)
        · cases read
  · intro lexes
    induction lexes with
    | nil => rw [tokens.eq_def]
    | gap front behind ih =>
      rw [tokens.eq_def]
      simp only [front, List.take_left, List.drop_left, ih]
    | token front behind ih =>
      rw [tokens.eq_def]
      simp only [front, List.take_left, List.drop_left, ih]
      rfl

namespace Lexes

variable {start : Nat} {cs xs ys zs : List Char} {ts us vs : List Token} {t : Token} {b : Char}

theorem moved (lexes : Lexes start xs ts) (n : Nat) :
    Lexes (n + start) xs (ts.map fun t => ⟨t.kind, n + t.start, n + t.stop⟩) := by
  induction lexes with
  | nil => exact .nil
  | gap front behind ih =>
    rw [← Nat.add_assoc] at ih
    exact .gap front ih
  | token front behind ih =>
    rw [← Nat.add_assoc] at ih
    rw [List.map_cons, ← Nat.add_assoc]
    exact .token front ih

theorem read_append {c : Char} {cs rest : List Char} {lexeme : Lexeme} (boundary : Boundary b)
    (front : Lexeme.read c (cs ++ rest) = lexeme) (sound : ∀ fault, lexeme ≠ .fault fault) :
    Lexeme.read c (cs ++ (rest ++ b :: zs)) = lexeme := by
  rw [← List.append_assoc]
  rcases Lexeme.read_boundary boundary c (cs ++ rest) zs with same | fault
  · rw [same, front]
  · exact absurd (front.symm.trans fault) (sound _)

/-- The tokens of a text in front of a boundary stay as they are. -/
theorem append (boundary : Boundary b) (left : Lexes start xs ts)
    (right : Lexes (start + byteSize xs) (b :: zs) us) :
    Lexes start (xs ++ b :: zs) (ts ++ us) := by
  induction left with
  | nil => exact right
  | @gap start c cs rest ts front behind ih =>
    rw [List.cons_append, List.append_assoc]
    rw [← List.cons_append, byteSize_append, ← Nat.add_assoc] at right
    exact .gap (read_append boundary front nofun) (ih right)
  | @token start c cs rest kind ts front behind ih =>
    rw [List.cons_append, List.append_assoc]
    rw [← List.cons_append, byteSize_append, ← Nat.add_assoc] at right
    exact .token (read_append boundary front nofun) (ih right)

/-- The text from the start of a token on, and its tokens. -/
theorem behind (lexes : Lexes start cs (us ++ t :: vs)) :
    ∃ xs ys, cs = xs ++ ys ∧ t.start = start + byteSize xs ∧ Lexes t.start ys (t :: vs) := by
  generalize whole : us ++ t :: vs = ts at lexes
  induction lexes generalizing us with
  | nil => simp at whole
  | @gap start c cs rest ts front behind ih =>
    obtain ⟨xs, ys, rfl, begins, lexes⟩ := ih whole
    refine ⟨c :: cs ++ xs, ys, by simp, ?_, lexes⟩
    rw [begins, byteSize_append, Nat.add_assoc]
  | @token start c cs rest kind ts front behind ih =>
    cases us with
    | nil =>
      cases whole
      exact ⟨[], _, rfl, rfl, .token front behind⟩
    | cons u us =>
      obtain ⟨rfl, same⟩ := List.cons.inj whole
      obtain ⟨xs, ys, rfl, begins, lexes⟩ := ih same
      refine ⟨c :: cs ++ xs, ys, by simp, ?_, lexes⟩
      rw [begins, byteSize_append, Nat.add_assoc]

theorem rebased {n : Nat} (lexes : Lexes (n + start) cs ts) :
    ∃ us, Lexes start cs us ∧ ts = us.map fun t => ⟨t.kind, n + t.start, n + t.stop⟩ := by
  generalize whole : n + start = there at lexes
  induction lexes generalizing start with
  | nil => exact ⟨[], .nil, rfl⟩
  | gap front behind ih =>
    obtain ⟨us, lexes, rfl⟩ := ih (by rw [← whole, Nat.add_assoc])
    exact ⟨us, .gap front lexes, rfl⟩
  | token front behind ih =>
    obtain ⟨us, lexes, rfl⟩ := ih (by rw [← whole, Nat.add_assoc])
    subst whole
    exact ⟨_, .token front lexes, by rw [List.map_cons, Nat.add_assoc]⟩

end Lexes

end MediaQuery
