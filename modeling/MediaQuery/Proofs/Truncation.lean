import MediaQuery.Proofs.Spelling

set_option autoImplicit false

namespace MediaQuery

namespace Text

variable {p : Char → Bool} {xs ys : List Char}

theorem takeWhile_prefix_append (p : Char → Bool) (xs ys : List Char) :
    xs.takeWhile p <+: (xs ++ ys).takeWhile p := by
  induction xs with
  | nil => exact List.nil_prefix
  | cons x xs ih =>
    rw [List.cons_append, List.takeWhile_cons, List.takeWhile_cons]
    split
    · exact List.cons_prefix_cons.2 ⟨rfl, ih⟩
    · exact List.prefix_rfl

/-- What a class of characters takes of a text it takes of every part that is long enough. -/
theorem takeWhile_of_length_le (short : ((xs ++ ys).takeWhile p).length ≤ xs.length) :
    xs.takeWhile p = (xs ++ ys).takeWhile p := by
  induction xs with
  | nil => exact (List.eq_nil_of_length_eq_zero (Nat.le_zero.1 short)).symm
  | cons x xs ih =>
    rw [List.cons_append, List.takeWhile_cons] at short ⊢
    rw [List.takeWhile_cons]
    split
    · rename_i inside
      rw [if_pos inside] at short
      rw [ih (Nat.le_of_succ_le_succ short)]
    · rfl

theorem nil_of_append_eq {front rest : List Char} (same : front ++ (rest ++ ys) = ys) :
    front = [] ∧ rest = [] := by
  rwa [← List.append_assoc, List.append_left_eq_self, List.append_eq_nil_iff] at same

end Text

namespace Decimal

open Text

variable {xs ys rest : List Char}

theorem splitSign_cons_append (x : Char) (xs ys : List Char) :
    splitSign (x :: xs ++ ys) = ((splitSign (x :: xs)).1, (splitSign (x :: xs)).2 ++ ys) := by
  by_cases isMinus : x = '-'
  · rw [isMinus]
    rfl
  · by_cases isPlus : x = '+'
    · rw [isPlus]
      rfl
    · rw [splitSign_of_ne isMinus isPlus, List.cons_append, splitSign_of_ne isMinus isPlus]

theorem splitSign_of_append {sign : List Char}
    (divided : splitSign (xs ++ ys) = (sign, rest ++ ys)) : splitSign xs = (sign, rest) := by
  cases xs with
  | nil =>
    have whole := splitSign_append ([] ++ ys)
    rw [divided] at whole
    obtain ⟨rfl, rfl⟩ := nil_of_append_eq whole
    rfl
  | cons x xs =>
    rw [splitSign_cons_append, Prod.mk.injEq, List.append_cancel_right_eq] at divided
    exact Prod.ext divided.1 divided.2

theorem splitDigits_of_append {digits : List Char}
    (divided : splitDigits isDecimal (xs ++ ys) = (digits, rest ++ ys)) :
    splitDigits isDecimal xs = (digits, rest) := by
  have parts : digits ++ rest = xs := by
    have whole := splitDigits_append isDecimal (xs ++ ys)
    rw [divided, ← List.append_assoc] at whole
    exact List.append_cancel_right whole
  have taken : (xs ++ ys).takeWhile isDecimal = digits := congrArg Prod.fst divided
  have same : xs.takeWhile isDecimal = digits := by
    rw [← taken]
    refine takeWhile_of_length_le ?_
    rw [taken, ← parts, List.length_append]
    exact Nat.le_add_right _ _
  have split : digits ++ xs.dropWhile isDecimal = digits ++ rest := by
    rw [parts, ← same, List.takeWhile_append_dropWhile]
  exact Prod.ext same (List.append_cancel_left split)

/-- Where no digits are taken, none are taken of a part. -/
theorem isEmpty_digits_of_append (xs ys : List Char)
    (none : (splitDigits isDecimal (xs ++ ys)).1.isEmpty = true) :
    (splitDigits isDecimal xs).1.isEmpty = true := by
  rw [List.isEmpty_iff] at none ⊢
  have front : (splitDigits isDecimal xs).1 <+: (splitDigits isDecimal (xs ++ ys)).1 :=
    takeWhile_prefix_append isDecimal xs ys
  rw [none] at front
  exact List.prefix_nil.1 front

theorem splitFraction_of_append {fraction : Option (List Char)}
    (divided : splitFraction isDecimal (xs ++ ys) = (fraction, rest ++ ys)) :
    splitFraction isDecimal xs = (fraction, rest) := by
  cases xs with
  | nil =>
    have whole := splitFraction_append isDecimal ([] ++ ys)
    rw [divided] at whole
    obtain ⟨none, rfl⟩ := nil_of_append_eq whole
    cases fraction with
    | none => rfl
    | some digits => cases none
  | cons x xs =>
    by_cases isPoint : x = '.'
    · subst isPoint
      simp only [List.cons_append, splitFraction] at divided ⊢
      split at divided
      · rename_i none
        rw [Prod.mk.injEq, ← List.cons_append, List.append_cancel_right_eq] at divided
        rw [if_pos (isEmpty_digits_of_append xs ys none)]
        exact Prod.ext divided.1 divided.2
      · rename_i some
        obtain ⟨rfl, behind⟩ := Prod.mk.inj divided
        have digits := splitDigits_of_append (Prod.ext rfl behind)
        rw [digits, if_neg some]
    · rw [List.cons_append, splitFraction_of_ne isPoint, ← List.cons_append, Prod.mk.injEq,
        List.append_cancel_right_eq] at divided
      rw [splitFraction_of_ne isPoint]
      exact Prod.ext divided.1 divided.2

theorem splitPower_of_append {power : Option Power}
    (divided : splitPower isDecimal (xs ++ ys) = (power, rest ++ ys)) :
    splitPower isDecimal xs = (power, rest) := by
  cases xs with
  | nil =>
    have whole := splitPower_append isDecimal ([] ++ ys)
    rw [divided] at whole
    obtain ⟨none, rfl⟩ := nil_of_append_eq whole
    cases power with
    | none => rfl
    | some power => cases none
  | cons x xs =>
    simp only [List.cons_append, splitPower] at divided ⊢
    split at divided
    · rename_i mark
      rw [if_pos mark]
      split at divided
      · rename_i none
        rw [Prod.mk.injEq, ← List.cons_append, List.append_cancel_right_eq] at divided
        have short : (splitDigits isDecimal (splitSign xs).2).1.isEmpty = true := by
          cases xs with
          | nil => rfl
          | cons y xs =>
            rw [splitSign_cons_append] at none
            exact isEmpty_digits_of_append _ ys none
        rw [if_pos short]
        exact Prod.ext divided.1 divided.2
      · rename_i some
        obtain ⟨rfl, behind⟩ := Prod.mk.inj divided
        have digits := splitDigits_append isDecimal (splitSign (xs ++ ys)).2
        rw [behind, ← List.append_assoc] at digits
        have sign := splitSign_of_append (Prod.ext rfl digits.symm)
        rw [← digits] at behind some ⊢
        have power := splitDigits_of_append (Prod.ext rfl behind)
        rw [sign]
        dsimp only
        rw [power, if_neg some]
    · rename_i noMark
      rw [Prod.mk.injEq, ← List.cons_append, List.append_cancel_right_eq] at divided
      rw [if_neg noMark]
      exact Prod.ext divided.1 divided.2

/-- A numeral that ends in a part of a text is found there. -/
theorem splitNumeral?_of_append {n : Numeral}
    (divided : splitNumeral? isDecimal (xs ++ ys) = some (n, rest ++ ys)) :
    splitNumeral? isDecimal xs = some (n, rest) := by
  have front {taken behind whole : List Char} (split : taken ++ (behind ++ ys) = whole) :
      ∃ part, whole = part ++ ys :=
    ⟨taken ++ behind, by rw [← split, List.append_assoc]⟩
  simp only [splitNumeral?] at divided ⊢
  cases signed : splitSign (xs ++ ys) with | mk sign afterSign
  cases digits : splitDigits isDecimal afterSign with | mk whole afterWhole
  cases pointed : splitFraction isDecimal afterWhole with | mk fraction afterFraction
  cases powered : splitPower isDecimal afterFraction with | mk power afterPower
  simp only [signed, digits, pointed, powered] at divided
  split at divided
  · cases divided
  · rename_i some
    obtain ⟨rfl, rfl⟩ := Prod.mk.inj (Option.some.inj divided)
    obtain ⟨xs₃, rfl⟩ := front (powered ▸ splitPower_append isDecimal afterFraction)
    obtain ⟨xs₂, rfl⟩ := front (pointed ▸ splitFraction_append isDecimal afterWhole)
    obtain ⟨xs₁, rfl⟩ := front (digits ▸ splitDigits_append isDecimal afterSign)
    simp only [splitSign_of_append signed, splitDigits_of_append digits,
      splitFraction_of_append pointed, splitPower_of_append powered, if_neg some]

theorem splitDigits_of_isEmpty {zs : List Char}
    (none : (splitDigits isDecimal zs).1.isEmpty = true) : splitDigits isDecimal zs = ([], zs) := by
  have whole := splitDigits_append isDecimal zs
  rw [List.isEmpty_iff] at none
  rw [none, List.nil_append] at whole
  exact Prod.ext none whole

theorem isNone_fraction_of_append (none : (splitFraction isDecimal (xs ++ ys)).1.isNone = true) :
    (splitFraction isDecimal xs).1.isNone = true := by
  cases xs with
  | nil => rfl
  | cons x xs =>
    by_cases isPoint : x = '.'
    · subst isPoint
      simp only [List.cons_append, splitFraction] at none ⊢
      split at none
      · rename_i noDigits
        rw [if_pos (isEmpty_digits_of_append xs ys noDigits)]
        rfl
      · cases none
    · rw [splitFraction_of_ne isPoint]
      rfl

/-- Where a text does not begin with a numeral, no part of it does. -/
theorem splitNumeral?_eq_none_of_append (none : splitNumeral? isDecimal (xs ++ ys) = none) :
    splitNumeral? isDecimal xs = .none := by
  cases xs with
  | nil => rfl
  | cons x xs =>
    simp only [splitNumeral?, splitSign_cons_append] at none ⊢
    generalize (splitSign (x :: xs)).2 = zs at none ⊢
    split at none
    · rename_i nothing
      rw [Bool.and_eq_true] at nothing
      obtain ⟨noWhole, noFraction⟩ := nothing
      rw [splitDigits_of_isEmpty noWhole] at noFraction
      rw [splitDigits_of_isEmpty (isEmpty_digits_of_append zs ys noWhole),
        isNone_fraction_of_append noFraction]
      rfl
    · cases none

end Decimal

namespace Lexeme

open Text Decimal

variable {xs ys : List Char}

theorem identSize_of_append (short : identSize (xs ++ ys) ≤ xs.length) :
    identSize xs = identSize (xs ++ ys) := by
  match xs with
  | [] => exact (Nat.le_zero.1 short).symm
  | [c] =>
    rw [List.cons_append, List.nil_append, List.length_singleton] at *
    by_cases hyphen : c = '-'
    · subst hyphen
      cases ys with
      | nil => rfl
      | cons d ds =>
        rw [identSize_hyphen] at short ⊢
        split at short
        · omega
        · rename_i noName
          rw [if_neg noName]
          rfl
    · rw [identSize_of_ne_hyphen hyphen] at short ⊢
      rw [identSize_of_ne_hyphen hyphen]
      split
      · rename_i begins
        rw [if_pos begins] at short
        have none : (ys.takeWhile isNameChar).length = 0 := by omega
        rw [none, List.takeWhile_nil, List.length_nil]
      · rfl
  | c :: d :: ds =>
    rw [List.cons_append, List.cons_append, List.length_cons, List.length_cons] at *
    by_cases hyphen : c = '-'
    · subst hyphen
      rw [identSize_hyphen] at short ⊢
      rw [identSize_hyphen]
      split
      · rename_i begins
        rw [if_pos begins] at short
        have same : ds.takeWhile isNameChar = (ds ++ ys).takeWhile isNameChar :=
          takeWhile_of_length_le (by omega)
        rw [same]
      · rfl
    · rw [identSize_of_ne_hyphen hyphen] at short ⊢
      rw [identSize_of_ne_hyphen hyphen]
      split
      · rename_i begins
        rw [if_pos begins] at short
        have same : (d :: ds).takeWhile isNameChar = (d :: ds ++ ys).takeWhile isNameChar :=
          takeWhile_of_length_le (by rw [List.cons_append, List.length_cons]; omega)
        rw [same, List.cons_append]
      · rfl

theorem ofNumeral_of_append {n : Numeral}
    (sound : ∀ f, ofNumeral n (xs ++ ys) ≠ fault f)
    (short : (ofNumeral n (xs ++ ys)).reach < n.chars.length + xs.length) :
    ofNumeral n xs = ofNumeral n (xs ++ ys) := by
  simp only [ofNumeral] at sound short ⊢
  by_cases ascii : n.isAscii = true
  · simp only [ascii, Bool.not_true, Bool.false_eq_true, if_false] at sound short ⊢
    have same : identSize xs = identSize (xs ++ ys) := by
      refine identSize_of_append ?_
      split at short
      · simp only [reach] at short
        omega
      · omega
    rw [same]
    split
    · have bound : identSize (xs ++ ys) ≤ xs.length := same ▸ identSize_le_length xs
      rw [List.take_append_of_le_length bound]
    · rename_i noUnit
      rw [if_neg noUnit] at short
      cases xs with
      | cons x xs => rfl
      | nil =>
        split at short
        · exact absurd short (Nat.lt_irrefl _)
        · rename_i noPercent
          rw [if_neg noPercent]
          rfl
  · simp only [ascii, Bool.not_false, if_true] at sound
    exact absurd rfl (sound _)

theorem ofIdent_of_append {size : Nat} (bound : size ≤ xs.length)
    (short : (ofIdent size (xs ++ ys)).reach < xs.length) :
    ofIdent size xs = ofIdent size (xs ++ ys) := by
  have taken : (xs ++ ys).take size = xs.take size := List.take_append_of_le_length bound
  simp only [ofIdent, taken] at short ⊢
  rw [List.drop_append_of_le_length bound] at short ⊢
  cases behind : xs.drop size with
  | cons x xs => rfl
  | nil =>
    rw [behind, List.nil_append] at short
    split at short
    · have far : xs.length ≤ size := List.drop_eq_nil_iff.1 behind
      exact absurd short (Nat.not_lt.2 far)
    · rename_i noOpening
      rw [List.nil_append, if_neg noOpening]
      rfl

theorem comparison?_of_append {c : Char} {lexeme : Lexeme}
    (compares : comparison? c (xs ++ ys) = some lexeme) (short : lexeme.reach ≤ xs.length) :
    comparison? c xs = some lexeme := by
  cases xs with
  | nil =>
    unfold comparison? at compares
    split at compares <;> cases compares <;> first | rfl | exact absurd short (by decide)
  | cons x xs =>
    have same : (x :: xs).head? = some '=' ↔ (x :: xs ++ ys).head? = some '=' := Iff.rfl
    rwa [comparison?_congr same]

theorem commentSize?_of_append {n : Nat} (ends : commentSize? (xs ++ ys) = some n)
    (short : n ≤ xs.length) : commentSize? xs = some n := by
  cases found : commentSize? xs with
  | none => exact absurd (length_lt_of_commentSize? found ends) (Nat.not_lt.2 short)
  | some m => rw [← ends, (commentSize?_append found ys).1]

theorem length_chars_le_reach {n : Numeral} {rest : List Char}
    (sound : ∀ f, ofNumeral n rest ≠ fault f) : n.chars.length ≤ (ofNumeral n rest).reach + 1 := by
  unfold ofNumeral at sound ⊢
  dsimp only at sound ⊢
  split
  · rename_i noAscii
    rw [if_pos noAscii] at sound
    exact absurd rfl (sound _)
  · split
    · simp only [reach]
      omega
    · split <;> simp only [reach] <;> omega

theorem size_le_reach (size : Nat) (cs : List Char) : size ≤ (ofIdent size cs).reach + 1 := by
  unfold ofIdent
  dsimp only
  split <;> simp only [reach] <;> omega

theorem isPlain_of_none {c : Char} {cs : List Char} (noBlank : ¬isBlank c = true)
    (noMark : punctuation? c = none) (noOperator : comparison? c cs = none) :
    isPlain c = true := by
  unfold punctuation? at noMark
  unfold comparison? at noOperator
  split at noMark <;> cases noMark
  split at noOperator <;> simp_all [isPlain]

theorem read_plain_of_append {c : Char} {lexeme : Lexeme} (plain : isPlain c = true)
    (reads : read c (xs ++ ys) = lexeme) (sound : ∀ f, lexeme ≠ fault f)
    (short : lexeme.reach ≤ xs.length) : read c xs = lexeme := by
  rw [read_of_isPlain plain, ← List.cons_append] at reads
  rw [read_of_isPlain plain]
  cases numeral : splitNumeral? isDecimal (c :: xs ++ ys) with
  | some parts =>
    obtain ⟨n, rest⟩ := parts
    rw [numeral] at reads
    dsimp only at reads
    subst reads
    have whole := Decimal.splitNumeral?_append _ _ _ _ numeral
    have inside := length_chars_le_reach sound
    obtain ⟨front, rfl⟩ : ∃ front, rest = front ++ ys := by
      rcases List.append_eq_append_iff.1 whole with ⟨front, _, same⟩ | ⟨behind, longer, rfl⟩
      · exact ⟨front, same⟩
      · have length := congrArg List.length longer
        rw [List.length_append, List.length_cons] at length
        obtain rfl : behind = [] := List.eq_nil_of_length_eq_zero (by omega)
        exact ⟨[], rfl⟩
    rw [← List.append_assoc] at whole
    have part := congrArg List.length (List.append_cancel_right whole)
    rw [List.length_append, List.length_cons] at part
    rw [splitNumeral?_of_append numeral]
    exact ofNumeral_of_append sound (by omega)
  | none =>
    rw [numeral] at reads
    rw [splitNumeral?_eq_none_of_append numeral]
    dsimp only at reads ⊢
    have same : identSize (c :: xs) = identSize (c :: xs ++ ys) := by
      refine identSize_of_append ?_
      split at reads
      · have inside := size_le_reach (identSize (c :: xs ++ ys)) (c :: xs ++ ys)
        rw [reads] at inside
        exact Nat.le_trans inside (Nat.succ_le_succ short)
      · omega
    rw [← same] at reads
    split at reads
    · rename_i some
      rw [if_pos some, ← reads]
      rw [← reads] at short
      exact ofIdent_of_append (identSize_le_length _) (Nat.lt_succ_of_le short)
    · rename_i noName
      rw [if_neg noName, ← reads]

/-- A lexeme that ends in a part of a text is found there. -/
theorem read_of_append {c : Char} {lexeme : Lexeme} (reads : read c (xs ++ ys) = lexeme)
    (sound : ∀ f, lexeme ≠ fault f) (short : lexeme.reach ≤ xs.length) : read c xs = lexeme := by
  by_cases plain : isPlain c = true
  · exact read_plain_of_append plain reads sound short
  · by_cases blank : isBlank c = true
    · rw [read, if_pos blank] at reads ⊢
      exact reads
    · by_cases comment : c = '/' ∧ (xs ++ ys).head? = some '*'
      · rw [read, if_neg blank, if_pos comment] at reads
        split at reads
        · rename_i size ends
          subst reads
          rw [reach] at short
          cases xs with
          | nil =>
            rw [List.length_nil] at short
            omega
          | cons x xs =>
            have front : c = '/' ∧ (x :: xs).head? = some '*' := comment
            rw [List.length_cons] at short
            have body : commentSize? xs = some size := commentSize?_of_append ends (by omega)
            have tail : (x :: xs).drop 1 = xs := rfl
            rw [read, if_neg blank, if_pos front, tail, body]
        · exact absurd reads.symm (sound _)
      · have noComment : ¬(c = '/' ∧ xs.head? = some '*') := fun front =>
          comment ⟨front.1, by rw [List.head?_append, front.2]; rfl⟩
        rw [read, if_neg blank, if_neg comment] at reads
        rw [read, if_neg blank, if_neg noComment]
        cases mark : punctuation? c with
        | some kind =>
          rw [mark] at reads
          exact reads
        | none =>
          rw [mark] at reads
          dsimp only at reads ⊢
          cases compares : comparison? c (xs ++ ys) with
          | some found =>
            rw [compares] at reads
            obtain rfl : found = lexeme := reads
            rw [comparison?_of_append compares short]
          | none => exact absurd (isPlain_of_none blank mark compares) plain

end Lexeme

open Text

namespace Lexes

variable {start : Nat} {cs : List Char} {ts us vs : List Token} {t u : Token}

/-- A lexeme does not need what stands behind the rest of a part. -/
theorem read_part {c : Char} {cs rest behind : List Char} {lexeme : Lexeme}
    (reads : Lexeme.read c (cs ++ (rest ++ behind)) = lexeme) (reach : lexeme.reach = cs.length)
    (sound : ∀ fault, lexeme ≠ .fault fault) : Lexeme.read c (cs ++ rest) = lexeme := by
  rw [← List.append_assoc] at reads
  apply Lexeme.read_of_append reads sound
  rw [reach, List.length_append]
  exact Nat.le_add_right _ _

/-- The text up to a closing token, and its tokens. -/
theorem upTo (lexes : Lexes start cs (us ++ t :: vs)) (closes : t.isClosing = true) :
    ∃ xs zs, cs = xs ++ ')' :: zs ∧ Lexes start xs us ∧
      t = ⟨.closing, start + byteSize xs, start + byteSize xs + byteSize [')']⟩ := by
  generalize whole : us ++ t :: vs = ts at lexes
  induction lexes generalizing us with
  | nil => simp at whole
  | @gap start c cs rest ts front behind ih =>
    obtain ⟨xs, zs, rfl, lexes, rfl⟩ := ih whole
    refine ⟨c :: (cs ++ xs), zs, by simp, .gap (read_part front rfl nofun) lexes, ?_⟩
    rw [← List.cons_append, byteSize_append, Nat.add_assoc start]
  | @token start c cs rest kind ts front behind ih =>
    cases us with
    | nil =>
      cases whole
      have closing : kind = .closing := by
        unfold Token.isClosing at closes
        split at closes
        · assumption
        · cases closes
      subst closing
      obtain ⟨rfl, none⟩ := Lexeme.read_closing front
      obtain rfl := List.eq_nil_of_length_eq_zero none
      exact ⟨[], rest, rfl, .nil, rfl⟩
    | cons u us =>
      obtain ⟨rfl, same⟩ := List.cons.inj whole
      obtain ⟨xs, zs, rfl, lexes, rfl⟩ := ih same
      refine ⟨c :: (cs ++ xs), zs, by simp, .token (read_part front rfl nofun) lexes, ?_⟩
      rw [← List.cons_append, byteSize_append, Nat.add_assoc start]

/-- The text up to the end of a token, and its tokens. -/
theorem upToEnd (lexes : Lexes start cs (us ++ vs)) (last : us.getLast? = some u) :
    ∃ xs ys, cs = xs ++ ys ∧ u.stop = start + byteSize xs ∧ Lexes start xs us := by
  generalize whole : us ++ vs = ts at lexes
  induction lexes generalizing us with
  | nil =>
    obtain ⟨rfl, -⟩ := List.append_eq_nil_iff.1 whole
    cases last
  | @gap start c cs rest ts front behind ih =>
    obtain ⟨xs, ys, rfl, ends, lexes⟩ := ih last whole
    refine ⟨c :: (cs ++ xs), ys, by simp, ?_, .gap (read_part front rfl nofun) lexes⟩
    rw [ends, ← List.cons_append, byteSize_append, Nat.add_assoc]
  | @token start c cs rest kind ts front behind ih =>
    cases us with
    | nil => cases last
    | cons t us =>
      obtain ⟨rfl, same⟩ := List.cons.inj whole
      cases us with
      | nil =>
        cases last
        have alone : Lexeme.read c (cs ++ []) = .token kind cs.length :=
          read_part front rfl nofun
        have lexes : Lexes start (c :: (cs ++ [])) _ := .token alone .nil
        rw [List.append_nil] at lexes
        exact ⟨c :: cs, rest, rfl, rfl, lexes⟩
      | cons t us =>
        rw [List.getLast?_cons_cons] at last
        obtain ⟨xs, ys, rfl, ends, lexes⟩ := ih last same
        refine ⟨c :: (cs ++ xs), ys, by simp, ?_, .token (read_part front rfl nofun) lexes⟩
        rw [ends, ← List.cons_append, byteSize_append, Nat.add_assoc]

end Lexes

end MediaQuery
