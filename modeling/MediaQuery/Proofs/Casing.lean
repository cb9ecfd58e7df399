import MediaQuery.Proofs.Names

set_option autoImplicit false

namespace MediaQuery

namespace Text

variable {c x : Char}

theorem lower_eq_self (other : isLetter c = false) : lower c = c := by
  refine if_neg fun upper => ?_
  simp [isLetter, upper] at other

theorem isLetter_lower (letter : isLetter c = true) : isLetter (lower c) = true := by
  have ascii : c.toNat < 128 := by
    simp only [isLetter, Bool.or_eq_true, Bool.and_eq_true, decide_eq_true_eq] at letter
    omega
  revert letter
  exact forall_ascii (P := fun c => isLetter c = true → isLetter (lower c) = true) (by decide) ascii

/-- Only a character itself is lowered to one that is no letter. -/
theorem lower_eq_iff (other : isLetter x = false) : lower c = x ↔ c = x := by
  cases letter : isLetter c with
  | false => rw [lower_eq_self letter]
  | true =>
    constructor
    · rintro rfl
      rw [isLetter_lower letter] at other
      cases other
    · rintro rfl
      rw [letter] at other
      cases other

/-- What a predicate says of a letter in lower case it says of the letter. -/
private theorem lower_induction {P : Char → Char → Prop} (same : ∀ c, P c c)
    (letters : ∀ n < 128, P (lower (Char.ofNat n)) (Char.ofNat n)) (c : Char) : P (lower c) c := by
  by_cases ascii : c.toNat < 128
  · exact forall_ascii (P := fun c => P (lower c) c) letters ascii
  · rw [lower_eq_self]
    · exact same c
    · simp only [isLetter, Bool.or_eq_false_iff, Bool.and_eq_false_iff, decide_eq_false_iff_not]
      omega

theorem isBlank_lower (c : Char) : isBlank (lower c) = isBlank c :=
  lower_induction (P := fun a b => isBlank a = isBlank b) (fun _ => rfl) (by decide) c

theorem isDecimal_lower (c : Char) : isDecimal (lower c) = isDecimal c :=
  lower_induction (P := fun a b => isDecimal a = isDecimal b) (fun _ => rfl) (by decide +kernel) c

theorem utf8Size_lower (c : Char) : (lower c).utf8Size = c.utf8Size :=
  lower_induction (P := fun a b => a.utf8Size = b.utf8Size) (fun _ => rfl) (by decide) c

theorem lower_eq_mark_iff : lower c = 'e' ∨ lower c = 'E' ↔ c = 'e' ∨ c = 'E' :=
  lower_induction (P := fun a b => a = 'e' ∨ a = 'E' ↔ b = 'e' ∨ b = 'E') (fun _ => Iff.rfl)
    (by decide) c

theorem lower_of_isDecimal (decimal : isDecimal c = true) : lower c = c := by
  by_cases ascii : c.toNat < 128
  · revert decimal
    exact forall_ascii (P := fun c => isDecimal c = true → lower c = c) (by decide +kernel) ascii
  · exact if_neg (by omega)

theorem byteSize_lowerAll (cs : List Char) : byteSize (lowerAll cs) = byteSize cs := by
  induction cs with
  | nil => rfl
  | cons c cs ih =>
    change (lower c).utf8Size + byteSize (lowerAll cs) = c.utf8Size + byteSize cs
    rw [utf8Size_lower, ih]

theorem lowerAll_lowerAll (cs : List Char) : lowerAll (lowerAll cs) = lowerAll cs := by
  rw [lowerAll, lowerAll, List.map_map]
  exact List.map_congr_left fun c _ => (Lexeme.lower_class c).1

theorem head?_lowerAll {cs : List Char} (other : isLetter x = false) :
    (lowerAll cs).head? = some x ↔ cs.head? = some x := by
  cases cs with
  | nil => rfl
  | cons c cs => simpa [lowerAll] using lower_eq_iff other

end Text

namespace Decimal

open Text

def Numeral.lowered (n : Numeral) : Numeral :=
  { n with power := n.power.map fun p => { p with mark := lower p.mark } }

theorem Numeral.length_chars_lowered (n : Numeral) : n.lowered.chars.length = n.chars.length := by
  cases power : n.power <;> simp [chars, lowered, power, Power.chars]

theorem Numeral.toFloat_lowered (n : Numeral) : n.lowered.toFloat = n.toFloat := by
  cases power : n.power <;> simp [toFloat, magnitude, lowered, power, Power.value]

theorem Numeral.isInteger_lowered (n : Numeral) : n.lowered.isInteger = n.isInteger := by
  cases power : n.power <;> simp [isInteger, lowered, power]

theorem Numeral.isAscii_lowered (n : Numeral) : n.lowered.isAscii = n.isAscii := by
  cases power : n.power <;> simp [isAscii, lowered, power]

theorem splitSign_lowerAll (cs : List Char) :
    splitSign (lowerAll cs) = ((splitSign cs).1, lowerAll (splitSign cs).2) := by
  cases cs with
  | nil => rfl
  | cons c cs =>
    have minus : lower c = '-' ↔ c = '-' := lower_eq_iff (by decide)
    have plus : lower c = '+' ↔ c = '+' := lower_eq_iff (by decide)
    by_cases isMinus : c = '-'
    · rw [isMinus]
      rfl
    · by_cases isPlus : c = '+'
      · rw [isPlus]
        rfl
      · rw [splitSign_of_ne isMinus isPlus]
        exact splitSign_of_ne (mt minus.1 isMinus) (mt plus.1 isPlus) (lowerAll cs)

theorem splitDigits_lowerAll (cs : List Char) : splitDigits isDecimal (lowerAll cs) =
    ((splitDigits isDecimal cs).1, lowerAll (splitDigits isDecimal cs).2) := by
  have same : isDecimal ∘ lower = isDecimal := funext isDecimal_lower
  have digits : lowerAll (cs.takeWhile isDecimal) = cs.takeWhile isDecimal := by
    refine (List.map_congr_left fun c mem => ?_).trans (List.map_id _)
    exact lower_of_isDecimal (List.all_eq_true.1 List.all_takeWhile c mem)
  rw [splitDigits, splitDigits, lowerAll, List.takeWhile_map, List.dropWhile_map, same]
  exact congrArg (·, lowerAll (cs.dropWhile isDecimal)) digits

theorem splitFraction_lowerAll (cs : List Char) : splitFraction isDecimal (lowerAll cs) =
    ((splitFraction isDecimal cs).1, lowerAll (splitFraction isDecimal cs).2) := by
  cases cs with
  | nil => rfl
  | cons c cs =>
    have point : lower c = '.' ↔ c = '.' := lower_eq_iff (by decide)
    by_cases isPoint : c = '.'
    · subst isPoint
      change splitFraction isDecimal ('.' :: lowerAll cs) = _
      simp only [splitFraction, splitDigits_lowerAll]
      split <;> rfl
    · rw [splitFraction_of_ne isPoint]
      exact splitFraction_of_ne (mt point.1 isPoint) (lowerAll cs)

theorem splitPower_lowerAll (cs : List Char) : splitPower isDecimal (lowerAll cs) =
    ((splitPower isDecimal cs).1.map fun p => { p with mark := lower p.mark },
      lowerAll (splitPower isDecimal cs).2) := by
  cases cs with
  | nil => rfl
  | cons c cs =>
    change splitPower isDecimal (lower c :: lowerAll cs) = _
    simp only [splitPower, splitSign_lowerAll, splitDigits_lowerAll, lower_eq_mark_iff]
    split
    · split <;> rfl
    · rfl

theorem splitNumeral?_lowerAll (cs : List Char) : splitNumeral? isDecimal (lowerAll cs) =
    (splitNumeral? isDecimal cs).map fun (n, rest) => (n.lowered, lowerAll rest) := by
  simp only [splitNumeral?, splitSign_lowerAll, splitDigits_lowerAll, splitFraction_lowerAll,
    splitPower_lowerAll]
  split <;> rfl

end Decimal

namespace Lexeme

open Text Decimal

/-- The same lexeme, or a fault in both places. -/
def Like (a b : Lexeme) : Prop := a = b ∨ (∃ f, a = fault f) ∧ ∃ f, b = fault f

theorem Like.eq_of_sound {a b : Lexeme} (like : a.Like b) (sound : ∀ f, b ≠ fault f) : a = b := by
  rcases like with same | ⟨_, f, fault⟩
  · exact same
  · exact absurd fault (sound f)

theorem Like.symm {a b : Lexeme} (like : a.Like b) : b.Like a :=
  like.imp Eq.symm And.symm

theorem commentSize?_lowerAll (cs : List Char) : commentSize? (lowerAll cs) = commentSize? cs := by
  induction cs with
  | nil => rfl
  | cons c cs ih =>
    have ends : lower c = '*' ∧ (lowerAll cs).head? = some '/' ↔
        c = '*' ∧ cs.head? = some '/' :=
      and_congr (lower_eq_iff (by decide)) (head?_lowerAll (by decide))
    change commentSize? (lower c :: lowerAll cs) = _
    by_cases here : c = '*' ∧ cs.head? = some '/'
    · rw [commentSize?_of_end here, commentSize?_of_end (ends.2 here)]
    · rw [commentSize?_of_not_end here, commentSize?_of_not_end (mt ends.1 here), ih]

theorem nameOf_take_lowerAll (n : Nat) (cs : List Char) :
    nameOf ((lowerAll cs).take n) = nameOf (cs.take n) := by
  have taken : (lowerAll cs).take n = lowerAll (cs.take n) := List.map_take.symm
  rw [nameOf, taken, lowerAll_lowerAll, nameOf]

theorem punctuation?_of_isLetter {c : Char} (letter : isLetter c = true) :
    punctuation? c = none := by
  unfold punctuation?
  split <;> first | rfl | cases letter

theorem punctuation?_lower (c : Char) : punctuation? (lower c) = punctuation? c := by
  cases letter : isLetter c with
  | false => rw [lower_eq_self letter]
  | true => rw [punctuation?_of_isLetter letter, punctuation?_of_isLetter (isLetter_lower letter)]

theorem comparison?_of_isLetter {c : Char} (letter : isLetter c = true) (cs : List Char) :
    comparison? c cs = none := by
  unfold comparison?
  split <;> first | rfl | cases letter

theorem comparison?_lower (c : Char) (cs : List Char) :
    comparison? (lower c) (lowerAll cs) = comparison? c cs := by
  cases letter : isLetter c with
  | false => rw [lower_eq_self letter, comparison?_congr (head?_lowerAll (by decide))]
  | true => rw [comparison?_of_isLetter letter, comparison?_of_isLetter (isLetter_lower letter)]

theorem ofNumeral_lowered (n : Numeral) (rest : List Char) :
    (ofNumeral n.lowered (lowerAll rest)).Like (ofNumeral n rest) := by
  have percent : (lowerAll rest).head? = some '%' ↔ rest.head? = some '%' :=
    head?_lowerAll (by decide)
  simp only [ofNumeral, n.isAscii_lowered, n.toFloat_lowered, n.isInteger_lowered,
    n.length_chars_lowered, identSize_lowerAll, nameOf_take_lowerAll, percent]
  split
  · exact .inr ⟨⟨_, rfl⟩, _, rfl⟩
  · exact .inl rfl

theorem ofIdent_lowerAll (size : Nat) (cs : List Char) :
    ofIdent size (lowerAll cs) = ofIdent size cs := by
  have opening : ((lowerAll cs).drop size).head? = some '(' ↔ (cs.drop size).head? = some '(' := by
    have dropped : (lowerAll cs).drop size = lowerAll (cs.drop size) := List.map_drop.symm
    rw [dropped, head?_lowerAll (by decide)]
  simp only [ofIdent, nameOf_take_lowerAll, opening]

theorem identSize_pos {c : Char} (letter : isLetter c = true) (cs : List Char) :
    0 < identSize (c :: cs) := by
  have other : c ≠ '-' := by
    rintro rfl
    cases letter
  rw [identSize_of_ne_hyphen other, letter]
  exact Nat.lt_add_right _ Nat.one_pos

/-- What stands at the front of a text stands at the front of the text in lower case. -/
theorem read_lowerAll (c : Char) (cs : List Char) :
    (read (lower c) (lowerAll cs)).Like (read c cs) := by
  have comment : lower c = '/' ∧ (lowerAll cs).head? = some '*' ↔ c = '/' ∧ cs.head? = some '*' :=
    and_congr (lower_eq_iff (by decide)) (head?_lowerAll (by decide))
  have body : commentSize? ((lowerAll cs).drop 1) = commentSize? (cs.drop 1) := by
    have dropped : (lowerAll cs).drop 1 = lowerAll (cs.drop 1) := List.map_drop.symm
    rw [dropped, commentSize?_lowerAll]
  have numeral := splitNumeral?_lowerAll (c :: cs)
  have ident := identSize_lowerAll (c :: cs)
  have name := ofIdent_lowerAll (identSize (c :: cs)) (c :: cs)
  change splitNumeral? isDecimal (lower c :: lowerAll cs) = _ at numeral
  change identSize (lower c :: lowerAll cs) = _ at ident
  change ofIdent _ (lower c :: lowerAll cs) = _ at name
  simp only [read, isBlank_lower, comment, body, punctuation?_lower, comparison?_lower, numeral,
    ident, name]
  split
  · exact .inl rfl
  · split
    · exact .inl rfl
    · split
      · exact .inl rfl
      · split
        · exact .inl rfl
        · cases splitNumeral? isDecimal (c :: cs) with
          | some parts => exact ofNumeral_lowered parts.1 parts.2
          | none =>
            dsimp only [Option.map_none]
            split
            · exact .inl rfl
            · rename_i noName
              have noLetter : isLetter c = false :=
                Bool.eq_false_iff.2 fun letter => noName (identSize_pos letter cs)
              rw [lower_eq_self noLetter]
              exact .inl rfl

/-- What stands at the front of a text stands there with other letters in upper case, and takes in
as much. -/
theorem read_recased {c : Char} {cs rest cs' : List Char} {lexeme : Lexeme}
    (reads : read c (cs ++ rest) = lexeme) (sound : ∀ f, lexeme ≠ fault f)
    (letters : lowerAll cs' = lowerAll (c :: (cs ++ rest))) :
    ∃ c' ds rest', cs' = c' :: (ds ++ rest') ∧ read c' (ds ++ rest') = lexeme ∧
      ds.length = cs.length ∧ byteSize (c' :: ds) = byteSize (c :: cs) ∧
      lowerAll rest' = lowerAll rest := by
  have lowered : read (lower c) (lowerAll (cs ++ rest)) = lexeme :=
    ((read_lowerAll c (cs ++ rest)).eq_of_sound (reads ▸ sound)).trans reads
  obtain ⟨c', behind, rfl, first, same⟩ := List.map_eq_cons_iff.1 letters
  have same : lowerAll behind = lowerAll (cs ++ rest) := same
  have parts : lowerAll behind = lowerAll cs ++ lowerAll rest := same.trans List.map_append
  rw [← first, ← same] at lowered
  have reads' : read c' behind = lexeme := by
    rw [← lowered]
    exact (read_lowerAll c' behind).symm.eq_of_sound (lowered ▸ sound)
  obtain ⟨ds, rest', rfl, middle, last⟩ := List.map_eq_append_iff.1 parts
  refine ⟨c', ds, rest', rfl, reads', ?_, ?_, last⟩
  · have length := congrArg List.length middle
    simpa [lowerAll_length] using length
  · rw [byteSize, byteSize, ← utf8Size_lower c', first, utf8Size_lower, ← byteSize_lowerAll ds,
      ← byteSize_lowerAll cs]
    exact congrArg (fun ds => c.utf8Size + byteSize ds) middle

end Lexeme

open Text

theorem Lexes.recased {start : Nat} {cs cs' : List Char} {ts : List Token}
    (lexes : Lexes start cs ts) (letters : lowerAll cs' = lowerAll cs) : Lexes start cs' ts := by
  induction lexes generalizing cs' with
  | nil =>
    obtain rfl := List.map_eq_nil_iff.1 letters
    exact .nil
  | gap front behind ih =>
    obtain ⟨c', ds, rest', rfl, front', length, bytes, last⟩ :=
      Lexeme.read_recased front nofun letters
    rw [← length] at front'
    rw [← bytes] at ih
    exact .gap front' (ih last)
  | token front behind ih =>
    obtain ⟨c', ds, rest', rfl, front', length, bytes, last⟩ :=
      Lexeme.read_recased front nofun letters
    rw [← length] at front'
    rw [← bytes] at ih ⊢
    exact .token front' (ih last)

end MediaQuery
