import MediaQuery.Proofs.Lexing
import MediaQuery.Query.Printer

set_option autoImplicit false

namespace MediaQuery

namespace Text

/-- An identifier of the lexer in lower case. -/
def IsName (name : String) : Prop :=
  name ≠ "" ∧ Lexeme.identSize name.toList = name.toList.length ∧
    lowerAll name.toList = name.toList

instance (name : String) : Decidable (IsName name) :=
  inferInstanceAs (Decidable (_ ∧ _ ∧ _))

/-- Whether a unit would be read as a power of ten behind a number: it begins with `e`, maybe a
hyphen, and a digit. -/
def beginsPower : List Char → Bool
  | 'e' :: '-' :: c :: _ => Decimal.isDigit c
  | 'e' :: c :: _ => Decimal.isDigit c
  | _ => false

end Text

/-- What holds of the first 128 characters holds of every character with a number below. -/
theorem Text.forall_ascii {P : Char → Prop} (each : ∀ n < 128, P (Char.ofNat n)) {c : Char}
    (ascii : c.toNat < 128) : P c := by
  rw [← Char.ofNat_toNat c]
  exact each _ ascii

namespace Decimal

theorem splitSign_of_ne {c : Char} (noMinus : c ≠ '-') (noPlus : c ≠ '+') (cs : List Char) :
    splitSign (c :: cs) = ([], c :: cs) := by
  unfold splitSign
  split <;> simp_all

theorem splitFraction_of_ne {c : Char} (noPoint : c ≠ '.') (cs : List Char) :
    splitFraction Text.isDecimal (c :: cs) = (none, c :: cs) := by
  unfold splitFraction
  split <;> simp_all

end Decimal

namespace Lexeme

open Text Decimal

/-- Of what follows, a comparison only looks for a sign of equality. -/
theorem comparison?_congr {xs ys : List Char} (same : xs.head? = some '=' ↔ ys.head? = some '=')
    (c : Char) : comparison? c xs = comparison? c ys := by
  cases xs <;> cases ys <;> unfold comparison? <;> split <;> simp_all

/-- A character that is no blank and stands for no token of its own. -/
def isPlain (c : Char) : Bool :=
  !isBlank c && !List.contains ['(', ')', ':', ',', '/', '<', '>', '='] c

theorem read_of_isPlain {c : Char} (plain : isPlain c = true) (cs : List Char) :
    read c cs = match splitNumeral? isDecimal (c :: cs) with
      | some (n, rest) => ofNumeral n rest
      | none => if 0 < identSize (c :: cs) then ofIdent (identSize (c :: cs)) (c :: cs)
        else .token (.delim c) 0 := by
  simp only [isPlain, Bool.and_eq_true, Bool.not_eq_true', List.contains_eq_mem,
    decide_eq_false_iff_not, List.mem_cons, not_or] at plain
  obtain ⟨notBlank, opening, closing, colon, comma, slash, less, greater, equal, _⟩ := plain
  have noMark : punctuation? c = none := by
    unfold punctuation?
    split <;> first | contradiction | rfl
  have noOperator : comparison? c cs = none := by
    unfold comparison?
    split <;> first | contradiction | rfl
  rw [read, if_neg (by simp [notBlank]), if_neg (by simp [slash])]
  rcases splitNumeral? isDecimal (c :: cs) with _ | ⟨n, rest⟩ <;> simp only [noMark, noOperator]

/-- The characters that an identifier begins with. -/
def beginsName (c : Char) : Bool := c == '-' || isLetter c || c == '_'

theorem toNat_lt_of_beginsName {c : Char} (begins : beginsName c = true) : c.toNat < 128 := by
  simp only [beginsName, isLetter, Bool.or_eq_true, Bool.and_eq_true, decide_eq_true_eq,
    beq_iff_eq] at begins
  rcases begins with (rfl | letter) | rfl
  · decide
  · omega
  · decide

theorem of_beginsName {c : Char} (begins : beginsName c = true) :
    isPlain c = true ∧ isDecimal c = false ∧ c ≠ '.' := by
  have ascii := toNat_lt_of_beginsName begins
  revert begins
  exact forall_ascii
    (P := fun c => beginsName c = true → isPlain c = true ∧ isDecimal c = false ∧ c ≠ '.')
    (by decide) ascii

theorem beginsName_of_identSize {c : Char} {cs : List Char} (some : 0 < identSize (c :: cs)) :
    beginsName c = true := by
  by_cases hyphen : c = '-'
  · simp [beginsName, hyphen]
  · rw [identSize_of_ne_hyphen hyphen] at some
    split at some
    · rename_i begins
      rw [beginsName, Bool.or_assoc, begins, Bool.or_true]
    · cases some

/-- A text that begins neither with a digit nor with a point behind its sign has no numeral in
front. -/
theorem splitNumeral?_eq_none {sign : List Char} {d : Char} {cs ds : List Char}
    (signed : splitSign cs = (sign, d :: ds)) (noDigit : isDecimal d = false) (noPoint : d ≠ '.') :
    splitNumeral? isDecimal cs = none := by
  have noWhole : splitDigits isDecimal (d :: ds) = ([], d :: ds) := by
    simp [splitDigits, noDigit]
  have noFraction : splitFraction isDecimal (d :: ds) = (none, d :: ds) := by
    simp [splitFraction, noPoint]
  simp [splitNumeral?, signed, noWhole, noFraction]

theorem splitNumeral?_of_identSize {c : Char} {cs : List Char} (some : 0 < identSize (c :: cs)) :
    splitNumeral? isDecimal (c :: cs) = none := by
  by_cases hyphen : c = '-'
  · subst hyphen
    cases cs with
    | nil => simp [identSize, isLetter] at some
    | cons d ds =>
      rw [identSize_hyphen] at some
      split at some
      · rename_i begins
        obtain ⟨_, noDigit, noPoint⟩ := of_beginsName (c := d) begins
        exact splitNumeral?_eq_none rfl noDigit noPoint
      · cases some
  · obtain ⟨_, noDigit, noPoint⟩ := of_beginsName (beginsName_of_identSize some)
    have noPlus : c ≠ '+' := by
      rintro rfl
      cases beginsName_of_identSize some
    have signed : splitSign (c :: cs) = ([], c :: cs) := by
      unfold splitSign
      split <;> simp_all
    exact splitNumeral?_eq_none signed noDigit noPoint

/-- A name is the token of its own text. -/
theorem read_name {name : String} (isName : IsName name) {c : Char} {cs : List Char}
    (spelt : name.toList = c :: cs) : read c cs = .token (.ident name) cs.length := by
  obtain ⟨_, whole, lower⟩ := isName
  rw [spelt] at whole lower
  have some : 0 < identSize (c :: cs) := by simp [whole]
  obtain ⟨plain, _⟩ := of_beginsName (beginsName_of_identSize some)
  have same : nameOf (c :: cs) = name := by
    rw [nameOf, lower, ← spelt, String.ofList_toList]
  rw [read_of_isPlain plain, splitNumeral?_of_identSize some]
  simp [ofIdent, whole, same]

end Lexeme

namespace Decimal.Numeral

open Lexeme Text

/-- A numeral of the digits 0 to 9 with a minus at most for a sign and without a power. -/
structure Plain (n : Numeral) : Prop where
  sign : n.sign = [] ∨ n.sign = ['-']
  whole : n.whole ≠ [] ∧ n.whole.all isDigit = true
  fraction : ∀ digits, n.fraction = some digits → digits ≠ [] ∧ digits.all isDigit = true
  power : n.power = none

variable {n : Numeral} {behind : List Char}

theorem isDecimal_of_isDigit {c : Char} (digit : isDigit c = true) : isDecimal c = true := by
  simp only [isDigit, Bool.and_eq_true, decide_eq_true_eq] at digit
  rw [isDecimal, digitZeros, List.any_cons, Bool.or_eq_true]
  left
  simp only [Bool.and_eq_true, decide_eq_true_eq]
  omega

theorem splitDigits_append {digits rest : List Char} (all : digits.all isDigit = true)
    (stop : ∀ c cs, rest = c :: cs → isDecimal c = false) :
    splitDigits isDecimal (digits ++ rest) = (digits, rest) := by
  have decimal : ∀ c ∈ digits, isDecimal c = true := fun c mem =>
    isDecimal_of_isDigit (List.all_eq_true.1 all c mem)
  have taken : rest.takeWhile isDecimal = [] := by
    cases rest with
    | nil => rfl
    | cons c cs => simp [stop c cs rfl]
  have dropped : rest.dropWhile isDecimal = rest := by
    cases rest with
    | nil => rfl
    | cons c cs => simp [stop c cs rfl]
  rw [splitDigits, List.takeWhile_append_of_pos decimal, List.dropWhile_append_of_pos decimal,
    taken, dropped, List.append_nil]

/-- What may follow a numeral without becoming a part of it. -/
structure Ends (behind : List Char) : Prop where
  noDigit : ∀ c cs, behind = c :: cs → isDecimal c = false ∧ c ≠ '.'
  noPower : (splitPower isDecimal behind).1 = none

theorem Ends.nil : Ends [] := ⟨nofun, rfl⟩

theorem Plain.whole_cons (plain : n.Plain) : ∃ w ws, n.whole = w :: ws ∧ isDigit w = true := by
  obtain ⟨some, digits⟩ := plain.whole
  obtain ⟨w, ws, whole⟩ := List.exists_cons_of_ne_nil some
  rw [whole, List.all_cons, Bool.and_eq_true] at digits
  exact ⟨w, ws, whole, digits.1⟩

theorem splitSign_chars (plain : n.Plain) (rest : List Char) :
    splitSign (n.sign ++ (n.whole ++ rest)) = (n.sign, n.whole ++ rest) := by
  obtain ⟨w, ws, whole, digit⟩ := plain.whole_cons
  have noMinus : w ≠ '-' := by
    rintro rfl
    cases digit
  have noPlus : w ≠ '+' := by
    rintro rfl
    cases digit
  rw [whole]
  rcases plain.sign with sign | sign <;> rw [sign]
  · unfold splitSign
    split <;> simp_all
  · rfl

theorem splitFraction_chars (plain : n.Plain) (ends : Ends behind) :
    splitFraction isDecimal (fractionChars n.fraction ++ behind) = (n.fraction, behind) := by
  cases fraction : n.fraction with
  | none =>
    rw [fractionChars, List.nil_append]
    unfold splitFraction
    split
    · exact absurd rfl (ends.noDigit _ _ rfl).2
    · rfl
  | some digits =>
    obtain ⟨some, all⟩ := plain.fraction digits fraction
    have divided := splitDigits_append all fun c cs behind => (ends.noDigit c cs behind).1
    simp [fractionChars, splitFraction, divided, some]

/-- A plain numeral is split off whatever ends it. -/
theorem splitNumeral?_chars (plain : n.Plain) (ends : Ends behind) :
    splitNumeral? isDecimal (n.chars ++ behind) = some (n, behind) := by
  have signed := splitSign_chars plain (fractionChars n.fraction ++ behind)
  have stop (c : Char) (cs : List Char) (same : fractionChars n.fraction ++ behind = c :: cs) :
      isDecimal c = false := by
    cases fraction : n.fraction with
    | none =>
      rw [fraction] at same
      exact (ends.noDigit c cs same).1
    | some digits =>
      rw [fraction] at same
      cases same
      decide
  have whole := splitDigits_append plain.whole.2 stop
  have fraction := splitFraction_chars plain ends
  have power : splitPower isDecimal behind = (none, behind) := by
    have whole := splitPower_append isDecimal behind
    rw [ends.noPower] at whole
    exact Prod.ext ends.noPower whole
  have chars : n.chars ++ behind = n.sign ++ (n.whole ++ (fractionChars n.fraction ++ behind)) := by
    simp [Numeral.chars, plain.power]
  rw [chars]
  simp only [splitNumeral?, signed, whole, fraction, power]
  rw [if_neg (by simp [plain.whole.1]), ← plain.power]

theorem isAscii_of_plain (plain : n.Plain) : n.isAscii = true := by
  cases fraction : n.fraction with
  | none => simp [isAscii, plain.whole.2, fraction, plain.power]
  | some digits =>
    have all := (plain.fraction digits fraction).2
    simp [isAscii, plain.whole.2, fraction, plain.power, all]

theorem Plain.chars_ne_nil (plain : n.Plain) : n.chars ≠ [] := by
  simp [Numeral.chars, plain.whole.1]

theorem Plain.head (plain : n.Plain) {c : Char} {cs : List Char}
    (spelt : n.chars ++ behind = c :: cs) : c = '-' ∨ isDigit c = true := by
  obtain ⟨w, ws, whole, digit⟩ := plain.whole_cons
  rcases plain.sign with sign | sign <;> rw [Numeral.chars, sign, whole] at spelt <;> cases spelt
  · exact .inr digit
  · exact .inl rfl

theorem isPlain_of_isDigit {c : Char} (digit : isDigit c = true) : isPlain c = true := by
  have ascii : c.toNat < 128 := by
    simp only [isDigit, Bool.and_eq_true, decide_eq_true_eq] at digit
    omega
  revert digit
  exact forall_ascii (P := fun c => isDigit c = true → isPlain c = true) (by decide) ascii

theorem Plain.isPlain_head (plain : n.Plain) {c : Char} {cs : List Char}
    (spelt : n.chars ++ behind = c :: cs) : isPlain c = true := by
  rcases plain.head spelt with rfl | digit
  · decide
  · exact isPlain_of_isDigit digit

theorem read_eq_ofNumeral (plain : n.Plain) (ends : Ends behind) {c : Char} {cs : List Char}
    (spelt : n.chars ++ behind = c :: cs) : read c cs = ofNumeral n behind := by
  rw [read_of_isPlain (plain.isPlain_head spelt), ← spelt, splitNumeral?_chars plain ends]

/-- A numeral alone is a number. -/
theorem read_number (plain : n.Plain) {c : Char} {cs : List Char} (spelt : n.chars = c :: cs) :
    read c cs = .token (.number n.toFloat n.isInteger) cs.length := by
  rw [read_eq_ofNumeral plain .nil ((List.append_nil _).trans spelt)]
  simp [ofNumeral, isAscii_of_plain plain, identSize, spelt]

theorem Ends.percent : Ends ['%'] where
  noDigit c cs same := by
    cases same
    exact ⟨by decide, by decide⟩
  noPower := rfl

/-- A numeral and a percent sign are a dimension. -/
theorem read_percent (plain : n.Plain) {c : Char} {cs : List Char}
    (spelt : n.chars ++ ['%'] = c :: cs) :
    read c cs = .token (.dimension n.toFloat "%") cs.length := by
  have length := congrArg List.length spelt
  rw [List.length_append, List.length_singleton, List.length_cons,
    Nat.add_right_cancel_iff] at length
  rw [read_eq_ofNumeral plain .percent spelt, ← length]
  simp [ofNumeral, isAscii_of_plain plain, identSize, isLetter]

theorem isNameChar_of_beginsName {c : Char} (begins : beginsName c = true) :
    isNameChar c = true := by
  have ascii := toNat_lt_of_beginsName begins
  revert begins
  exact forall_ascii (P := fun c => beginsName c = true → isNameChar c = true)
    (by decide) ascii

theorem all_isNameChar {cs : List Char} (whole : identSize cs = cs.length) :
    cs.all isNameChar = true := by
  have all {ds : List Char} (same : (ds.takeWhile isNameChar).length = ds.length) :
      ds.all isNameChar = true := by
    rw [← (List.takeWhile_prefix isNameChar).eq_of_length same]
    exact List.all_takeWhile
  match cs with
  | [] => rfl
  | [c] =>
    have some : 0 < identSize [c] := by simp [whole]
    simpa using isNameChar_of_beginsName (beginsName_of_identSize some)
  | c :: d :: ds =>
    have some : 0 < identSize (c :: d :: ds) := by simp [whole]
    rw [List.all_cons, isNameChar_of_beginsName (beginsName_of_identSize some), Bool.true_and]
    by_cases hyphen : c = '-'
    · subst hyphen
      rw [identSize_hyphen] at whole
      split at whole
      · rename_i inner
        simp only [List.length_cons] at whole
        rw [List.all_cons, isNameChar_of_beginsName inner, all (by omega)]
        rfl
      · cases whole
    · rw [identSize_of_ne_hyphen hyphen] at whole
      split at whole
      · rw [List.length_cons, Nat.add_comm, Nat.add_right_cancel_iff] at whole
        exact all whole
      · cases whole

theorem isDigit_of_isNameChar {c : Char} (name : isNameChar c = true)
    (decimal : isDecimal c = true) : isDigit c = true := by
  have ascii : c.toNat < 128 := by
    simp only [isNameChar, isLetter, Bool.or_eq_true, Bool.and_eq_true, decide_eq_true_eq,
      beq_iff_eq] at name
    rcases name with (((_ | _) | _) | rfl) | rfl
    · omega
    · omega
    · omega
    · decide
    · decide
  revert name decimal
  exact forall_ascii
    (P := fun c => isNameChar c = true → isDecimal c = true → isDigit c = true)
    (by decide) ascii

private theorem splitPower_of_name {cs : List Char} (names : cs.all isNameChar = true)
    (noPower : beginsPower ('e' :: cs) = false) : (splitPower isDecimal ('e' :: cs)).1 = none := by
  have noDigit {d : Char} (name : isNameChar d = true) (digit : isDigit d = false) :
      isDecimal d = false := by
    rw [← Bool.not_eq_true] at digit ⊢
    exact fun decimal => digit (isDigit_of_isNameChar name decimal)
  cases cs with
  | nil => rfl
  | cons d ds =>
    rw [List.all_cons, Bool.and_eq_true] at names
    by_cases hyphen : d = '-'
    · subst hyphen
      cases ds with
      | nil => rfl
      | cons c cs =>
        rw [List.all_cons, Bool.and_eq_true] at names
        have stop := noDigit names.2.1 noPower
        simp [splitPower, splitSign, splitDigits, stop]
    · have digit : isDigit d = false := by
        simpa [beginsPower, hyphen] using noPower
      have noPlus : d ≠ '+' := by
        rintro rfl
        cases names.1
      have stop := noDigit names.1 digit
      simp [splitPower, splitSign, splitDigits, stop, hyphen, noPlus]

/-- A unit that begins unlike a power of ten is no part of the numeral in front. -/
theorem Ends.ofName {unit : String} (isName : IsName unit)
    (noPower : beginsPower unit.toList = false) : Ends unit.toList := by
  obtain ⟨nonempty, whole, lower⟩ := isName
  have names := all_isNameChar whole
  cases spelt : unit.toList with
  | nil => exact .nil
  | cons c cs =>
    rw [spelt] at whole lower names noPower
    obtain ⟨_, noDigit, noPoint⟩ :=
      of_beginsName (beginsName_of_identSize (by rw [whole]; simp))
    refine ⟨fun c' cs' same => by cases same; exact ⟨noDigit, noPoint⟩, ?_⟩
    have small : c ≠ 'E' := by
      rintro rfl
      cases lower
    by_cases mark : c = 'e'
    · subst mark
      rw [List.all_cons, Bool.and_eq_true] at names
      exact splitPower_of_name names.2 noPower
    · simp [splitPower, mark, small]

/-- A numeral and a unit are a dimension. -/
theorem read_unit (plain : n.Plain) {unit : String} (isName : IsName unit)
    (noPower : beginsPower unit.toList = false) {c : Char} {cs : List Char}
    (spelt : n.chars ++ unit.toList = c :: cs) :
    read c cs = .token (.dimension n.toFloat unit) cs.length := by
  have length := congrArg List.length spelt
  rw [List.length_append, List.length_cons] at length
  rw [read_eq_ofNumeral plain (.ofName isName noPower) spelt]
  obtain ⟨nonempty, whole, lower⟩ := isName
  have same : nameOf unit.toList = unit := by rw [nameOf, lower, String.ofList_toList]
  have some : 0 < unit.toList.length := by
    rw [List.length_pos_iff]
    simpa using nonempty
  simp only [ofNumeral, isAscii_of_plain plain, whole, List.take_length, same, if_pos some, length]
  rfl

end Decimal.Numeral

open Text

/-- A text whose tokens are of some sort wherever it stands. -/
def Spells (cs : List Char) (P : List Char → List Token → Prop) : Prop :=
  ∀ before behind : List Char,
    ∃ ts, Lexes (byteSize before) cs ts ∧ P (before ++ (cs ++ behind)) ts

namespace Spells

variable {b c : Char} {cs xs ys : List Char} {kind : TokenKind}
  {P Q : List Char → List Token → Prop}

theorem mono (spells : Spells cs P) (sub : ∀ source ts, P source ts → Q source ts) :
    Spells cs Q := by
  intro before behind
  obtain ⟨ts, lexes, holds⟩ := spells before behind
  exact ⟨ts, lexes, sub _ _ holds⟩

theorem nil : Spells [] fun _ ts => ts = [] := fun _ _ => ⟨[], .nil, rfl⟩

theorem append (boundary : Boundary b) (left : Spells xs P) (right : Spells (b :: ys) Q) :
    Spells (xs ++ b :: ys) fun source ts => ∃ us vs, ts = us ++ vs ∧ P source us ∧ Q source vs := by
  intro before behind
  obtain ⟨us, first, holds⟩ := left before (b :: ys ++ behind)
  obtain ⟨vs, second, holds'⟩ := right (before ++ xs) behind
  rw [byteSize_append] at second
  rw [List.append_assoc] at holds' ⊢
  exact ⟨us ++ vs, first.append boundary second, us, vs, rfl, holds, holds'⟩

theorem space (spells : Spells cs P) : Spells (' ' :: cs) P := by
  intro before behind
  obtain ⟨ts, lexes, holds⟩ := spells (before ++ [' ']) behind
  rw [byteSize_append] at lexes
  rw [List.append_assoc] at holds
  have whole : Lexes (byteSize before) (' ' :: ([] ++ cs)) ts := .gap rfl lexes
  exact ⟨ts, whole, holds⟩

theorem mark (reads : Lexeme.read c cs = .token kind 0) (spells : Spells cs P) :
    Spells (c :: cs) fun source ts => ∃ t us, ts = t :: us ∧ t.kind = kind ∧ P source us := by
  intro before behind
  obtain ⟨ts, lexes, holds⟩ := spells (before ++ [c]) behind
  rw [byteSize_append] at lexes
  rw [List.append_assoc] at holds
  have whole : Lexes (byteSize before) (c :: ([] ++ cs)) (_ :: ts) := .token reads lexes
  exact ⟨_, whole, _, ts, rfl, rfl, holds⟩

theorem token (reads : Lexeme.read c cs = .token kind cs.length) :
    Spells (c :: cs) fun _ ts => ∃ t, ts = [t] ∧ t.kind = kind := by
  intro before behind
  have lexes : Lexes (byteSize before) (c :: (cs ++ [])) _ :=
    .token (by rwa [List.append_nil]) .nil
  rw [List.append_nil] at lexes
  exact ⟨_, lexes, _, rfl, rfl⟩

theorem spaced (left : Spells xs P) (right : Spells ys Q) :
    Spells (xs ++ ' ' :: ys) fun source ts =>
      ∃ us vs, ts = us ++ vs ∧ P source us ∧ Q source vs :=
  left.append .space right.space

theorem parens (spells : Spells cs P) : Spells ('(' :: (cs ++ [')'])) fun source ts =>
    ∃ opener us closer, ts = opener :: (us ++ [closer]) ∧ opener.kind = .opening ∧
      closer.isClosing = true ∧ P source us := by
  have closer : Spells [')'] fun _ ts => ∃ t us, ts = t :: us ∧ t.kind = .closing ∧ us = [] :=
    mark rfl nil
  refine (mark (c := '(') rfl (spells.append .closing closer)).mono fun source ts => ?_
  rintro ⟨opener, _, rfl, opens, us, _, rfl, holds, t, _, rfl, closes, rfl⟩
  exact ⟨opener, us, t, rfl, opens, by rw [Token.isClosing, closes], holds⟩

theorem name {name : String} (isName : IsName name) :
    Spells name.toList fun _ ts => ∃ t, ts = [t] ∧ t.ident? = some name := by
  cases spelt : name.toList with
  | nil => exact absurd (by simpa using spelt) isName.1
  | cons c cs =>
    refine (token (Lexeme.read_name isName spelt)).mono fun _ ts => ?_
    rintro ⟨t, rfl, kind⟩
    exact ⟨t, rfl, by rw [Token.ident?, kind]⟩

theorem comparison (op : Comparison) :
    Spells op.text.toList fun _ ts => ∃ t, ts = [t] ∧ t.comparison? = some op := by
  have spelt (c : Char) (cs : List Char)
      (reads : Lexeme.read c cs = .token (.comparison op) cs.length) :
      Spells (c :: cs) fun _ ts => ∃ t, ts = [t] ∧ t.comparison? = some op := by
    refine (token reads).mono fun _ ts => ?_
    rintro ⟨t, rfl, kind⟩
    exact ⟨t, rfl, by rw [Token.comparison?, kind]⟩
  cases op
  · exact spelt '<' [] rfl
  · exact spelt '<' ['='] rfl
  · exact spelt '>' [] rfl
  · exact spelt '>' ['='] rfl
  · exact spelt '=' [] rfl

end Spells

end MediaQuery
