import MediaQuery.Json.Reader
import MediaQuery.Json.Writer
import MediaQuery.Proofs.Lexing
import MediaQuery.Proofs.ReadBack

set_option autoImplicit false

namespace MediaQuery.Json

section Strings

variable {fuel : Nat} {c x : Char} {cs rest : List Char}

/-- Puts a character in front of the parts that are read. -/
def consChar (c : Char) : List StringPart × List Char → List StringPart × List Char
  | (parts, rest) => (.char c :: parts, rest)

theorem stringParts_backslash (part : unescape? cs = some (.char c, rest)) :
    stringParts (fuel + 1) ('\\' :: cs) = (stringParts fuel rest).map (consChar c) := by
  have other : '\\' ≠ '"' := by decide
  simp only [stringParts, if_neg other, if_true, part, Option.bind_eq_bind, Option.bind_some]
  cases stringParts fuel rest <;> rfl

theorem stringParts_escaped (other : x ≠ 'u') (named : escaped? x = some c) :
    stringParts (fuel + 1) ('\\' :: x :: rest) = (stringParts fuel rest).map (consChar c) := by
  refine stringParts_backslash ?_
  unfold unescape?
  split
  · exact absurd (List.cons.inj ‹_›).1 other
  · obtain ⟨rfl, rfl⟩ := List.cons.inj ‹_›
    rw [named, Option.map_some]
  · contradiction

theorem hexValue?_hexDigit : ∀ n < 16, hexValue? (hexDigit n) = some n := by decide

theorem stringParts_unit (control : c.toNat < 32) :
    stringParts (fuel + 1) ('\\' :: 'u' :: '0' :: '0' :: hexDigit (c.toNat / 16) ::
      hexDigit (c.toNat % 16) :: rest) = (stringParts fuel rest).map (consChar c) := by
  have high := hexValue?_hexDigit (c.toNat / 16) (by omega)
  have low := hexValue?_hexDigit (c.toNat % 16) (by omega)
  have zero : hexValue? '0' = some 0 := by decide
  have unit : hexUnit? ('0' :: '0' :: hexDigit (c.toNat / 16) :: hexDigit (c.toNat % 16) :: rest) =
      some (c.toNat, rest) := by
    have value : 4096 * 0 + 256 * 0 + 16 * (c.toNat / 16) + c.toNat % 16 = c.toNat := by omega
    simp only [hexUnit?, zero, high, low, Option.bind_eq_bind, Option.bind_some, value]
    rfl
  have first : isLeading c.toNat = false := by simp [isLeading]; omega
  have second : isTrailing c.toNat = false := by simp [isTrailing]; omega
  refine stringParts_backslash ?_
  simp only [unescape?, unit, Option.bind_eq_bind, Option.bind_some, first, second,
    Char.ofNat_toNat]
  rfl

theorem stringParts_escape :
    stringParts (fuel + 1) (escape c ++ rest) = (stringParts fuel rest).map (consChar c) := by
  have code {n : Nat} (same : c.toNat = n) : some (Char.ofNat n) = some c := by
    rw [← same, Char.ofNat_toNat]
  unfold escape
  split_ifs with quote backslash backspace tab feed form carriage control
  · exact stringParts_escaped (by decide) (by rw [quote]; rfl)
  · exact stringParts_escaped (by decide) (by rw [backslash]; rfl)
  · exact stringParts_escaped (by decide) (code backspace)
  · exact stringParts_escaped (by decide) (code tab)
  · exact stringParts_escaped (by decide) (code feed)
  · exact stringParts_escaped (by decide) (code form)
  · exact stringParts_escaped (by decide) (code carriage)
  · exact stringParts_unit control
  · simp only [List.cons_append, List.nil_append, stringParts, quote, backslash, control, if_false]
    cases stringParts fuel rest <;> rfl

theorem stringParts_flatMap (cs rest : List Char) : ∀ fuel, cs.length < fuel →
    stringParts fuel (cs.flatMap escape ++ '"' :: rest) = some (cs.map .char, rest) := by
  induction cs with
  | nil =>
    intro fuel bound
    obtain ⟨fuel, rfl⟩ := Nat.exists_eq_add_one.2 (Nat.zero_lt_of_lt bound)
    rfl
  | cons c cs ih =>
    intro fuel bound
    obtain ⟨fuel, rfl⟩ := Nat.exists_eq_add_one.2 (Nat.zero_lt_of_lt bound)
    rw [List.flatMap_cons, List.append_assoc, stringParts_escape,
      ih fuel (Nat.lt_of_succ_lt_succ bound)]
    rfl

theorem partsText?_map (cs : List Char) : partsText? (cs.map .char) = some cs := by
  induction cs with
  | nil => rfl
  | cons c cs ih => rw [List.map_cons, partsText?, ih, Option.map_some]

theorem escape_ne_nil (c : Char) : escape c ≠ [] := by
  unfold escape
  split_ifs <;> simp

theorem length_le_flatMap_escape (cs : List Char) : cs.length ≤ (cs.flatMap escape).length := by
  induction cs with
  | nil => simp
  | cons c cs ih =>
    have some := List.length_pos_of_ne_nil (escape_ne_nil c)
    rw [List.flatMap_cons, List.length_append, List.length_cons]
    omega

/-- A text in quotes is read as that text. -/
theorem stringBody?_flatMap (text : String) (rest : List Char) :
    stringBody? (text.toList.flatMap escape ++ '"' :: rest) = some (some text, rest) := by
  have bound := length_le_flatMap_escape text.toList
  have parts := stringParts_flatMap text.toList rest
    (text.toList.flatMap escape ++ '"' :: rest).length (by
      rw [List.length_append, List.length_cons]
      omega)
  simp only [stringBody?, parts, Option.bind_eq_bind, Option.bind_some, partsText?_map,
    Option.map_some, String.ofList_toList]
  rfl

end Strings

section Numbers

open Decimal

/-- Texts whose front no number takes in. -/
def Stops (cs : List Char) : Prop := ∀ b ∈ cs.head?, Terminator isDigit b

theorem stops_newline (level : Nat) (cs : List Char) : Stops (newline level ++ cs) := by
  rintro b ⟨⟩
  exact ⟨by decide, by decide⟩

theorem stops_comma (cs : List Char) : Stops (',' :: cs) := by
  rintro b ⟨⟩
  exact ⟨by decide, by decide⟩

/-- Nothing of a number is left over in front of a text. -/
def closes : List Char → Bool
  | c :: _ => c != '.' && c != 'e' && c != 'E'
  | [] => true

def leads : List Char → Bool
  | [] => false
  | '0' :: _ :: _ => false
  | _ => true

theorem number?_eq_some {cs rest : List Char} {j : Json} : number? cs = some (j, rest) ↔
    ∃ n, splitNumeral? isDigit cs = some (n, rest) ∧
      (closes rest && leads n.whole && n.sign != ['+']) = true ∧ ofNumeral n = j := by
  change (splitNumeral? isDigit cs).bind (fun parts =>
    if closes parts.2 && leads parts.1.whole && parts.1.sign != ['+'] then
      some (ofNumeral parts.1, parts.2) else none) = _ ↔ _
  rw [Option.bind_eq_some_iff]
  constructor
  · rintro ⟨⟨n, rest⟩, split, read⟩
    obtain ⟨proper, same⟩ := Option.ite_none_right_eq_some.1 read
    cases same
    exact ⟨n, split, proper, rfl⟩
  · rintro ⟨n, split, proper, rfl⟩
    exact ⟨(n, rest), split, if_pos proper⟩

/-- A number is the same in front of anything that it cannot take in. -/
theorem number?_append {cs rest : List Char} {j : Json} (stops : Stops rest)
    (read : number? cs = some (j, [])) : number? (cs ++ rest) = some (j, rest) := by
  cases rest with
  | nil => rwa [List.append_nil]
  | cons b rest =>
    have ends := stops b rfl
    obtain ⟨n, split, proper, rfl⟩ := number?_eq_some.1 read
    refine number?_eq_some.2 ⟨n, ?_, ?_, rfl⟩
    · rw [splitNumeral?_terminator ends, split]
      rfl
    · have closed : closes (b :: rest) = true := by
        have notMark := ends.notMark
        simp only [List.mem_cons, not_or] at notMark
        simp [closes, notMark]
      rwa [closed]

theorem exists_of_number? {cs rest : List Char} {j : Json} (read : number? cs = some (j, rest)) :
    ∃ c ds, cs = c :: ds ∧ (c = '-' ∨ isDigit c = true) := by
  obtain ⟨n, split, proper, rfl⟩ := number?_eq_some.1 read
  simp only [Bool.and_eq_true, bne_iff_ne] at proper
  obtain ⟨⟨_, digits⟩, noPlus⟩ := proper
  simp only [splitNumeral?] at split
  obtain ⟨_, same⟩ := Option.ite_none_left_eq_some.1 split
  cases same
  unfold splitSign at digits noPlus
  split at digits
  · exact ⟨_, _, rfl, .inl rfl⟩
  · exact absurd rfl noPlus
  · cases cs with
    | nil => cases digits
    | cons c cs =>
      refine ⟨c, cs, rfl, .inr ?_⟩
      by_contra other
      rw [splitDigits, List.takeWhile_cons_of_neg other] at digits
      cases digits

/-- No digits begin with zero but those of zero. -/
theorem head?_naturalDigits {n : Nat} (positive : 0 < n) :
    (naturalDigits n).head? ≠ some '0' := by
  induction n using Nat.strongRecOn with
  | ind n ih =>
    by_cases small : n < 10
    · rw [naturalDigits, Nat.toDigits_of_lt_base small]
      interval_cases n <;> decide
    · have first := ih (n / 10) (by omega) (by omega)
      rw [naturalDigits, Nat.toDigits_of_base_le (by decide) (by omega),
        List.head?_append_of_ne_nil _ Nat.toDigits_ne_nil]
      exact first

theorem leads_naturalDigits (n : Nat) : leads (naturalDigits n) = true := by
  rcases Nat.eq_zero_or_pos n with rfl | positive
  · rfl
  · have first := head?_naturalDigits positive
    unfold leads
    split
    · rename_i none
      exact absurd none (naturalDigits_ne_nil n)
    · rename_i same
      rw [same] at first
      exact absurd rfl first
    · rfl

theorem splitSign_digits {digits : List Char} (all : digits.all isDigit = true) :
    splitSign digits = ([], digits) := by
  unfold splitSign
  split
  · cases all
  · cases all
  · rfl

/-- Digits behind an optional minus are split off as a whole. -/
theorem splitNumeral?_digits {sign digits : List Char} (signed : sign = [] ∨ sign = ['-'])
    (nonempty : digits ≠ []) (all : digits.all isDigit = true) :
    splitNumeral? isDigit (sign ++ digits) = some (⟨sign, digits, none, none⟩, []) := by
  have whole : splitDigits isDigit digits = (digits, []) := by
    have every := List.all_eq_true.1 all
    rw [splitDigits, List.takeWhile_eq_self_iff.2 every, List.dropWhile_eq_nil_iff.2 every]
  have first : splitSign (sign ++ digits) = (sign, digits) := by
    rcases signed with rfl | rfl
    · exact splitSign_digits all
    · rfl
  simp [splitNumeral?, first, whole, splitFraction, splitPower, nonempty]

theorem number?_integerDigits {i : Int} (word : isWord i = true) :
    number? (integerDigits i) = some (.integer i, []) := by
  have digits := digitsValue_naturalDigits i.natAbs
  have leading := leads_naturalDigits i.natAbs
  have split {sign : List Char} (signed : sign = [] ∨ sign = ['-']) :=
    splitNumeral?_digits signed (naturalDigits_ne_nil i.natAbs) (isDigit_naturalDigits i.natAbs)
  by_cases negative : i < 0
  · have value : -(digitsValue (naturalDigits i.natAbs) : Int) = i := by
      rw [digits]
      omega
    have nonzero : (i == 0) = false := beq_eq_false_iff_ne.2 (by omega)
    refine number?_eq_some.2 ⟨⟨['-'], naturalDigits i.natAbs, none, none⟩, ?_, ?_, ?_⟩
    · rw [integerDigits, if_pos negative]
      exact split (.inr rfl)
    · simp [closes, leading]
    · simp [ofNumeral, Numeral.isInteger, value, word, nonzero]
  · have value : (digitsValue (naturalDigits i.natAbs) : Int) = i := by
      rw [digits]
      omega
    refine number?_eq_some.2 ⟨⟨[], naturalDigits i.natAbs, none, none⟩, ?_, ?_, ?_⟩
    · rw [integerDigits, if_neg negative]
      exact split (.inl rfl)
    · simp [closes, leading]
    · simp [ofNumeral, Numeral.isInteger, value, word]

end Numbers

/-- Values whose text is read as the value: whole numbers fit a word, and doubles are finite and
read back from their decimals. -/
inductive Legible : Json → Prop
  | null : Legible .null
  | bool (b : Bool) : Legible (.bool b)
  | integer {i : Int} (word : isWord i = true) : Legible (.integer i)
  | fraction {x : Float} (finite : Number.isFinite x = true)
    (back : number? (Decimal.Layout.data.finite x) = some (.fraction x, [])) :
    Legible (.fraction x)
  | string (text : String) : Legible (.string text)
  | array {items : List Json} (each : ∀ item ∈ items, Legible item) : Legible (.array items)
  | object {members : List (String × Json)} (each : ∀ m ∈ members, Legible m.2) :
    Legible (.object members)

section Values

variable {fuel level below : Nat} {cs rest : List Char} {j : Json}

theorem skip_newline (level : Nat) (cs : List Char) : skip (newline level ++ cs) = skip cs := by
  have blanks : ∀ c ∈ newline level, isJsonBlank c = true := by
    refine List.forall_mem_cons.2 ⟨by decide, fun c mem => ?_⟩
    rw [(List.mem_replicate.1 mem).2]
    decide
  exact List.dropWhile_append_of_pos blanks

theorem skip_cons {c : Char} (shown : isJsonBlank c = false) (cs : List Char) :
    skip (c :: cs) = c :: cs := by
  simp [skip, shown]

/-- Blanks in front of a value are passed over. -/
theorem value?_congr {ds : List Char} (same : skip cs = skip ds) :
    value? fuel cs = value? fuel ds := by
  cases fuel with
  | zero => rfl
  | succ fuel => rw [value?, value?, same]

/-- The text of a value opens with a character that is no blank and closes no array. -/
def Opens (cs : List Char) : Prop :=
  ∃ c ds, cs = c :: ds ∧ isJsonBlank c = false ∧ c ≠ ']'

/-- A number opens like one, and so it is read as one. -/
theorem number_opens {c : Char} (first : c = '-' ∨ Decimal.isDigit c = true) :
    isJsonBlank c = false ∧ c ∉ [']', '"', '[', '\x7b', 'n', 't', 'f'] := by
  have bounds : 45 ≤ c.toNat ∧ c.toNat ≤ 57 := by
    rcases first with rfl | digit
    · decide
    · simp only [Decimal.isDigit, Bool.and_eq_true, decide_eq_true_eq] at digit
      omega
  constructor
  · rw [isJsonBlank]
    simp only [Bool.or_eq_false_iff, beq_eq_false_iff_ne]
    refine ⟨⟨⟨?_, ?_⟩, ?_⟩, ?_⟩ <;> rintro rfl <;> revert bounds <;> decide
  · intro other
    simp only [List.mem_cons, List.not_mem_nil, or_false] at other
    rcases other with rfl | rfl | rfl | rfl | rfl | rfl | rfl <;> revert bounds <;> decide

theorem Opens.append (opens : Opens cs) (ds : List Char) : Opens (cs ++ ds) := by
  obtain ⟨c, front, rfl, shown, other⟩ := opens
  exact ⟨c, front ++ ds, rfl, shown, other⟩

theorem Opens.skip (opens : Opens cs) : skip cs = cs := by
  obtain ⟨c, front, rfl, shown, other⟩ := opens
  exact skip_cons shown front

theorem opens_of_number? (read : number? cs = some (j, rest)) : Opens cs := by
  obtain ⟨c, ds, rfl, first⟩ := exists_of_number? read
  obtain ⟨shown, other⟩ := number_opens first
  exact ⟨c, ds, rfl, shown, fun same => other (by simp [same])⟩

theorem value?_of_number? (read : number? cs = some (j, rest)) :
    value? (fuel + 1) cs = some (j, rest) := by
  obtain ⟨c, ds, rfl, first⟩ := exists_of_number? read
  obtain ⟨shown, other⟩ := number_opens first
  rw [value?, skip_cons shown]
  split <;> simp_all

theorem Legible.opens (legible : Legible j) (level : Nat) : Opens (prettyAt level j) := by
  cases legible with
  | null => exact ⟨_, _, rfl, by decide, by decide⟩
  | bool b => cases b <;> exact ⟨_, _, rfl, by decide, by decide⟩
  | integer word => exact opens_of_number? (number?_integerDigits word)
  | fraction finite back =>
    rw [prettyAt, scalarChars, if_pos finite]
    exact opens_of_number? back
  | string text => exact ⟨_, _, rfl, by decide, by decide⟩
  | @array items each => cases items <;> exact ⟨_, _, rfl, by decide, by decide⟩
  | @object members each => cases members <;> exact ⟨_, _, rfl, by decide, by decide⟩

/-- A value is read from its text in front of anything that ends a number. -/
def ReadsBack (j : Json) : Prop :=
  ∀ (level fuel : Nat) (rest : List Char), (prettyAt level j).length < fuel → Stops rest →
    value? fuel (prettyAt level j ++ rest) = some (j, rest)

theorem stops_items (level below : Nat) (items : List Json) (cs : List Char) :
    Stops (prettyItems level items ++ (newline below ++ cs)) := by
  cases items with
  | nil => exact stops_newline below cs
  | cons item items => exact stops_comma _

theorem stops_members (level below : Nat) (members : List (String × Json)) (cs : List Char) :
    Stops (prettyMembers level members ++ (newline below ++ cs)) := by
  cases members with
  | nil => exact stops_newline below cs
  | cons m members => exact stops_comma _

theorem items?_of_value? {ds after : List Char} {item : Json} {first : Bool}
    (opens : Opens ds) (start : skip cs = ds) (value : value? fuel ds = some (item, after)) :
    items? (fuel + 1) first cs = match skip after with
      | ']' :: rest => some ([item], rest)
      | ',' :: rest => do
        let (items, rest) ← items? fuel false rest
        return (item :: items, rest)
      | _ => none := by
  obtain ⟨c, ds, rfl, _, other⟩ := opens
  have noEnd : ∀ rest, skip cs = ']' :: rest → first = true → False := by
    intro rest same
    rw [start] at same
    cases same
    exact absurd rfl other
  rw [items?, start, value]
  · rfl
  · exact noEnd

/-- Items that are read back are read as the items of an array. Each item and each comma takes a
character and a step, so the length of the text bounds the steps. -/
theorem items?_pretty {items : List Json} : ∀ {item : Json} {first : Bool} {fuel : Nat},
    (∀ i ∈ item :: items, i.Legible ∧ i.ReadsBack) →
    (prettyAt level item).length + (prettyItems level items).length + 1 < fuel →
    items? fuel first (newline level ++ (prettyAt level item ++ (prettyItems level items ++
      (newline below ++ ']' :: rest)))) = some (item :: items, rest) := by
  induction items with
  | nil =>
    intro item first fuel each bound
    obtain ⟨fuel, rfl⟩ := Nat.exists_eq_add_one.2 (Nat.zero_lt_of_lt bound)
    obtain ⟨legible, back⟩ := each item List.mem_cons_self
    have opens := (legible.opens level).append (newline below ++ ']' :: rest)
    have value := back level fuel (newline below ++ ']' :: rest) (by omega) (stops_newline _ _)
    rw [prettyItems, List.nil_append, items?_of_value? opens (by rw [skip_newline, opens.skip])
      value, skip_newline, skip_cons (by decide)]
    rfl
  | cons next items ih =>
    intro item first fuel each bound
    obtain ⟨fuel, rfl⟩ := Nat.exists_eq_add_one.2 (Nat.zero_lt_of_lt bound)
    obtain ⟨⟨legible, back⟩, others⟩ := List.forall_mem_cons.1 each
    rw [prettyItems, List.length_cons, List.length_append, List.length_append] at bound
    have opens := (legible.opens level).append
      (prettyItems level (next :: items) ++ (newline below ++ ']' :: rest))
    have value := back level fuel (prettyItems level (next :: items) ++ (newline below ++
      ']' :: rest)) (by omega) (stops_items _ _ _ _)
    rw [items?_of_value? opens (by rw [skip_newline, opens.skip]) value, prettyItems,
      List.cons_append, skip_cons (by decide)]
    simp only [List.append_assoc]
    rw [ih others (by omega)]
    rfl

theorem members?_of_value? {ds after : List Char} {key : String} {value : Json} {first : Bool}
    (start : skip cs = quote key.toList ++ ':' :: ds)
    (read : value? fuel ds = some (value, after)) :
    members? (fuel + 1) first cs = match skip after with
      | '\x7d' :: rest => some ([(some key, value)], rest)
      | ',' :: rest => do
        let (members, rest) ← members? fuel false rest
        return ((some key, value) :: members, rest)
      | _ => none := by
  have start : skip cs = '"' :: (key.toList.flatMap escape ++ '"' :: ':' :: ds) := by
    rw [start, quote]
    simp
  have body := stringBody?_flatMap key (':' :: ds)
  have colon : isJsonBlank ':' = false := by decide
  rw [members?, body]
  · simp only [Option.bind_eq_bind, Option.bind_some, skip_cons colon, read]
    rfl
  · exact start

theorem skip_member (level : Nat) (key : String) (cs : List Char) :
    skip (newline level ++ (quote key.toList ++ cs)) = quote key.toList ++ cs := by
  rw [skip_newline, quote, List.cons_append, skip_cons (by decide)]

theorem value?_space (fuel : Nat) (cs : List Char) : value? fuel (' ' :: cs) = value? fuel cs :=
  value?_congr rfl

theorem members?_pretty {members : List (String × Json)} : ∀ {key : String} {value : Json}
    {first : Bool} {fuel : Nat}, (∀ m ∈ (key, value) :: members, m.2.ReadsBack) →
    (prettyAt level value).length + (prettyMembers level members).length + 1 < fuel →
    members? fuel first (newline level ++ (quote key.toList ++ (':' :: ' ' ::
      (prettyAt level value ++ (prettyMembers level members ++ (newline below ++
        '\x7d' :: rest)))))) =
      some (((key, value) :: members).map fun m => (some m.1, m.2), rest) := by
  induction members with
  | nil =>
    intro key value first fuel each bound
    obtain ⟨fuel, rfl⟩ := Nat.exists_eq_add_one.2 (Nat.zero_lt_of_lt bound)
    have back : value.ReadsBack := each _ List.mem_cons_self
    have read := back level fuel (newline below ++ '\x7d' :: rest) (by omega) (stops_newline _ _)
    rw [prettyMembers, List.nil_append, members?_of_value? (skip_member ..)
      ((value?_space ..).trans read), skip_newline, skip_cons (by decide)]
    rfl
  | cons next members ih =>
    intro key value first fuel each bound
    obtain ⟨fuel, rfl⟩ := Nat.exists_eq_add_one.2 (Nat.zero_lt_of_lt bound)
    obtain ⟨back, others⟩ := List.forall_mem_cons.1 each
    replace back : value.ReadsBack := back
    obtain ⟨name, item⟩ := next
    rw [prettyMembers] at bound
    simp only [List.length_cons, List.length_append] at bound
    have read := back level fuel (prettyMembers level ((name, item) :: members) ++ (newline below ++
      '\x7d' :: rest)) (by omega) (stops_members _ _ _ _)
    rw [members?_of_value? (skip_member ..) ((value?_space ..).trans read), prettyMembers,
      List.cons_append, skip_cons (by decide)]
    simp only [List.append_assoc, List.cons_append]
    rw [ih others (by omega)]
    rfl

theorem ofMembers_map (members : List (String × Json)) :
    ofMembers (members.map fun m => (some m.1, m.2)) = .object members := by
  have each : (members.map fun m => (some m.1, m.2)).mapM
      (fun m => m.1.map fun key => (key, m.2)) = some members := by
    induction members with
    | nil => rfl
    | cons m members ih => simp [List.mapM_cons, ih]
  rw [ofMembers, each]

/-- What is no array and no object is read in one step. -/
theorem readsBack_of_step (read : ∀ (level fuel : Nat) (rest : List Char), Stops rest →
    value? (fuel + 1) (prettyAt level j ++ rest) = some (j, rest)) : j.ReadsBack := by
  intro level fuel rest bound stops
  obtain ⟨fuel, rfl⟩ := Nat.exists_eq_add_one.2 (Nat.zero_lt_of_lt bound)
  exact read level fuel rest stops

theorem readsBack_string (text : String) : (Json.string text).ReadsBack := by
  refine readsBack_of_step fun level fuel rest _ => ?_
  have chars : prettyAt level (.string text) ++ rest =
      '"' :: (text.toList.flatMap escape ++ '"' :: rest) := by
    simp [prettyAt, scalarChars, quote]
  rw [chars, value?, skip_cons (by decide)]
  simp only [stringBody?_flatMap]
  rfl

theorem readsBack_of_number? (written : ∀ level, prettyAt level j = cs)
    (read : number? cs = some (j, [])) : j.ReadsBack :=
  readsBack_of_step fun level fuel rest stops => by
    rw [written]
    exact value?_of_number? (number?_append stops read)

theorem readsBack_array {items : List Json} (each : ∀ item ∈ items, item.Legible ∧ item.ReadsBack) :
    (Json.array items).ReadsBack := by
  intro level fuel rest bound _
  cases items with
  | nil =>
    obtain ⟨fuel, rfl⟩ : ∃ more, fuel = more + 2 := Nat.exists_eq_add_of_le' (Nat.le_of_lt bound)
    rfl
  | cons item items =>
    obtain ⟨fuel, rfl⟩ := Nat.exists_eq_add_one.2 (Nat.zero_lt_of_lt bound)
    rw [prettyAt] at bound ⊢
    simp only [List.length_cons, List.length_append, newline] at bound
    have read : items? fuel true (newline (level + 1) ++ (prettyAt (level + 1) item ++
        (prettyItems (level + 1) items ++ (newline level ++ ']' :: rest)))) =
        some (item :: items, rest) := items?_pretty each (by omega)
    rw [value?, List.cons_append, skip_cons (by decide)]
    simp only [List.append_assoc, List.cons_append, List.nil_append, read]
    rfl

theorem readsBack_object {members : List (String × Json)} (each : ∀ m ∈ members, m.2.ReadsBack) :
    (Json.object members).ReadsBack := by
  intro level fuel rest bound _
  cases members with
  | nil =>
    obtain ⟨fuel, rfl⟩ : ∃ more, fuel = more + 2 := Nat.exists_eq_add_of_le' (Nat.le_of_lt bound)
    rfl
  | cons m members =>
    obtain ⟨key, value⟩ := m
    obtain ⟨fuel, rfl⟩ := Nat.exists_eq_add_one.2 (Nat.zero_lt_of_lt bound)
    rw [prettyAt] at bound ⊢
    simp only [List.length_cons, List.length_append, newline] at bound
    have read : members? fuel true (newline (level + 1) ++ (quote key.toList ++ (':' :: ' ' ::
        (prettyAt (level + 1) value ++ (prettyMembers (level + 1) members ++ (newline level ++
          '\x7d' :: rest)))))) =
        some (((key, value) :: members).map fun m => (some m.1, m.2), rest) :=
      members?_pretty each (by omega)
    rw [value?, List.cons_append, skip_cons (by decide)]
    simp only [List.append_assoc, List.cons_append, List.nil_append, read, Option.bind_eq_bind,
      Option.bind_some, ofMembers_map]
    rfl

/-- A legible value is read from its text. -/
theorem Legible.readsBack (legible : Legible j) : j.ReadsBack := by
  -- What an array or an object holds is read back by induction, whatever its level.
  induction legible with
  | null => exact readsBack_of_step fun _ _ _ _ => rfl
  | bool b => cases b <;> exact readsBack_of_step fun _ _ _ _ => rfl
  | integer word => exact readsBack_of_number? (fun _ => rfl) (number?_integerDigits word)
  | fraction finite back =>
    exact readsBack_of_number? (fun _ => by rw [prettyAt, scalarChars, if_pos finite]) back
  | string text => exact readsBack_string text
  | array each ih => exact readsBack_array fun item mem => ⟨each item mem, ih item mem⟩
  | object _ ih => exact readsBack_object ih

end Values

/-- A legible value is what its text is read as. -/
theorem read?_pretty {j : Json} (legible : Legible j) : read? (pretty j) = some j := by
  have stops : Stops [] := nofun
  have value := legible.readsBack 0 (2 * (prettyAt 0 j).length + 2) [] (by omega) stops
  rw [List.append_nil] at value
  simp only [read?, pretty, String.toList_ofList, value, Option.bind_eq_bind, Option.bind_some]
  rfl

end MediaQuery.Json
