import MediaQuery.Proofs.Spelling

set_option autoImplicit false

namespace MediaQuery

namespace Lexeme

open Text Decimal

theorem lower_class (c : Char) : lower (lower c) = lower c ∧
    isNameChar (lower c) = isNameChar c ∧ beginsName (lower c) = beginsName c ∧
    (lower c = '-' ↔ c = '-') := by
  by_cases ascii : c.toNat < 128
  · exact forall_ascii (P := fun c => lower (lower c) = lower c ∧
      isNameChar (lower c) = isNameChar c ∧ beginsName (lower c) = beginsName c ∧
      (lower c = '-' ↔ c = '-')) (by decide) ascii
  · have same : lower c = c := if_neg (by omega)
    simp only [same, and_self]

theorem takeWhile_lowerAll (cs : List Char) :
    (lowerAll cs).takeWhile isNameChar = lowerAll (cs.takeWhile isNameChar) := by
  have same : isNameChar ∘ lower = isNameChar := funext fun c => (lower_class c).2.1
  rw [lowerAll, List.takeWhile_map, same, lowerAll]

theorem identSize_beginsName {c : Char} (other : c ≠ '-') (cs : List Char) :
    identSize (c :: cs) = if beginsName c then 1 + (cs.takeWhile isNameChar).length else 0 := by
  rw [identSize_of_ne_hyphen other, beginsName, beq_eq_false_iff_ne.2 other, Bool.false_or]

theorem identSize_lowerAll (cs : List Char) : identSize (lowerAll cs) = identSize cs := by
  match cs with
  | [] => rfl
  | [c] =>
    obtain ⟨_, _, begins, mark⟩ := lower_class c
    by_cases hyphen : c = '-'
    · rw [hyphen]
      rfl
    · change identSize [lower c] = _
      rw [identSize_beginsName (mt mark.1 hyphen), identSize_beginsName hyphen, begins]
  | c :: d :: ds =>
    obtain ⟨_, _, begins, mark⟩ := lower_class c
    by_cases hyphen : c = '-'
    · subst hyphen
      change identSize ('-' :: lower d :: lowerAll ds) = _
      have same := (lower_class d).2.2.1
      simp only [beginsName] at same
      rw [identSize_hyphen, identSize_hyphen, same, takeWhile_lowerAll, lowerAll_length]
    · change identSize (lower c :: lowerAll (d :: ds)) = _
      rw [identSize_beginsName (mt mark.1 hyphen), identSize_beginsName hyphen, begins,
        takeWhile_lowerAll, lowerAll_length]

theorem takeWhile_take (cs : List Char) :
    (cs.take (cs.takeWhile isNameChar).length).takeWhile isNameChar = cs.takeWhile isNameChar := by
  have front := List.prefix_iff_eq_take.1 (List.takeWhile_prefix (l := cs) isNameChar)
  have all : ∀ c ∈ cs.takeWhile isNameChar, isNameChar c = true :=
    List.all_eq_true.1 List.all_takeWhile
  have whole : (cs.takeWhile isNameChar ++ []).takeWhile isNameChar =
      cs.takeWhile isNameChar ++ [].takeWhile isNameChar := List.takeWhile_append_of_pos all
  rw [List.append_nil, List.takeWhile_nil, List.append_nil] at whole
  rw [← front, whole]

theorem identSize_take (cs : List Char) : identSize (cs.take (identSize cs)) = identSize cs := by
  match cs with
  | [] => rfl
  | [c] =>
    by_cases hyphen : c = '-'
    · rw [hyphen]
      rfl
    · rw [identSize_beginsName hyphen]
      split
      · rename_i begins
        simp [identSize_beginsName hyphen, begins]
      · rfl
  | c :: d :: ds =>
    by_cases hyphen : c = '-'
    · subst hyphen
      rw [identSize_hyphen]
      split
      · rename_i begins
        rw [Nat.add_comm 2, List.take_succ_cons, List.take_succ_cons, identSize_hyphen,
          if_pos begins, takeWhile_take, Nat.add_comm 2]
      · rfl
    · rw [identSize_beginsName hyphen]
      split
      · rename_i begins
        rw [Nat.add_comm 1, List.take_succ_cons, identSize_beginsName hyphen, if_pos begins,
          takeWhile_take, Nat.add_comm 1]
      · rfl

theorem isName_nameOf {cs : List Char} (some : 0 < identSize cs) :
    IsName (nameOf (cs.take (identSize cs))) := by
  have length := List.length_take_of_le (identSize_le_length cs)
  refine ⟨?_, ?_, ?_⟩
  · intro empty
    have none := congrArg (fun name => name.toList.length) empty
    simp only [nameOf, String.toList_ofList, lowerAll_length, length] at none
    exact absurd none (Nat.ne_of_gt some)
  · rw [nameOf, String.toList_ofList, identSize_lowerAll, identSize_take, lowerAll_length, length]
  · simp only [nameOf, String.toList_ofList, lowerAll, List.map_map]
    exact List.map_congr_left fun c _ => (lower_class c).1

end Lexeme

open Text Lexeme

/-- A kind of token whose names are identifiers in lower case. -/
def TokenKind.Spelt : TokenKind → Prop
  | .ident name => IsName name
  | .dimension _ unit => unit = "%" ∨ IsName unit
  | _ => True

section Spelt

variable {c : Char} {cs : List Char} {kind : TokenKind} {more : Nat}

theorem Lexeme.spelt_ofNumeral {n : Decimal.Numeral} {rest : List Char}
    (reads : ofNumeral n rest = .token kind more) : kind.Spelt := by
  unfold ofNumeral at reads
  dsimp only at reads
  split at reads
  · cases reads
  · split at reads
    · cases reads
      exact .inr (isName_nameOf ‹_›)
    · split at reads <;> cases reads
      · exact .inl rfl
      · trivial

theorem Lexeme.spelt_ofIdent (some : 0 < identSize cs)
    (reads : ofIdent (identSize cs) cs = .token kind more) : kind.Spelt := by
  unfold ofIdent at reads
  dsimp only at reads
  split at reads <;> cases reads
  · trivial
  · exact isName_nameOf some

theorem Lexeme.spelt_read (reads : read c cs = .token kind more) : kind.Spelt := by
  rcases read_cases reads with ⟨mark, _⟩ | compares | ⟨n, rest, numeral⟩ | ⟨some, ident⟩ | rfl
  · unfold punctuation? at mark
    split at mark <;> cases mark <;> trivial
  · unfold comparison? at compares
    split at compares <;> cases compares <;> trivial
  · exact spelt_ofNumeral numeral
  · exact spelt_ofIdent some ident
  · trivial

/-- What holds of every token that is read off the front of a text holds of all its tokens. -/
theorem Lexes.forall_kind {P : TokenKind → Prop} {start : Nat} {ts : List Token}
    (each : ∀ c cs kind more, read c cs = .token kind more → P kind)
    (lexes : Lexes start cs ts) : ∀ t ∈ ts, P t.kind := by
  induction lexes with
  | nil => simp
  | gap front behind ih => exact ih
  | token front behind ih => exact List.forall_mem_cons.2 ⟨each _ _ _ _ front, ih⟩

theorem Lexes.spelt {start : Nat} {ts : List Token} (lexes : Lexes start cs ts) :
    ∀ t ∈ ts, t.kind.Spelt :=
  lexes.forall_kind fun _ _ _ _ => spelt_read

end Spelt

end MediaQuery
