import MediaQuery.Proofs.Derivation
import MediaQuery.Proofs.Lists
import MediaQuery.Proofs.Names
import MediaQuery.Proofs.Placement
import MediaQuery.Proofs.ReadBack

set_option autoImplicit false

namespace MediaQuery

open Text Lexeme

/-- A kind of token whose doubles are numbers. -/
def TokenKind.Numeric : TokenKind → Prop
  | .number x _ | .dimension x _ => Number.isNaN x = false
  | _ => True

/-- A value of a name in lower case, or of doubles that are numbers. -/
def Value.Lexical : Value → Prop
  | .number x _ | .dimension x _ => Number.isNaN x = false
  | .ratio x y => Number.isNaN x = false ∧ Number.isNaN y = false
  | .ident name => IsName name

section Tokens

variable {c : Char} {cs : List Char} {kind : TokenKind} {more : Nat} {ts : List Token}

theorem Lexeme.numeric_ofNumeral {n : Decimal.Numeral} {rest : List Char}
    (reads : ofNumeral n rest = .token kind more) : kind.Numeric := by
  unfold ofNumeral at reads
  dsimp only at reads
  split at reads
  · cases reads
  · split at reads
    · cases reads
      exact n.isNaN_toFloat
    · split at reads <;> cases reads <;> exact n.isNaN_toFloat

theorem Lexeme.numeric_read (reads : read c cs = .token kind more) : kind.Numeric := by
  rcases read_cases reads with ⟨mark, _⟩ | compares | ⟨n, rest, numeral⟩ | ⟨_, ident⟩ | rfl
  · unfold punctuation? at mark
    split at mark <;> cases mark <;> trivial
  · unfold comparison? at compares
    split at compares <;> cases compares <;> trivial
  · exact numeric_ofNumeral numeral
  · unfold ofIdent at ident
    dsimp only at ident
    split at ident <;> cases ident <;> trivial
  · trivial

theorem Value.Form.lexical {v : Value} (form : Value.Form ts v) (spelt : ∀ t ∈ ts, t.kind.Spelt)
    (numeric : ∀ t ∈ ts, t.kind.Numeric) : v.Lexical := by
  cases form with
  | number kind | dimension kind =>
    have number := numeric _ List.mem_cons_self
    rwa [kind] at number
  | ident kind =>
    have name := spelt _ List.mem_cons_self
    rwa [kind] at name
  | ratio numerator slash denominator =>
    simp only [List.forall_mem_cons, numerator, denominator] at numeric
    exact ⟨numeric.1, numeric.2.2.1⟩

theorem Feature.Form.lexical {f : Feature} (form : Feature.Form ts f)
    (spelt : ∀ t ∈ ts, t.kind.Spelt) (numeric : ∀ t ∈ ts, t.kind.Numeric) :
    ∀ v ∈ f.values, v.Lexical := by
  have part {us : List Token} {v : Value} (sub : us ⊆ ts) (written : Value.Form us v) : v.Lexical :=
    written.lexical (fun t mem => spelt t (sub mem)) fun t mem => numeric t (sub mem)
  cases form with
  | boolean named => simp [Feature.values]
  | plain named isColon written | right named compares written | left named compares written =>
    exact List.forall_mem_singleton.2 (part (fun t mem => by simp [mem]) written)
  | both named comparesLow comparesHigh along writtenLow writtenHigh =>
    exact List.forall_mem_cons.2 ⟨part (List.subset_append_left _ _) writtenLow,
      List.forall_mem_singleton.2 (part (fun t mem => by simp [mem]) writtenHigh)⟩

end Tokens

theorem QueryList.lexical_of_parse {source : String} {list : QueryList}
    (parsed : QueryList.parse source = .ok list) :
    ∀ f ∈ list.features, ∀ v ∈ f.values, v.Lexical := by
  obtain ⟨ps, pieces, _⟩ := bind_eq_ok.1 parsed
  obtain ⟨ts, lexed, _⟩ := bind_eq_ok.1 pieces
  have lexes := tokenize_eq_ok.1 lexed
  intro f mem
  obtain ⟨us, sub, reads⟩ := ((QueryList.parse_eq_ok_iff lexed).1 parsed).features f mem
  exact reads.1.lexical (fun t mem => lexes.spelt t (sub.subset mem))
    fun t mem => lexes.forall_kind (fun _ _ _ _ => numeric_read) t (sub.subset mem)

end MediaQuery
