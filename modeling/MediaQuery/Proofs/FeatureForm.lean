import MediaQuery.Proofs.Grammar

set_option autoImplicit false

namespace MediaQuery

namespace Value

theorem ofTokens?_eq_some {ts : List Token} {value : Value} :
    ofTokens? ts = some value ↔ Form ts value := by
  constructor
  · intro read
    unfold ofTokens? at read
    split at read
    · rename_i t
      split at read <;> cases read
      · exact .number ‹_›
      · exact .dimension ‹_›
      · exact .ident ‹_›
    · rename_i n s d
      split at read <;> cases read
      exact .ratio ‹_› ‹_› ‹_›
    · cases read
  · intro form
    cases form with
    | number kind => simp [ofTokens?, kind]
    | dimension kind => simp [ofTokens?, kind]
    | ident kind => simp [ofTokens?, kind]
    | ratio numerator slash denominator => simp [ofTokens?, numerator, slash, denominator]

theorem Form.quiet {ts : List Token} {value : Value} (form : Form ts value) :
    ∀ t ∈ ts, t.comparison? = none ∧ t.isOpening = false ∧ t.isClosing = false := by
  cases form with
  | number kind => simp [Token.comparison?, Token.isOpening, Token.isClosing, kind]
  | dimension kind => simp [Token.comparison?, Token.isOpening, Token.isClosing, kind]
  | ident kind => simp [Token.comparison?, Token.isOpening, Token.isClosing, kind]
  | ratio numerator slash denominator =>
    simp [Token.comparison?, Token.isOpening, Token.isClosing, numerator, slash, denominator]

end Value

namespace Token

variable {t : Token} {name : String} {op : Comparison}

theorem kind_of_ident? (named : t.ident? = some name) : t.kind = .ident name := by
  unfold ident? at named
  split at named <;> cases named
  assumption

theorem kind_of_comparison? (compares : t.comparison? = some op) : t.kind = .comparison op := by
  unfold comparison? at compares
  split at compares <;> cases compares
  assumption

theorem comparison?_of_ident? (named : t.ident? = some name) : t.comparison? = none := by
  simp [comparison?, kind_of_ident? named]

theorem noParens_of_ident? (named : t.ident? = some name) :
    t.isOpening = false ∧ t.isClosing = false := by
  simp [isOpening, isClosing, kind_of_ident? named]

theorem noParens_of_comparison? (compares : t.comparison? = some op) :
    t.isOpening = false ∧ t.isClosing = false := by
  simp [isOpening, isClosing, kind_of_comparison? compares]

end Token

namespace Feature

section Divide

variable {ts before : List Token} {o : Token} {op : Comparison}

theorem divide_of_quiet (quiet : ∀ t ∈ ts, t.comparison? = none) : divide ts = (ts, []) := by
  induction ts with
  | nil => rfl
  | cons t ts ih =>
    rw [List.forall_mem_cons] at quiet
    rw [divide, ih quiet.2, quiet.1]

theorem divide_append (quiet : ∀ t ∈ before, t.comparison? = none) :
    divide (before ++ ts) = (before ++ (divide ts).1, (divide ts).2) := by
  induction before with
  | nil => rfl
  | cons t before ih =>
    rw [List.forall_mem_cons] at quiet
    rw [List.cons_append, divide, ih quiet.2, quiet.1, List.cons_append]

theorem divide_operator (compares : o.comparison? = some op) :
    divide (o :: ts) = ([], (op, (divide ts).1) :: (divide ts).2) := by
  rw [divide, compares]

theorem divide_at (ts : List Token) (quiet : ∀ t ∈ before, t.comparison? = none)
    (compares : o.comparison? = some op) :
    divide (before ++ o :: ts) = (before, (op, (divide ts).1) :: (divide ts).2) := by
  rw [divide_append quiet, divide_operator compares, List.append_nil]

theorem quiet_of_divide (divided : divide ts = (before, [])) :
    ts = before ∧ ∀ t ∈ before, t.comparison? = none := by
  induction ts generalizing before with
  | nil =>
    cases divided
    exact ⟨rfl, by simp⟩
  | cons t ts ih =>
    rw [divide] at divided
    cases rest : divide ts with
    | mk first parts =>
      rw [rest] at divided
      cases compares : t.comparison? with
      | some op => simp [compares] at divided
      | none =>
        simp only [compares, Prod.mk.injEq] at divided
        obtain ⟨rfl, rfl⟩ := divided
        obtain ⟨rfl, quiet⟩ := ih rest
        refine ⟨rfl, ?_⟩
        rw [List.forall_mem_cons]
        exact ⟨compares, quiet⟩

theorem exists_of_divide {behind : List Token} {parts : List (Comparison × List Token)}
    (divided : divide ts = (before, (op, behind) :: parts)) :
    ∃ o us, o.comparison? = some op ∧ ts = before ++ o :: us ∧ divide us = (behind, parts) ∧
      ∀ t ∈ before, t.comparison? = none := by
  induction ts generalizing before with
  | nil => cases divided
  | cons t ts ih =>
    rw [divide] at divided
    cases rest : divide ts with
    | mk first parts' =>
      rw [rest] at divided
      cases compares : t.comparison? with
      | some op' =>
        simp only [compares, Prod.mk.injEq, List.cons.injEq] at divided
        obtain ⟨rfl, ⟨rfl, rfl⟩, rfl⟩ := divided
        exact ⟨t, ts, compares, rfl, rest, by simp⟩
      | none =>
        simp only [compares, Prod.mk.injEq] at divided
        obtain ⟨rfl, rfl⟩ := divided
        obtain ⟨o, us, found, rfl, dividedRest, quiet⟩ := ih rest
        refine ⟨o, us, found, rfl, dividedRest, ?_⟩
        rw [List.forall_mem_cons]
        exact ⟨compares, quiet⟩

end Divide

theorem soleName?_eq_some {ts : List Token} {name : String} :
    soleName? ts = some name ↔ ∃ t, ts = [t] ∧ t.ident? = some name := by
  unfold soleName?
  split
  · simp
  · rename_i several
    simp only [reduceCtorEq, false_iff, not_exists, not_and]
    rintro t rfl
    exact absurd rfl (several t)

theorem ident?_eq_none {ts : List Token} {value : Value} (form : Value.Form ts value) :
    value.ident? = none ↔ soleName? ts = none := by
  cases form with
  | number kind => simp [Value.ident?, soleName?, Token.ident?, kind]
  | dimension kind => simp [Value.ident?, soleName?, Token.ident?, kind]
  | ident kind => simp [Value.ident?, soleName?, Token.ident?, kind]
  | ratio numerator slash denominator => simp [Value.ident?, soleName?]

theorem reads_of_ofDivided? {ts : List Token} {f : Feature}
    (read : ofDivided? (divide ts) = some f) : Reads ts f := by
  cases divided : divide ts with
  | mk before parts =>
    rw [divided] at read
    unfold ofDivided? at read
    split at read
    · rename_i before' op behind same
      cases same
      obtain ⟨o, us, compares, rfl, rest, _⟩ := exists_of_divide divided
      obtain ⟨rfl, _⟩ := quiet_of_divide rest
      split at read
      · rename_i name sole
        obtain ⟨t, rfl, named⟩ := soleName?_eq_some.1 sole
        obtain ⟨value, form, rfl⟩ := Option.map_eq_some_iff.1 read
        exact ⟨.right named compares (Value.ofTokens?_eq_some.1 form), nofun⟩
      · rename_i noName
        obtain ⟨name, sole, read⟩ := Option.bind_eq_some_iff.1 read
        obtain ⟨value, form, same⟩ := Option.bind_eq_some_iff.1 read
        cases same
        obtain ⟨t, rfl, named⟩ := soleName?_eq_some.1 sole
        have form := Value.ofTokens?_eq_some.1 form
        refine ⟨.left named compares form, ?_⟩
        rintro name' value' op' same
        cases same
        exact (ident?_eq_none form).2 noName
    · rename_i before' low middle high behind same
      cases same
      obtain ⟨o, us, compares, rfl, rest, _⟩ := exists_of_divide divided
      obtain ⟨p, vs, compares', rfl, rest, _⟩ := exists_of_divide rest
      obtain ⟨rfl, _⟩ := quiet_of_divide rest
      split at read
      · rename_i along
        obtain ⟨name, sole, read⟩ := Option.bind_eq_some_iff.1 read
        obtain ⟨a, formLow, read⟩ := Option.bind_eq_some_iff.1 read
        obtain ⟨b, formHigh, same⟩ := Option.bind_eq_some_iff.1 read
        cases same
        obtain ⟨t, rfl, named⟩ := soleName?_eq_some.1 sole
        exact ⟨.both named compares compares' along (Value.ofTokens?_eq_some.1 formLow)
          (Value.ofTokens?_eq_some.1 formHigh), nofun⟩
      · cases read
    · cases read

/-- Tokens of which the second one is no colon are divided at their operators. -/
theorem ofTokens?_eq_ofDivided? {t u : Token} {ts : List Token} (noColon : u.kind ≠ .colon) :
    ofTokens? (t :: u :: ts) = ofDivided? (divide (t :: u :: ts)) := by
  unfold ofTokens?
  split
  · rename_i single
    cases single
  · rename_i pair
    cases pair
    split
    · rename_i colon
      exact absurd colon noColon
    · rfl
  · rename_i nil
    cases nil

/-- Behind a value and an operator, the second token is no colon. -/
theorem ofTokens?_of_form {ts us : List Token} {o : Token} {op : Comparison} {value : Value}
    (form : Value.Form ts value) (compares : o.comparison? = some op) :
    ofTokens? (ts ++ o :: us) = ofDivided? (divide (ts ++ o :: us)) := by
  have noColon : o.kind ≠ .colon := by
    rw [Token.kind_of_comparison? compares]
    exact nofun
  cases form with
  | number kind => exact ofTokens?_eq_ofDivided? noColon
  | dimension kind => exact ofTokens?_eq_ofDivided? noColon
  | ident kind => exact ofTokens?_eq_ofDivided? noColon
  | ratio numerator slash denominator =>
    refine ofTokens?_eq_ofDivided? ?_
    rw [slash]
    exact nofun

/-- What a test is read off, the grammar reads as it. -/
theorem reads_of_ofTokens? {ts : List Token} {f : Feature} (read : ofTokens? ts = some f) :
    Reads ts f := by
  unfold ofTokens? at read
  split at read
  · rename_i t
    obtain ⟨name, named, rfl⟩ := Option.map_eq_some_iff.1 read
    exact ⟨.boolean named, nofun⟩
  · rename_i t u rest
    split at read
    · rename_i colon
      obtain ⟨name, named, read⟩ := Option.bind_eq_some_iff.1 read
      obtain ⟨value, form, same⟩ := Option.bind_eq_some_iff.1 read
      cases same
      exact ⟨.plain named colon (Value.ofTokens?_eq_some.1 form), nofun⟩
    · exact reads_of_ofDivided? read
  · cases read

/-- What the grammar reads as a test is read as it. -/
theorem ofTokens?_of_reads {ts : List Token} {f : Feature} (reads : Reads ts f) :
    ofTokens? ts = some f := by
  obtain ⟨form, noName⟩ := reads
  cases form with
  | boolean named => simp [ofTokens?, named]
  | plain named isColon written =>
    simp [ofTokens?, isColon, named, Value.ofTokens?_eq_some.2 written]
  | @right t o ts name op value named compares written =>
    have noColon : o.kind ≠ .colon := by
      rw [Token.kind_of_comparison? compares]
      exact nofun
    have quiet : ∀ u ∈ [t], u.comparison? = none := by
      simpa using Token.comparison?_of_ident? named
    have divided := divide_at ts quiet compares
    rw [divide_of_quiet fun u mem => (written.quiet u mem).1] at divided
    rw [ofTokens?_eq_ofDivided? noColon]
    change ofDivided? (divide ([t] ++ o :: ts)) = _
    rw [divided]
    simp [ofDivided?, soleName?, named, Value.ofTokens?_eq_some.2 written, compare]
  | @left t o ts name op value named compares written =>
    have sole := (ident?_eq_none written).1 (noName name value op rfl)
    have quiet : ∀ u ∈ [t], u.comparison? = none := by
      simpa using Token.comparison?_of_ident? named
    have divided := divide_at [t] (fun u mem => (written.quiet u mem).1) compares
    rw [divide_of_quiet quiet] at divided
    have behind : soleName? [t] = some name := named
    rw [ofTokens?_of_form written compares, divided]
    simp [ofDivided?, sole, behind, Value.ofTokens?_eq_some.2 written]
  | @both t o p ts us name low high a b named comparesLow comparesHigh along writtenLow
      writtenHigh =>
    have quiet : ∀ u ∈ [t], u.comparison? = none := by
      simpa using Token.comparison?_of_ident? named
    have second := divide_at us quiet comparesHigh
    rw [divide_of_quiet fun u mem => (writtenHigh.quiet u mem).1] at second
    have first := divide_at (t :: p :: us) (fun u mem => (writtenLow.quiet u mem).1)
      comparesLow
    change divide (t :: p :: us) = _ at second
    rw [second] at first
    rw [ofTokens?_of_form writtenLow comparesLow, first]
    simp [ofDivided?, along, soleName?, named, Value.ofTokens?_eq_some.2 writtenLow,
      Value.ofTokens?_eq_some.2 writtenHigh]

/-- A test is read off exactly the tokens that the grammar reads as it. -/
theorem ofTokens?_eq_some {ts : List Token} {f : Feature} :
    ofTokens? ts = some f ↔ Reads ts f :=
  ⟨reads_of_ofTokens?, ofTokens?_of_reads⟩

theorem Form.noParens {ts : List Token} {f : Feature} (form : Form ts f) :
    ∀ t ∈ ts, t.isOpening = false ∧ t.isClosing = false := by
  cases form with
  | boolean named => simpa using Token.noParens_of_ident? named
  | plain named isColon written =>
    simp only [List.forall_mem_cons]
    exact ⟨Token.noParens_of_ident? named, by simp [Token.isOpening, Token.isClosing, isColon],
      fun t mem => (written.quiet t mem).2⟩
  | right named compares written =>
    simp only [List.forall_mem_cons]
    exact ⟨Token.noParens_of_ident? named, Token.noParens_of_comparison? compares,
      fun t mem => (written.quiet t mem).2⟩
  | left named compares written =>
    simp only [List.forall_mem_append, List.forall_mem_cons]
    exact ⟨fun t mem => (written.quiet t mem).2, Token.noParens_of_comparison? compares,
      Token.noParens_of_ident? named, by simp⟩
  | both named comparesLow comparesHigh along writtenLow writtenHigh =>
    simp only [List.forall_mem_append, List.forall_mem_cons]
    exact ⟨fun t mem => (writtenLow.quiet t mem).2, Token.noParens_of_comparison? comparesLow,
      Token.noParens_of_ident? named, Token.noParens_of_comparison? comparesHigh,
      fun t mem => (writtenHigh.quiet t mem).2⟩

end Feature

end MediaQuery
