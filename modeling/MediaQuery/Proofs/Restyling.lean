import MediaQuery.Proofs.Lists
import MediaQuery.Proofs.Spacing

set_option autoImplicit false

namespace MediaQuery

/-- Both are read, as trees that are alike, or neither is. -/
def ReadAlike {α : Type} (alike : α → α → Prop) : Except ParseError α → Except ParseError α → Prop
  | .ok x, .ok x' => alike x x'
  | .error _, .error _ => True
  | _, _ => False

theorem ReadAlike.of_ok {α : Type} {alike : α → α → Prop} {read read' : Except ParseError α}
    (forth : ∀ x, read = .ok x → ∃ x', read' = .ok x' ∧ alike x x')
    (conversely : ∀ x', read' = .ok x' → ∃ x, read = .ok x) : ReadAlike alike read read' := by
  cases read with
  | ok x =>
    obtain ⟨x', rfl, like⟩ := forth x rfl
    exact like
  | error e =>
    cases read' with
    | ok x' =>
      obtain ⟨x, same⟩ := conversely x' rfl
      cases same
    | error e' => trivial

section Restyled

variable {source source' : String} {ts : List Token} {there back : Token → Token}

/-- A source that is written in another way has tokens of the same kinds. -/
theorem Restyled.tokenize_eq_ok (restyled : Restyled ts source.toList source'.toList)
    (lexed : tokenize source = .ok ts) :
    ∃ there back, Paired there back ts ∧ tokenize source' = .ok (ts.map there) := by
  have lexes := MediaQuery.tokenize_eq_ok.1 lexed
  obtain ⟨ts', lexes', kinds⟩ := restyled.lexes lexes
  have length : ts'.length = ts.length := by
    rw [← List.length_map Token.kind, kinds, List.length_map]
  obtain ⟨there, back, rfl, returns⟩ := exists_correspondence lexes.nodup lexes'.nodup length
  rw [List.map_map, List.map_inj_left] at kinds
  exact ⟨there, back, ⟨returns, kinds⟩, MediaQuery.tokenize_eq_ok.2 lexes'⟩

/-- What is read as the trees that its tokens derive is read alike from tokens that correspond. -/
theorem Paired.readAlike {α : Type} {parse : String → Except ParseError α}
    {derives : List Char → List Token → α → Prop} {outline : α → α} {texts : α → List String}
    (reads : ∀ {s us}, tokenize s = .ok us → ∀ {x}, parse s = .ok x ↔ derives s.toList us x)
    (corresponds : ∀ {s s' σ τ us x}, Paired σ τ us → derives s us x →
      ∃ x', derives s' (us.map σ) x' ∧ Alike outline texts s s' σ us x x')
    (paired : Paired there back ts) (lexed : tokenize source = .ok ts)
    (lexed' : tokenize source' = .ok (ts.map there)) :
    ReadAlike (Alike outline texts source.toList source'.toList there ts) (parse source)
      (parse source') := by
  refine .of_ok (fun x read => ?_) (fun x' read => ?_)
  · obtain ⟨x', derives', alike⟩ := corresponds paired ((reads lexed).1 read)
    exact ⟨x', (reads lexed').2 derives', alike⟩
  · obtain ⟨x, derived, _⟩ := corresponds paired.symm ((reads lexed').1 read)
    rw [paired.map_back] at derived
    exact ⟨x, (reads lexed).2 derived⟩

theorem Query.readAlike
    (lists :
      ReadAlike (Alike QueryList.outline QueryList.texts source.toList source'.toList there ts)
        (QueryList.parse source) (QueryList.parse source')) :
    ReadAlike (Alike Query.outline Query.texts source.toList source'.toList there ts)
      (Query.parse source) (Query.parse source') := by
  unfold Query.parse
  cases read : QueryList.parse source with
  | error e =>
    cases read' : QueryList.parse source' with
    | error e' => trivial
    | ok list' => rw [read, read'] at lists; exact lists.elim
  | ok list =>
    cases read' : QueryList.parse source' with
    | error e' => rw [read, read'] at lists; exact lists.elim
    | ok list' =>
      rw [read, read'] at lists
      obtain ⟨outlines, texts⟩ := lists
      match list, list' with
      | [], [] => trivial
      | [], _ :: _ | _ :: _, [] | [_], _ :: _ :: _ | _ :: _ :: _, [_] =>
        simp [QueryList.outline] at outlines
      | [q], [q'] =>
        refine ⟨(List.cons.inj outlines).1, ?_⟩
        simpa [QueryList.texts] using texts
      | _ :: _ :: _, _ :: _ :: _ => trivial

/-- Case, blanks and comments do not matter. -/
theorem parse_restyled (lexed : tokenize source = .ok ts)
    (restyled : Restyled ts source.toList source'.toList) :
    ∃ there : Token → Token, tokenize source' = .ok (ts.map there) ∧
      (∀ t ∈ ts, (there t).kind = t.kind) ∧
      ReadAlike (Alike QueryList.outline QueryList.texts source.toList source'.toList there ts)
        (QueryList.parse source) (QueryList.parse source') ∧
      ReadAlike (Alike Query.outline Query.texts source.toList source'.toList there ts)
        (Query.parse source) (Query.parse source') ∧
      ReadAlike (Alike Condition.outline Condition.texts source.toList source'.toList there ts)
        (Condition.parse source) (Condition.parse source') := by
  obtain ⟨there, back, paired, lexed'⟩ := restyled.tokenize_eq_ok lexed
  have lists := paired.readAlike QueryList.parse_eq_ok_iff QueryList.Derives.exists_alike lexed
    lexed'
  have conditions := paired.readAlike Condition.parse_eq_ok_iff Condition.Derives.exists_alike lexed
    lexed'
  exact ⟨there, lexed', paired.kind, lists, Query.readAlike lists, conditions⟩

/-- A source with letters in upper case and with comments between its tokens has the outline of the
source without them. -/
theorem parse_restyled_shouted :
    ∃ list', QueryList.parse "TV/**/ AND (A /* or */b)" = .ok list' ∧
      QueryList.outline list' = [⟨none, .other "tv", some (.and [.enclosed ""])⟩] := by
  let ts : List Token := [⟨.ident "tv", 0, 2⟩, ⟨.ident "and", 3, 6⟩, ⟨.opening, 7, 8⟩,
    ⟨.ident "a", 8, 9⟩, ⟨.ident "b", 10, 11⟩, ⟨.closing, 11, 12⟩]
  have lexed : tokenize "tv and (a b)" = .ok ts := by cbv
  have read : QueryList.parse "tv and (a b)" =
      .ok [⟨none, .other "tv", some (.and [.enclosed "(a b)"])⟩] := by cbv
  have behindTv : IsEdge 0 12 ts 2 := .inr (.inr ⟨_, List.mem_cons_self, .inr rfl⟩)
  have beforeB : IsEdge 0 12 ts 10 := .inr (.inr ⟨⟨.ident "b", 10, 11⟩, by simp [ts], .inl rfl⟩)
  have empty : Text.IsGap ['/', '*', '*', '/'] := @Text.IsGap.comment [] (by decide)
  have comment : Text.IsGap ['/', '*', ' ', 'o', 'r', ' ', '*', '/'] :=
    @Text.IsGap.comment [' ', 'o', 'r', ' '] (by decide)
  have spaced : Text.Spaced (IsEdge 0 12 ts) 0
      (['T', 'V'] ++ ([' ', 'A', 'N', 'D', ' ', '(', 'A', ' '] ++ ['b', ')'])) _ :=
    .insert behindTv empty (.insert beforeB comment .rest)
  have restyled : Restyled ts "tv and (a b)".toList "TV/**/ AND (A /* or */b)".toList :=
    ⟨_, by decide, spaced⟩
  obtain ⟨there, _, _, lists, _⟩ := parse_restyled lexed restyled
  rw [read] at lists
  cases read' : QueryList.parse "TV/**/ AND (A /* or */b)" with
  | error e => rw [read'] at lists; exact lists.elim
  | ok list' =>
    rw [read'] at lists
    exact ⟨list', rfl, lists.outline⟩

end Restyled

end MediaQuery
