import Mathlib
import MediaQuery.Proofs.Casing
import MediaQuery.Proofs.Placement
import MediaQuery.Proofs.Truncation

set_option autoImplicit false

namespace MediaQuery

namespace Text

/-- A blank, or a comment from its opening mark to the first closing one. -/
inductive IsGap : List Char → Prop where
  | blank {c : Char} (blank : isBlank c = true) : IsGap [c]
  | comment {body : List Char} (unclosed : ¬['*', '/'] <:+: body) :
      IsGap ('/' :: '*' :: (body ++ ['*', '/']))

/-- A text that begins at some byte, and the same text with gaps put in at some offsets. -/
inductive Spaced (edge : Nat → Prop) : Nat → List Char → List Char → Prop where
  | rest {start : Nat} {cs : List Char} : Spaced edge start cs cs
  | insert {start : Nat} {front gap cs cs' : List Char} (here : edge (start + byteSize front))
      (isGap : IsGap gap) (further : Spaced edge (start + byteSize front) cs cs') :
      Spaced edge start (front ++ cs) (front ++ (gap ++ cs'))

private def blanks : List Nat :=
  [9, 10, 11, 12, 13, 0x20, 0x85, 0xA0, 0x1680, 0x2000, 0x2001, 0x2002, 0x2003, 0x2004, 0x2005,
    0x2006, 0x2007, 0x2008, 0x2009, 0x200A, 0x2028, 0x2029, 0x202F, 0x205F, 0x3000]

private theorem mem_blanks {c : Char} (blank : isBlank c = true) : c.toNat ∈ blanks := by
  simp only [isBlank, Bool.or_eq_true, Bool.and_eq_true, decide_eq_true_eq, beq_iff_eq] at blank
  simp only [blanks, List.mem_cons, List.not_mem_nil, or_false]
  omega

theorem Boundary.of_isBlank {c : Char} (blank : isBlank c = true) : Boundary c := by
  have listed : ∀ n ∈ blanks, isNameChar (Char.ofNat n) = false ∧
      isDecimal (Char.ofNat n) = false ∧
      Char.ofNat n ∉ ['.', 'e', 'E', '+', '%', '(', '=', '*'] := by decide +kernel
  have facts := listed _ (mem_blanks blank)
  rw [Char.ofNat_toNat] at facts
  exact ⟨facts.1, facts.2.1, facts.2.2⟩

/-- A gap begins with a character that ends every lexeme in front of it. -/
theorem IsGap.exists_boundary {gap : List Char} (isGap : IsGap gap) :
    ∃ b zs, gap = b :: zs ∧ Boundary b := by
  cases isGap with
  | blank blank => exact ⟨_, _, rfl, .of_isBlank blank⟩
  | comment => exact ⟨_, _, rfl, .slash⟩

end Text

namespace Lexeme

open Text

theorem commentSize?_closed {body : List Char} (unclosed : ¬['*', '/'] <:+: body)
    (rest : List Char) :
    commentSize? (body ++ '*' :: '/' :: rest) = some (body.length + 2) := by
  induction body with
  | nil => rfl
  | cons c body ih =>
    have further : ¬(c = '*' ∧ (body ++ '*' :: '/' :: rest).head? = some '/') := by
      rintro ⟨rfl, front⟩
      cases body with
      | nil => cases front
      | cons d body =>
        cases front
        exact unclosed ⟨[], body, rfl⟩
    have inner : ¬['*', '/'] <:+: body := fun inside =>
      unclosed (inside.trans (List.suffix_cons c body).isInfix)
    rw [List.cons_append, commentSize?_of_not_end further, ih inner]
    rfl

end Lexeme

open Text

/-- A gap leaves no token behind. -/
theorem Text.IsGap.lexes {start : Nat} {gap cs : List Char} {ts : List Token} (isGap : IsGap gap)
    (lexes : Lexes (start + byteSize gap) cs ts) : Lexes start (gap ++ cs) ts := by
  cases isGap with
  | @blank c blank =>
    have front : Lexeme.read c ([] ++ cs) = .gap 0 := by
      rw [Lexeme.read, if_pos blank]
    exact .gap front lexes
  | @comment body unclosed =>
    have front : Lexeme.read '/' (('*' :: (body ++ ['*', '/'])) ++ cs) =
        .gap ('*' :: (body ++ ['*', '/'])).length := by
      have ends := Lexeme.commentSize?_closed unclosed cs
      have begins : ('/' : Char) = '/' ∧ ('*' :: (body ++ '*' :: '/' :: cs)).head? = some '*' :=
        ⟨rfl, rfl⟩
      rw [List.cons_append, List.append_assoc, List.cons_append, List.cons_append,
        List.nil_append, Lexeme.read, if_neg (by decide), if_pos begins, List.drop_succ_cons,
        List.drop_zero, ends]
      simp [Nat.add_comm]
    exact .gap front lexes

/-- An offset at which a token begins or ends, or an end of the text. -/
def IsEdge (start stop : Nat) (ts : List Token) (n : Nat) : Prop :=
  n = start ∨ n = stop ∨ ∃ t ∈ ts, n = t.start ∨ n = t.stop

namespace IsEdge

variable {start middle stop n : Nat} {t : Token} {ts us : List Token}

/-- The edges of a text other than its first one are edges of what follows its first lexeme. -/
theorem behind_gap (edge : IsEdge start stop ts n) (later : n ≠ start) :
    IsEdge middle stop ts n :=
  .inr (edge.resolve_left later)

theorem behind_token {kind : TokenKind} (edge : IsEdge start stop (⟨kind, start, middle⟩ :: ts) n)
    (later : n ≠ start) : IsEdge middle stop ts n := by
  rcases edge.resolve_left later with last | ⟨t, mem, here⟩
  · exact .inr (.inl last)
  · rcases List.mem_cons.1 mem with rfl | mem
    · exact .inl (here.resolve_left later)
    · exact .inr (.inr ⟨t, mem, here⟩)

end IsEdge

namespace Lexes

variable {start n : Nat} {cs xs ys : List Char} {ts us vs : List Token}

/-- The tokens of a text divide at every edge. -/
theorem divided (lexes : Lexes start cs ts) (edge : IsEdge start (start + byteSize cs) ts n) :
    ∃ xs ys us vs, cs = xs ++ ys ∧ ts = us ++ vs ∧ n = start + byteSize xs ∧ Lexes start xs us ∧
      Lexes n ys vs := by
  induction lexes with
  | @nil start =>
    have first : n = start := by
      rcases edge with first | last | ⟨t, mem, _⟩
      · exact first
      · exact last
      · cases mem
    exact ⟨[], [], [], [], rfl, rfl, first, .nil, .nil⟩
  | @gap start c cs rest ts front behind ih =>
    by_cases first : n = start
    · exact ⟨[], _, [], ts, rfl, rfl, first, .nil, by rw [first]; exact .gap front behind⟩
    · rw [← List.cons_append, byteSize_append, ← Nat.add_assoc] at edge
      obtain ⟨xs, ys, us, vs, rfl, rfl, place, left, right⟩ := ih (edge.behind_gap first)
      refine ⟨c :: (cs ++ xs), ys, us, vs, by simp, rfl, ?_,
        .gap (read_part front rfl nofun) left, right⟩
      rw [place, ← List.cons_append, byteSize_append, Nat.add_assoc]
  | @token start c cs rest kind ts front behind ih =>
    by_cases first : n = start
    · exact ⟨[], _, [], _, rfl, rfl, first, .nil, by rw [first]; exact .token front behind⟩
    · rw [← List.cons_append, byteSize_append, ← Nat.add_assoc] at edge
      obtain ⟨xs, ys, us, vs, rfl, rfl, place, left, right⟩ := ih (edge.behind_token first)
      refine ⟨c :: (cs ++ xs), ys, _ :: us, vs, by simp, rfl, ?_,
        .token (read_part front rfl nofun) left, right⟩
      rw [place, ← List.cons_append, byteSize_append, Nat.add_assoc]

theorem le_end (lexes : Lexes start cs ts) : ∀ t ∈ ts,
    t.start ≤ start + byteSize cs ∧ t.stop ≤ start + byteSize cs := by
  intro t mem
  obtain ⟨i, j, first, last, begins, ends⟩ := lexes.isOffset t mem
  have := first.le
  have := last.le
  omega

/-- Of the edges of two adjacent texts those from the second one on are edges of it. -/
theorem isEdge_right {stop m : Nat} (left : Lexes start xs us) (place : n = start + byteSize xs)
    (edge : IsEdge start stop (us ++ vs) m) (later : n ≤ m) : IsEdge n stop vs m := by
  rcases edge with first | last | ⟨t, mem, here⟩
  · exact .inl (by omega)
  · exact .inr (.inl last)
  · rcases List.mem_append.1 mem with before | mem
    · have bounds := left.le_end t before
      exact .inl (by omega)
    · exact .inr (.inr ⟨t, mem, here⟩)

theorem relocated (lexes : Lexes start cs ts) (m : Nat) :
    ∃ us, Lexes m cs us ∧ us.map Token.kind = ts.map Token.kind := by
  rw [← Nat.add_zero start] at lexes
  obtain ⟨us, alone, rfl⟩ := lexes.rebased
  refine ⟨_, alone.moved m, ?_⟩
  rw [List.map_map, List.map_map]
  rfl

/-- Gaps that are put in at edges leave the kinds of the tokens as they are. -/
theorem spaced {edge : Nat → Prop} {cs' : List Char} (lexes : Lexes start cs ts)
    (edges : ∀ m, start ≤ m → edge m → IsEdge start (start + byteSize cs) ts m)
    (spaced : Spaced edge start cs cs') (m : Nat) :
    ∃ ts', Lexes m cs' ts' ∧ ts'.map Token.kind = ts.map Token.kind := by
  induction spaced generalizing ts m with
  | rest => exact lexes.relocated m
  | @insert start front gap cs cs' here isGap further ih =>
    obtain ⟨xs, ys, us, vs, same, rfl, place, left, right⟩ :=
      lexes.divided (edges _ (Nat.le_add_right _ _) here)
    have size : byteSize xs = byteSize front := by omega
    obtain rfl : front = xs := by
      rw [← takeBytes_append front cs, ← takeBytes_append xs ys, same, size]
    obtain rfl : cs = ys := List.append_cancel_left same
    obtain ⟨us', left', kinds⟩ := left.relocated m
    obtain ⟨vs', right', kinds'⟩ := ih right (fun k later edge => by
      have inside := left.isEdge_right rfl (edges k (by omega) edge) later
      rwa [byteSize_append, ← Nat.add_assoc] at inside) (m + byteSize front + byteSize gap)
    obtain ⟨b, zs, rfl, boundary⟩ := isGap.exists_boundary
    refine ⟨us' ++ vs', left'.append boundary (isGap.lexes right'), ?_⟩
    rw [List.map_append, List.map_append, kinds, kinds']

theorem filled (lexes : Lexes start cs ts) : ∀ t ∈ ts, t.start < t.stop := by
  induction lexes with
  | nil =>
    intro t mem
    cases mem
  | gap front behind ih => exact ih
  | @token start c cs rest kind ts front behind ih =>
    have positive := c.utf8Size_pos
    refine List.forall_mem_cons.2 ⟨?_, ih⟩
    show start < start + (c.utf8Size + byteSize cs)
    omega

theorem apart (lexes : Lexes start cs ts) : ts.Pairwise fun t u => t.stop ≤ u.start := by
  induction lexes with
  | nil => exact .nil
  | gap front behind ih => exact ih
  | @token start c cs rest kind ts front behind ih =>
    refine List.pairwise_cons.2 ⟨?_, ih⟩
    intro u mem
    obtain ⟨i, _, _, _, begins, _⟩ := behind.isOffset u mem
    show start + byteSize (c :: cs) ≤ u.start
    omega

/-- No two tokens begin at the same place. -/
theorem pairwise_start (lexes : Lexes start cs ts) :
    ts.Pairwise fun t u => t.start < u.start := by
  apply lexes.apart.imp_of_mem
  intro t u mem _ order
  exact Nat.lt_of_lt_of_le (lexes.filled t mem) order

theorem nodup (lexes : Lexes start cs ts) : ts.Nodup := by
  refine lexes.pairwise_start.imp fun {t u} before same => ?_
  rw [same] at before
  exact Nat.lt_irrefl _ before

end Lexes

/-- A text written in another way: some letters in the other case, and gaps at edges of tokens. -/
def Restyled (ts : List Token) (cs cs' : List Char) : Prop :=
  ∃ recased, lowerAll recased = lowerAll cs ∧ Spaced (IsEdge 0 (byteSize cs) ts) 0 recased cs'

theorem Restyled.lexes {ts : List Token} {cs cs' : List Char} (restyled : Restyled ts cs cs')
    (lexes : Lexes 0 cs ts) : ∃ ts', Lexes 0 cs' ts' ∧ ts'.map Token.kind = ts.map Token.kind := by
  obtain ⟨recased, letters, spaced⟩ := restyled
  have size : byteSize recased = byteSize cs := by
    rw [← byteSize_lowerAll, letters, byteSize_lowerAll]
  refine (lexes.recased letters).spaced (fun m _ edge => ?_) spaced 0
  rwa [Nat.zero_add, size]

/-- Lists without repetitions correspond element by element. -/
theorem exists_correspondence {α : Type} {xs ys : List α} (nodup : xs.Nodup) (nodup' : ys.Nodup)
    (length : ys.length = xs.length) :
    ∃ there back : α → α, ys = xs.map there ∧ ∀ x ∈ xs, back (there x) = x := by
  classical
  induction xs generalizing ys with
  | nil =>
    obtain rfl := List.eq_nil_of_length_eq_zero length
    exact ⟨id, id, rfl, fun _ mem => nomatch mem⟩
  | cons x xs ih =>
    cases ys with
    | nil => cases length
    | cons y ys =>
      rw [List.nodup_cons] at nodup nodup'
      obtain ⟨there, back, rfl, returns⟩ := ih nodup.2 nodup'.2 (Nat.succ.inj length)
      have apart {a : α} (mem : a ∈ xs) : a ≠ x := fun same => nodup.1 (same ▸ mem)
      have apart' {a : α} (mem : a ∈ xs) : there a ≠ y := fun same =>
        nodup'.1 (same ▸ List.mem_map_of_mem mem)
      refine ⟨Function.update there x y, Function.update back y x, ?_, ?_⟩
      · rw [List.map_cons, Function.update_self]
        refine congrArg (y :: ·) (List.map_congr_left fun a mem => ?_)
        rw [Function.update_of_ne (apart mem)]
      · refine List.forall_mem_cons.2 ⟨by simp, fun a mem => ?_⟩
        rw [Function.update_of_ne (apart mem), Function.update_of_ne (apart' mem), returns a mem]

end MediaQuery
