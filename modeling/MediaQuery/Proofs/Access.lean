import MediaQuery.Query.Parser

set_option autoImplicit false

/- Access by offsets. A reader that works on byte offsets of a text and on positions in a list may
step out of what it reads, or land inside of a character. Such a step gives nothing at all, which is
neither a result nor an error of the text. -/
namespace MediaQuery

/-- What a reader by offsets gives: a result, an error, or nothing if it has gone astray. -/
abbrev Access := ExceptT ParseError Option

namespace Access

variable {α β : Type}

def find (x : Option α) : Access α := ExceptT.lift x

/-- Nothing. -/
def astray : Access α := ExceptT.mk none

@[simp] theorem find_some (a : α) : find (some a) = pure a := rfl

@[simp] theorem ofExcept_ok (a : α) : (ofExcept (.ok a) : Access α) = pure a := rfl

theorem ofExcept_bind (x : Except ParseError α) (next : α → Except ParseError β) :
    (ofExcept (x >>= next) : Access β) = ofExcept x >>= fun a => ofExcept (next a) := by
  cases x <;> rfl

/-- The part of a list between two positions, if they are in order and inside of the list. -/
def part (xs : List α) (start stop : Nat) : Access (List α) :=
  find (if start ≤ stop ∧ stop ≤ xs.length then some ((xs.take stop).drop start) else none)

theorem part_append (xs ys zs : List α) :
    part (xs ++ (ys ++ zs)) xs.length (xs.length + ys.length) = pure ys := by
  have inside : xs.length ≤ xs.length + ys.length ∧
      xs.length + ys.length ≤ (xs ++ (ys ++ zs)).length := by
    simp only [List.length_append]
    omega
  rw [part, if_pos inside, ← List.append_assoc, ← List.length_append, List.take_left,
    List.drop_left]
  rfl

end Access

namespace Text

/-- A text divided at a byte offset, if a character begins there or the text ends there. -/
def divide? : Nat → List Char → Option (List Char × List Char)
  | 0, cs => some ([], cs)
  | _ + 1, [] => none
  | n + 1, c :: cs =>
    if c.utf8Size ≤ n + 1 then
      (divide? (n + 1 - c.utf8Size) cs).map fun (front, rest) => (c :: front, rest)
    else none

def from? (start : Nat) (cs : List Char) : Option (List Char) := (divide? start cs).map Prod.snd

def upTo? (stop : Nat) (cs : List Char) : Option (List Char) := (divide? stop cs).map Prod.fst

def slice? (cs : List Char) (start stop : Nat) : Option (List Char) :=
  if start ≤ stop then (from? start cs).bind (upTo? (stop - start)) else none

theorem byteSize_cons_eq_iff {c : Char} {cs : List Char} {n : Nat} :
    byteSize (c :: cs) = n ↔ c.utf8Size ≤ n ∧ byteSize cs = n - c.utf8Size := by
  rw [byteSize]
  omega

/-- A text is divided exactly at the ends of its parts. -/
theorem divide?_eq_some {n : Nat} {cs front rest : List Char} :
    divide? n cs = some (front, rest) ↔ cs = front ++ rest ∧ byteSize front = n := by
  induction front generalizing n cs with
  | nil =>
    rcases n with _ | n
    · simp [divide?, byteSize]
    · have positive : byteSize [] ≠ n + 1 := (Nat.succ_ne_zero n).symm
      cases cs with
      | nil => simp [divide?, positive]
      | cons c cs =>
        rw [divide?]
        split <;> simp [positive]
  | cons d front ih =>
    rcases n with _ | n
    · have positive := d.utf8Size_pos
      have filled : byteSize (d :: front) ≠ 0 := by
        rw [byteSize]
        omega
      simp [divide?, filled]
    · cases cs with
      | nil => simp [divide?]
      | cons c cs =>
        rw [byteSize_cons_eq_iff, divide?]
        split
        · simp only [Option.map_eq_some_iff, Prod.exists, Prod.mk.injEq, List.cons.injEq,
            List.cons_append]
          constructor
          · rintro ⟨xs, ys, divided, ⟨rfl, rfl⟩, rfl⟩
            obtain ⟨rfl, size⟩ := ih.1 divided
            exact ⟨⟨rfl, rfl⟩, ‹_›, size⟩
          · rintro ⟨⟨rfl, rfl⟩, _, size⟩
            exact ⟨front, rest, ih.2 ⟨rfl, size⟩, ⟨rfl, rfl⟩, rfl⟩
        · simp only [reduceCtorEq, List.cons_append, List.cons.injEq, false_iff, not_and]
          rintro ⟨rfl, rfl⟩ fits
          exact absurd fits ‹_›

theorem from?_append (front rest : List Char) :
    from? (byteSize front) (front ++ rest) = some rest := by
  rw [from?, divide?_eq_some.2 ⟨rfl, rfl⟩]
  rfl

theorem upTo?_append (front rest : List Char) :
    upTo? (byteSize front) (front ++ rest) = some front := by
  rw [upTo?, divide?_eq_some.2 ⟨rfl, rfl⟩]
  rfl

/-- There is a part between two offsets exactly if the text divides there. -/
theorem slice?_eq_some {cs inside : List Char} {start stop : Nat} :
    slice? cs start stop = some inside ↔
      ∃ front back, cs = front ++ (inside ++ back) ∧ byteSize front = start ∧
        byteSize (front ++ inside) = stop := by
  rw [slice?]
  constructor
  · intro found
    split at found
    · rw [Option.bind_eq_some_iff] at found
      obtain ⟨rest, dropped, taken⟩ := found
      obtain ⟨⟨front, _⟩, divided, rfl⟩ := Option.map_eq_some_iff.1 dropped
      obtain ⟨⟨_, back⟩, again, rfl⟩ := Option.map_eq_some_iff.1 taken
      obtain ⟨rfl, rfl⟩ := divide?_eq_some.1 divided
      obtain ⟨rfl, size⟩ := divide?_eq_some.1 again
      refine ⟨front, back, rfl, rfl, ?_⟩
      dsimp only at *
      rw [byteSize_append]
      omega
    · cases found
  · rintro ⟨front, back, rfl, rfl, rfl⟩
    rw [byteSize_append, if_pos (Nat.le_add_right _ _), from?_append, Option.bind_some,
      Nat.add_sub_cancel_left, upTo?_append]

end Text

end MediaQuery
