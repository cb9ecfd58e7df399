set_option autoImplicit false

namespace MediaQuery.Text

def byteSize : List Char → Nat
  | [] => 0
  | c :: cs => c.utf8Size + byteSize cs

/-- Drops whole characters until at least `n` bytes are gone. -/
def dropBytes : Nat → List Char → List Char
  | _, [] => []
  | n, c :: cs => if n = 0 then c :: cs else dropBytes (n - c.utf8Size) cs

/-- Takes whole characters while they begin within the first `n` bytes. -/
def takeBytes : Nat → List Char → List Char
  | _, [] => []
  | n, c :: cs => if n = 0 then [] else c :: takeBytes (n - c.utf8Size) cs

def slice (cs : List Char) (start stop : Nat) : List Char :=
  takeBytes (stop - start) (dropBytes start cs)

def dropStart? : List Char → List Char → Option (List Char)
  | [], cs => some cs
  | s :: start, c :: cs => if s = c then dropStart? start cs else none
  | _ :: _, [] => none

theorem dropStart?_eq_some_iff (start cs rest : List Char) :
    dropStart? start cs = some rest ↔ cs = start ++ rest := by
  induction start generalizing cs with
  | nil => simp [dropStart?]
  | cons s start ih =>
    cases cs with
    | nil => simp [dropStart?]
    | cons c cs =>
      by_cases h : s = c
      · simp [dropStart?, h, ih]
      · simp [dropStart?, h, Ne.symm h]

@[simp] theorem byteSize_append (xs ys : List Char) :
    byteSize (xs ++ ys) = byteSize xs + byteSize ys := by
  induction xs with
  | nil => simp [byteSize]
  | cons c cs ih => simp only [List.cons_append, byteSize, ih]; omega

theorem dropBytes_append (xs ys : List Char) : dropBytes (byteSize xs) (xs ++ ys) = ys := by
  induction xs with
  | nil => cases ys <;> simp [byteSize, dropBytes]
  | cons c cs ih =>
    have h : c.utf8Size + byteSize cs ≠ 0 := by have := Char.utf8Size_pos c; omega
    simp only [List.cons_append, byteSize, dropBytes, h, if_false, Nat.add_sub_cancel_left, ih]

theorem takeBytes_append (xs ys : List Char) : takeBytes (byteSize xs) (xs ++ ys) = xs := by
  induction xs with
  | nil => cases ys <;> simp [byteSize, takeBytes]
  | cons c cs ih =>
    have h : c.utf8Size + byteSize cs ≠ 0 := by have := Char.utf8Size_pos c; omega
    simp only [List.cons_append, byteSize, takeBytes, h, if_false, Nat.add_sub_cancel_left, ih]

theorem slice_append (xs ys zs : List Char) :
    slice (xs ++ (ys ++ zs)) (byteSize xs) (byteSize xs + byteSize ys) = ys := by
  simp only [slice, Nat.add_sub_cancel_left, dropBytes_append, takeBytes_append]

end MediaQuery.Text
