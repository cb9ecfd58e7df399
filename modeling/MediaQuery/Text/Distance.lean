set_option autoImplicit false

namespace MediaQuery.Text

/-- The entries of the next row behind its first one, from the row above it. `left` is the entry
just written and `corner` the one above it. -/
def nextEntries (a : Char) : List Char → List Nat → Nat → Nat → List Nat
  | b :: bs, above :: row, left, corner =>
    let entry := min (min (left + 1) (above + 1)) (corner + if a = b then 0 else 1)
    entry :: nextEntries a bs row entry above
  | _, _, _, _ => []

/-- The row of distances from a text grown by one character to all starts of the second text. -/
def nextRow (bs : List Char) (a : Char) : List Nat → List Nat
  | [] => []
  | corner :: row => (corner + 1) :: nextEntries a bs row (corner + 1) corner

def editDistance (xs ys : List Char) : Nat :=
  (xs.foldl (fun row a => nextRow ys a row) (List.range (ys.length + 1))).getLastD 0

end MediaQuery.Text
