set_option autoImplicit false

namespace MediaQuery

/-- A finite map from names, in increasing order of the names. -/
structure KeyMap (α : Type) where
  entries : List (String × α)
  sorted : entries.Pairwise fun x y => x.1 < y.1

namespace KeyMap

variable {α β : Type}

def empty : KeyMap α := ⟨[], List.Pairwise.nil⟩

instance : Inhabited (KeyMap α) := ⟨empty⟩

/-- Puts a value under a name; `combine` joins the value already there with the new one. -/
def put (combine : α → α → α) (k : String) (v : α) : List (String × α) → List (String × α)
  | [] => [(k, v)]
  | (k', v') :: rest =>
    if k < k' then (k, v) :: (k', v') :: rest
    else if k = k' then (k, combine v' v) :: rest
    else (k', v') :: put combine k v rest

theorem fst_of_mem_put {combine : α → α → α} {k : String} {v : α} {x : String × α}
    {entries : List (String × α)} (h : x ∈ put combine k v entries) :
    x.1 = k ∨ ∃ y ∈ entries, y.1 = x.1 := by
  induction entries with
  | nil => simp only [put, List.mem_singleton] at h; exact .inl (by rw [h])
  | cons e rest ih =>
    obtain ⟨k', v'⟩ := e
    simp only [put] at h
    split at h
    · rcases List.mem_cons.1 h with rfl | h
      · exact .inl rfl
      · exact .inr ⟨x, h, rfl⟩
    · split at h
      · rcases List.mem_cons.1 h with rfl | h
        · exact .inl rfl
        · exact .inr ⟨x, List.mem_cons_of_mem _ h, rfl⟩
      · rcases List.mem_cons.1 h with rfl | h
        · exact .inr ⟨_, List.mem_cons_self, rfl⟩
        · rcases ih h with h | ⟨y, hy, h⟩
          · exact .inl h
          · exact .inr ⟨y, List.mem_cons_of_mem _ hy, h⟩

theorem put_sorted (combine : α → α → α) (k : String) (v : α) {entries : List (String × α)}
    (h : entries.Pairwise fun x y => x.1 < y.1) :
    (put combine k v entries).Pairwise fun x y => x.1 < y.1 := by
  induction entries with
  | nil => simp [put]
  | cons e rest ih =>
    obtain ⟨k', v'⟩ := e
    have ⟨head, tail⟩ := List.pairwise_cons.1 h
    simp only [put]
    split
    · rename_i lt
      refine List.pairwise_cons.2 ⟨fun y hy => ?_, h⟩
      rcases List.mem_cons.1 hy with rfl | hy
      · exact lt
      · exact String.lt_trans lt (head y hy)
    · split
      · rename_i eq
        subst eq
        exact List.pairwise_cons.2 ⟨head, tail⟩
      · rename_i nlt ne
        refine List.pairwise_cons.2 ⟨fun y hy => ?_, ih tail⟩
        have gt : k' < k := by
          rcases Classical.em (k' < k) with gt | ngt
          · exact gt
          · exact absurd (String.le_antisymm (String.not_lt.1 ngt) (String.not_lt.1 nlt)) ne
        rcases fst_of_mem_put hy with hk | ⟨z, hz, hk⟩
        · rw [hk]; exact gt
        · rw [← hk]; exact head z hz

/-- Puts a value under a name, joined with the one already there. -/
def insertWith (combine : α → α → α) (m : KeyMap α) (k : String) (v : α) : KeyMap α :=
  ⟨put combine k v m.entries, put_sorted combine k v m.sorted⟩

def insert (m : KeyMap α) (k : String) (v : α) : KeyMap α := m.insertWith (fun _ new => new) k v

def single (k : String) (v : α) : KeyMap α := ⟨[(k, v)], by simp⟩

/-- The map of a list of names and values; the last value of a name counts. -/
def ofList (entries : List (String × α)) : KeyMap α :=
  entries.foldl (fun m e => m.insert e.1 e.2) empty

def merge (combine : α → α → α) (a b : KeyMap α) : KeyMap α :=
  b.entries.foldl (fun m e => m.insertWith combine e.1 e.2) a

def get? (m : KeyMap α) (k : String) : Option α := m.entries.lookup k

def keys (m : KeyMap α) : List String := m.entries.map Prod.fst

def values (m : KeyMap α) : List α := m.entries.map Prod.snd

def isEmpty (m : KeyMap α) : Bool := m.entries.isEmpty

/-- Replaces values, or drops them with their names. -/
def filterMap (f : String → α → Option β) (m : KeyMap α) : KeyMap β :=
  ⟨m.entries.filterMap fun e => (f e.1 e.2).map (e.1, ·), by
    refine List.Pairwise.filterMap _ (fun x y lt a ha b hb => ?_) m.sorted
    obtain ⟨_, _, rfl⟩ := Option.map_eq_some_iff.1 ha
    obtain ⟨_, _, rfl⟩ := Option.map_eq_some_iff.1 hb
    exact lt⟩

def same (eq : α → α → Bool) (a b : KeyMap α) : Bool :=
  a.entries.length == b.entries.length &&
    (a.entries.zip b.entries).all fun (x, y) => x.1 == y.1 && eq x.2 y.2

/-- The names of a list in increasing order, each once. -/
def sortNames (names : List String) : List String :=
  (ofList (names.map fun name => (name, ()))).keys

theorem lookup_put_self (combine : α → α → α) (k : String) (v : α) {entries : List (String × α)}
    (h : entries.Pairwise fun x y => x.1 < y.1) :
    (put combine k v entries).lookup k = some ((entries.lookup k).elim v (combine · v)) := by
  induction entries with
  | nil => simp [put]
  | cons e rest ih =>
    obtain ⟨k', v'⟩ := e
    have ⟨head, tail⟩ := List.pairwise_cons.1 h
    simp only [put]
    split
    · rename_i lt
      have absent : ((k', v') :: rest).lookup k = none := by
        refine List.lookup_eq_none_iff.2 fun y hy => ?_
        have : k < y.1 := by
          rcases List.mem_cons.1 hy with rfl | hy
          · exact lt
          · exact String.lt_trans lt (head y hy)
        simpa using fun eq => String.lt_irrefl _ (eq ▸ this)
      simp [absent]
    · split
      · rename_i eq
        subst eq
        simp
      · rename_i ne
        have hk : (k == k') = false := by simpa using ne
        simp only [List.lookup_cons, hk, ih tail]

theorem lookup_put_of_ne (combine : α → α → α) {k j : String} (v : α) (ne : j ≠ k)
    (entries : List (String × α)) :
    (put combine k v entries).lookup j = entries.lookup j := by
  have hj : (j == k) = false := by simpa using ne
  induction entries with
  | nil => simp [put, ne]
  | cons e rest ih =>
    obtain ⟨k', v'⟩ := e
    simp only [put]
    split
    · simp [List.lookup_cons, hj]
    · split
      · rename_i eq
        subst eq
        simp [List.lookup_cons, hj]
      · simp only [List.lookup_cons, ih]

theorem get?_insertWith_self (combine : α → α → α) (m : KeyMap α) (k : String) (v : α) :
    (m.insertWith combine k v).get? k = some ((m.get? k).elim v (combine · v)) :=
  lookup_put_self combine k v m.sorted

theorem get?_insertWith_of_ne (combine : α → α → α) (m : KeyMap α) {k j : String} (v : α)
    (ne : j ≠ k) : (m.insertWith combine k v).get? j = m.get? j :=
  lookup_put_of_ne combine v ne m.entries

end KeyMap

end MediaQuery
