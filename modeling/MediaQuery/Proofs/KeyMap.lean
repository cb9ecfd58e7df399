import Mathlib.Data.List.Zip
import MediaQuery.KeyMap

set_option autoImplicit false

namespace MediaQuery

namespace KeyMap

variable {α β : Type}

private theorem lookup_of_mem {k : String} {v : α} {entries : List (String × α)}
    (sorted : entries.Pairwise fun x y => x.1 < y.1) (mem : (k, v) ∈ entries) :
    entries.lookup k = some v := by
  induction entries with
  | nil => cases mem
  | cons e rest ih =>
    have ⟨head, tail⟩ := List.pairwise_cons.1 sorted
    rcases List.mem_cons.1 mem with rfl | mem
    · simp
    · have lower := head _ mem
      have ne : (k == e.1) = false := by
        simpa using fun eq : k = e.1 => String.lt_irrefl _ (eq ▸ lower)
      rw [List.lookup_cons, ne]
      exact ih tail mem

private theorem mem_of_lookup {k : String} {v : α} {entries : List (String × α)}
    (found : entries.lookup k = some v) : (k, v) ∈ entries := by
  obtain ⟨before, behind, rfl, _⟩ := List.lookup_eq_some_iff.1 found
  simp

theorem mem_entries {m : KeyMap α} {k : String} {v : α} :
    (k, v) ∈ m.entries ↔ m.get? k = some v :=
  ⟨lookup_of_mem m.sorted, mem_of_lookup⟩

theorem all_entries {m : KeyMap α} {p : String × α → Bool} :
    m.entries.all p = true ↔ ∀ k v, m.get? k = some v → p (k, v) = true := by
  rw [List.all_eq_true]
  constructor
  · intro every k v found
    exact every _ (mem_entries.2 found)
  · rintro every ⟨k, v⟩ mem
    exact every k v (mem_entries.1 mem)

theorem any_values {m : KeyMap α} {p : α → Bool} :
    m.values.any p = true ↔ ∃ k v, m.get? k = some v ∧ p v = true := by
  rw [values, List.any_map, List.any_eq_true]
  constructor
  · rintro ⟨⟨k, v⟩, mem, holds⟩
    exact ⟨k, v, mem_entries.1 mem, holds⟩
  · rintro ⟨k, v, found, holds⟩
    exact ⟨(k, v), mem_entries.2 found, holds⟩

theorem get?_single (k j : String) (v : α) :
    (single k v).get? j = if j = k then some v else none := by
  simp only [single, get?, List.lookup_cons, List.lookup_nil]
  by_cases eq : j = k
  · simp [eq]
  · rw [if_neg eq, beq_false_of_ne eq]

theorem isEmpty_keys {m : KeyMap α} : m.keys.isEmpty = true ↔ ∀ k, m.get? k = none := by
  rw [keys, List.isEmpty_iff, List.map_eq_nil_iff]
  constructor
  · intro none k
    simp [get?, none]
  · intro absent
    refine List.eq_nil_iff_forall_not_mem.2 ?_
    rintro ⟨k, v⟩ mem
    simpa [absent k] using mem_entries.1 mem

theorem eq_empty_of_isEmpty {m : KeyMap α} (none : m.isEmpty = true) : m = empty := by
  obtain ⟨entries, sorted⟩ := m
  cases List.isEmpty_iff.1 none
  rfl

theorem get?_filterMap (f : String → α → Option β) (m : KeyMap α) (k : String) :
    (m.filterMap f).get? k = (m.get? k).bind (f k) := by
  refine Option.ext fun v => ?_
  rw [← mem_entries, Option.bind_eq_some_iff]
  simp only [filterMap, List.mem_filterMap]
  constructor
  · rintro ⟨⟨j, u⟩, mem, found⟩
    obtain ⟨w, value, eq⟩ := Option.map_eq_some_iff.1 found
    cases eq
    exact ⟨u, mem_entries.1 mem, value⟩
  · rintro ⟨u, found, value⟩
    exact ⟨(k, u), mem_entries.2 found, by simp [value]⟩

/-- What two values under one name become; a value under a name of one map alone stays. -/
def joined (combine : α → α → α) : Option α → Option α → Option α
  | some x, some y => some (combine x y)
  | some x, none => some x
  | none, y => y

private theorem get?_insertWith (combine : α → α → α) (m : KeyMap α) (k j : String) (v : α) :
    (m.insertWith combine k v).get? j =
      joined combine (m.get? j) (if j = k then some v else none) := by
  by_cases eq : j = k
  · rw [if_pos eq, eq, get?_insertWith_self]
    cases m.get? k <;> rfl
  · rw [if_neg eq, get?_insertWith_of_ne combine m v eq]
    cases m.get? j <;> rfl

private theorem get?_foldl_insertWith (combine : α → α → α) (m : KeyMap α) (j : String)
    {entries : List (String × α)} (distinct : entries.Pairwise fun x y => x.1 ≠ y.1) :
    (entries.foldl (fun m e => m.insertWith combine e.1 e.2) m).get? j =
      joined combine (m.get? j) (entries.lookup j) := by
  induction entries generalizing m with
  | nil => cases found : m.get? j <;> simp [joined, found]
  | cons e rest ih =>
    have ⟨head, tail⟩ := List.pairwise_cons.1 distinct
    rw [List.foldl_cons, ih _ tail, get?_insertWith, List.lookup_cons]
    by_cases eq : j = e.1
    · have absent : rest.lookup j = none := by
        refine List.lookup_eq_none_iff.2 fun y mem => ?_
        simpa [eq] using head y mem
      rw [absent]
      cases m.get? j <;> simp [joined, eq]
    · have ne : (j == e.1) = false := by simpa using eq
      rw [if_neg eq, ne]
      cases m.get? j <;> simp [joined]

theorem entries_distinct (m : KeyMap α) :
    m.entries.Pairwise fun x y => x.1 ≠ y.1 :=
  m.sorted.imp fun lower => by
    intro eq
    rw [eq] at lower
    exact String.lt_irrefl _ lower

/-- A name of both maps has its two values combined, a name of one map keeps its value. -/
theorem get?_merge (combine : α → α → α) (a b : KeyMap α) (k : String) :
    (a.merge combine b).get? k = joined combine (a.get? k) (b.get? k) := by
  rw [merge, get?_foldl_insertWith combine a k b.entries_distinct]
  rfl

/-- In a map made of a list with distinct names, each name has the value it has in the list. -/
theorem get?_ofList {entries : List (String × α)}
    (distinct : entries.Pairwise fun x y => x.1 ≠ y.1) (k : String) :
    (ofList entries).get? k = entries.lookup k :=
  get?_foldl_insertWith _ empty k distinct

theorem mem_keys {m : KeyMap α} {k : String} : k ∈ m.keys ↔ (m.get? k).isSome = true := by
  rw [keys, List.mem_map, Option.isSome_iff_exists]
  constructor
  · rintro ⟨⟨k, v⟩, mem, rfl⟩
    exact ⟨v, mem_entries.1 mem⟩
  · rintro ⟨v, found⟩
    exact ⟨(k, v), mem_entries.2 found, rfl⟩

private theorem isSome_get?_foldl_insertWith (combine : α → α → α) (m : KeyMap α) (j : String)
    (entries : List (String × α)) :
    ((entries.foldl (fun m e => m.insertWith combine e.1 e.2) m).get? j).isSome =
      ((m.get? j).isSome || (entries.map Prod.fst).contains j) := by
  induction entries generalizing m with
  | nil => simp
  | cons e rest ih =>
    rw [List.foldl_cons, ih, get?_insertWith, List.map_cons, List.contains_cons, ← Bool.or_assoc]
    congr 1
    by_cases eq : j = e.1
    · cases m.get? j <;> simp [joined, eq]
    · rw [if_neg eq, beq_false_of_ne eq]
      cases m.get? j <;> simp [joined]

theorem mem_sortNames {names : List String} {name : String} :
    name ∈ sortNames names ↔ name ∈ names := by
  rw [sortNames, mem_keys, ofList]
  simp only [insert]
  rw [isSome_get?_foldl_insertWith]
  simp [empty, get?, Function.comp_def]

theorem keys_pairwise (m : KeyMap α) : m.keys.Pairwise (· < ·) := List.pairwise_map.2 m.sorted

/-- Maps with the same names list them in the same order. -/
theorem keys_eq_of_mem_iff {a : KeyMap α} {b : KeyMap β} (names : ∀ k, k ∈ a.keys ↔ k ∈ b.keys) :
    a.keys = b.keys := by
  have distinct {γ : Type} (m : KeyMap γ) : m.keys.Nodup := List.pairwise_map.2 m.entries_distinct
  refine List.Perm.eq_of_pairwise (fun j k _ _ lower upper => ?_) a.keys_pairwise b.keys_pairwise
    ((List.perm_ext_iff_of_nodup (distinct a) (distinct b)).2 names)
  exact absurd upper (String.lt_asymm lower)

private theorem getElem_entries {a : KeyMap α} {b : KeyMap β} (names : a.keys = b.keys) {i : Nat}
    (hi : i < a.entries.length) (hj : i < b.entries.length) :
    a.entries[i].1 = b.entries[i].1 ∧ a.get? a.entries[i].1 = some a.entries[i].2 ∧
      b.get? b.entries[i].1 = some b.entries[i].2 := by
  have place : a.keys[i]? = b.keys[i]? := by rw [names]
  refine ⟨by simpa [keys, hi, hj] using place, ?_, ?_⟩
  · exact mem_entries.1 (List.getElem_mem hi)
  · exact mem_entries.1 (List.getElem_mem hj)

private theorem length_entries {a : KeyMap α} {b : KeyMap β} (names : a.keys = b.keys) :
    a.entries.length = b.entries.length := by
  simpa [keys] using congrArg List.length names

/-- Maps that give the same value for every name are the same map. -/
theorem ext_get? {a b : KeyMap α} (values : ∀ k, a.get? k = b.get? k) : a = b := by
  have names : a.keys = b.keys := keys_eq_of_mem_iff fun k => by rw [mem_keys, mem_keys, values]
  have entries : a.entries = b.entries := by
    refine List.ext_getElem (length_entries names) fun i hi hj => ?_
    obtain ⟨name, first, second⟩ := getElem_entries names hi hj
    rw [values, name, second] at first
    exact Prod.ext name (Option.some.inj first).symm
  cases a
  cases b
  cases entries
  rfl

theorem same_of_get? {eq : α → α → Bool} {a b : KeyMap α} (names : ∀ k, k ∈ a.keys ↔ k ∈ b.keys)
    (values : ∀ k x y, a.get? k = some x → b.get? k = some y → eq x y = true) :
    a.same eq b = true := by
  have names : a.keys = b.keys := keys_eq_of_mem_iff names
  rw [same, Bool.and_eq_true, beq_iff_eq, List.all_eq_true]
  refine ⟨length_entries names, fun pair mem => ?_⟩
  obtain ⟨i, bound, rfl⟩ := List.mem_iff_getElem.1 mem
  have inside := bound
  rw [List.length_zip] at inside
  obtain ⟨name, first, second⟩ := getElem_entries names (i := i) (by omega) (by omega)
  rw [List.getElem_zip, Bool.and_eq_true, beq_iff_eq]
  refine ⟨name, values _ _ _ first ?_⟩
  rw [name]
  exact second

theorem get?_of_same {eq : α → α → Bool} {a b : KeyMap α} {key : String} {y : α}
    (level : a.same eq b = true) (found : b.get? key = some y) :
    ∃ x, a.get? key = some x ∧ eq x y = true := by
  rw [same, Bool.and_eq_true, beq_iff_eq, List.all_eq_true] at level
  obtain ⟨i, bound, place⟩ := List.mem_iff_getElem.1 (mem_entries.2 found)
  have inside : i < a.entries.length := by omega
  have both : i < (a.entries.zip b.entries).length := by
    rw [List.length_zip]
    omega
  have pair := level.2 _ (List.getElem_mem both)
  rw [List.getElem_zip] at pair
  simp only [place, Bool.and_eq_true, beq_iff_eq] at pair
  refine ⟨a.entries[i].2, ?_, pair.2⟩
  rw [← pair.1]
  exact mem_entries.1 (List.getElem_mem inside)

theorem same_swap {eq : α → α → Bool} {a b : KeyMap α} (level : a.same eq b = true) :
    b.same (fun y x => eq x y) a = true := by
  rw [same, Bool.and_eq_true, beq_iff_eq, List.all_eq_true] at level ⊢
  obtain ⟨lengths, pairs⟩ := level
  refine ⟨lengths.symm, fun pair mem => ?_⟩
  rw [← List.zip_swap, List.mem_map] at mem
  obtain ⟨swapped, inside, rfl⟩ := mem
  have both := pairs swapped inside
  rw [Bool.and_eq_true, beq_iff_eq] at both ⊢
  exact ⟨both.1.symm, both.2⟩

/-- Sorting sees which names there are, and no more. -/
theorem sortNames_congr {xs ys : List String} (names : ∀ name, name ∈ xs ↔ name ∈ ys) :
    sortNames xs = sortNames ys := by
  refine keys_eq_of_mem_iff fun name => ?_
  change name ∈ sortNames xs ↔ name ∈ sortNames ys
  rw [mem_sortNames, mem_sortNames, names]

end KeyMap

end MediaQuery
