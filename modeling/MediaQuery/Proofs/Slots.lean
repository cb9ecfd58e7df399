import Mathlib
import MediaQuery.Profile.Edit

set_option autoImplicit false

namespace MediaQuery

namespace JsonForm

variable {α : Type} [JsonForm α]

def Restored (x : α) : Prop := JsonForm.ofJson? .tight (JsonForm.toJson x) = some x

end JsonForm

/-- Types whose JSON forms stand for no other value than the one that is written. -/
class ExactForm (α : Type) [JsonForm α] : Prop where
  eq_of_read : ∀ {x y : α}, JsonForm.ofJson? .tight (JsonForm.toJson x) = some y → y = x

class FullForm (α : Type) [JsonForm α] : Prop where
  restored : ∀ x : α, JsonForm.Restored x

instance (priority := low) {α : Type} [JsonForm α] [FullForm α] : ExactForm α :=
  ⟨fun {x} _ read => (Option.some.inj ((FullForm.restored x).symm.trans read)).symm⟩

namespace Slot

variable {ρ : Type}

/-- Two parts of which neither is changed when the other one is set. -/
structure Apart (s t : Slot ρ) : Prop where
  left : ∀ r x, s.get (t.set r x) = s.get r
  right : ∀ r x, t.get (s.set r x) = t.get r

/-- A part is read back from its JSON form. -/
def Restores (s : Slot ρ) (r : ρ) : Prop :=
  s.form.ofJson? .tight (s.form.toJson (s.get r)) = some (s.get r)

/-- Parts that hold what was put into them, and that are not changed by one another. -/
structure Separate (slots : List (Slot ρ)) : Prop where
  get_set : ∀ s ∈ slots, ∀ r x, s.get (s.set r x) = x
  apart : slots.Pairwise Apart

/-- The parts of a record of which it is made up. A part that is hidden is that of the default. -/
structure Family (slots : List (Slot ρ)) (default : ρ) : Prop where
  names : (slots.map Slot.name).Nodup
  separate : Separate slots
  exact : ∀ s ∈ slots, @ExactForm s.Part s.form
  hidden : ∀ s ∈ slots, ∀ x, s.hides x = true → x = s.get default
  ext : ∀ {r r' : ρ}, (∀ s ∈ slots, s.get r = s.get r') → r = r'

@[simp] theorem hides_of {α : Type} [JsonForm α] (name : String) (get : ρ → α) (set : ρ → α → ρ)
    (x : (of name get set).Part) : (of name get set).hides x = false := rfl

def Values : List (Slot ρ) → Type
  | [] => Unit
  | s :: slots => s.Part × Values slots

def values : (slots : List (Slot ρ)) → ρ → Values slots
  | [], _ => ()
  | s :: slots, r => (s.get r, values slots r)

/-- Puts values into all parts, one after the other. -/
def setAll : (slots : List (Slot ρ)) → ρ → Values slots → ρ
  | [], r, _ => r
  | s :: slots, r, v => setAll slots (s.set r v.1) v.2

/-- What becomes of all parts when one of some parts is set. -/
def Changes (all : List (Slot ρ)) : List (Slot ρ) → Type
  | [] => Unit
  | s :: rest => (ρ → s.Part → Values all) × Changes all rest

def changes (all : List (Slot ρ)) : (rest : List (Slot ρ)) → Changes all rest
  | [] => ()
  | s :: rest => (fun r x => values all (s.set r x), changes all rest)

/-- The changes of the part that is set alone. The values of all parts are put together from those
of `rest` and, as they are, those of the parts in front. -/
def soleChanges (all : List (Slot ρ)) :
    (rest : List (Slot ρ)) → (ρ → Values rest → Values all) → Changes all rest
  | [], _ => ()
  | s :: rest, together => (fun r x => together r (x, values rest r),
      soleChanges all rest fun r v => together r (s.get r, v))

/-- A record is made of its parts: each one is set alone, and together they are the record. -/
structure Made (slots : List (Slot ρ)) (default : ρ) : Prop where
  alone : changes slots slots = soleChanges slots slots fun _ v => v
  together : ∀ r, setAll slots default (values slots r) = r

variable {slots : List (Slot ρ)} {default r r' : ρ}

theorem values_eq_iff : values slots r = values slots r' ↔ ∀ s ∈ slots, s.get r = s.get r' := by
  induction slots with
  | nil => exact iff_of_true rfl (by simp)
  | cons s slots ih =>
    rw [List.forall_mem_cons, ← ih]
    exact Prod.mk_inj

private theorem separate_of_changes {all : List (Slot ρ)} (together : ρ → Values slots → Values all)
    (keeps : Slot ρ → Prop) (parts : ∀ r r' v, values all r' = together r v →
      values slots r' = v ∧ ∀ s, keeps s → s.get r' = s.get r)
    (same : changes all slots = soleChanges all slots together) :
    Separate slots ∧ ∀ s, keeps s → ∀ t ∈ slots, ∀ r x, s.get (t.set r x) = s.get r := by
  induction slots generalizing keeps with
  | nil => exact ⟨⟨by simp, .nil⟩, by simp⟩
  | cons s slots ih =>
    obtain ⟨first, rest⟩ := Prod.mk.inj same
    have alone (r : ρ) (x : s.Part) := parts r (s.set r x) _ (congrFun₂ first r x)
    obtain ⟨separate, others⟩ := ih (fun r v => together r (s.get r, v))
      (fun t => t = s ∨ keeps t) (fun r r' v same => by
        obtain ⟨here, kept⟩ := parts r r' _ same
        obtain ⟨value, values⟩ := Prod.mk.inj here
        exact ⟨values, fun t keep => keep.elim (fun same => same ▸ value) (kept t)⟩) rest
    refine ⟨⟨List.forall_mem_cons.2 ⟨fun r x => (Prod.mk.inj (alone r x).1).1, separate.get_set⟩,
      .cons (fun t mem => ⟨others s (.inl rfl) t mem, fun r x => ?_⟩) separate.apart⟩,
      fun t keep => List.forall_mem_cons.2 ⟨fun r x => (alone r x).2 t keep,
        others t (.inr keep)⟩⟩
    exact values_eq_iff.1 (Prod.mk.inj (alone r x).1).2 t mem

/-- A record that is made of its parts is a family of them. -/
theorem Made.family (made : Made slots default) (names : (slots.map Slot.name).Nodup)
    (exact : ∀ s ∈ slots, @ExactForm s.Part s.form)
    (hidden : ∀ s ∈ slots, ∀ x, s.hides x = true → x = s.get default) : Family slots default where
  names := names
  separate := (separate_of_changes _ (fun _ => False) (fun _ _ _ same => ⟨same, by simp⟩)
    made.alone).1
  exact := exact
  hidden := hidden
  ext {r r'} same := by
    rw [← made.together r, ← made.together r', values_eq_iff.2 same]

end Slot

namespace Json

variable {key : String} {value : Json} {members : List (String × Json)}

theorem valuesAt_cons (key : String) (m : String × Json) (members : List (String × Json)) :
    valuesAt key (m :: members) =
      if m.1 = key then m.2 :: valuesAt key members else valuesAt key members := by
  by_cases same : m.1 = key <;> simp [valuesAt, same]

theorem valuesAt_eq_nil (absent : ∀ m ∈ members, m.1 ≠ key) : valuesAt key members = [] := by
  simp only [valuesAt, List.map_eq_nil_iff, List.filter_eq_nil_iff, beq_iff_eq]
  exact absent

end Json

namespace Slot

variable {ρ : Type} {slots : List (Slot ρ)} {default : ρ} {fit : Fit}

theorem writeAll_cons (s : Slot ρ) (slots : List (Slot ρ)) (r : ρ) :
    JsonField.writeAll ((s :: slots).map field) r =
      if s.hides (s.get r) then JsonField.writeAll (slots.map field) r
      else (s.name, s.form.toJson (s.get r)) :: JsonField.writeAll (slots.map field) r := by
  by_cases hidden : s.hides (s.get r) = true
  · simp [JsonField.writeAll, field, hidden]
  · simp [JsonField.writeAll, field, hidden]

theorem exists_of_mem_writeAll {r : ρ} {m : String × Json}
    (mem : m ∈ JsonField.writeAll (slots.map field) r) :
    ∃ s ∈ slots, s.hides (s.get r) = false ∧ m = (s.name, s.form.toJson (s.get r)) := by
  obtain ⟨f, inside, written⟩ := List.mem_filterMap.1 mem
  obtain ⟨s, listed, rfl⟩ := List.mem_map.1 inside
  obtain ⟨j, shown, rfl⟩ := Option.map_eq_some_iff.1 written
  simp only [field, Option.ite_none_left_eq_some, Bool.not_eq_true] at shown
  exact ⟨s, listed, shown.1, by rw [← Option.some.inj shown.2]; rfl⟩

/-- The members of a record hold each part once, unless it is hidden. -/
theorem valuesAt_writeAll (names : (slots.map Slot.name).Nodup) (r : ρ) :
    ∀ s ∈ slots, Json.valuesAt s.name (JsonField.writeAll (slots.map field) r) =
      if s.hides (s.get r) then [] else [s.form.toJson (s.get r)] := by
  induction slots with
  | nil => nofun
  | cons t slots ih =>
    obtain ⟨first, rest⟩ := List.nodup_cons.1 names
    have later : Json.valuesAt t.name (JsonField.writeAll (slots.map field) r) = [] := by
      refine Json.valuesAt_eq_nil fun m mem same => first ?_
      obtain ⟨u, listed, _, rfl⟩ := exists_of_mem_writeAll mem
      exact List.mem_map.2 ⟨u, listed, same⟩
    intro s mem
    rw [writeAll_cons]
    rcases List.mem_cons.1 mem with rfl | mem
    · split
      · exact later
      · rw [Json.valuesAt_cons, if_pos rfl, later]
    · have other : t.name ≠ s.name := fun same => first (List.mem_map.2 ⟨s, mem, same.symm⟩)
      rw [← ih rest s mem]
      split
      · rfl
      · rw [Json.valuesAt_cons, if_neg other]

section Reading

variable {members : List (String × Json)} {r r' : ρ}

theorem readAll?_cons (s : Slot ρ) (slots : List (Slot ρ)) (fit : Fit)
    (members : List (String × Json)) (r : ρ) :
    JsonField.readAll? fit ((s :: slots).map field) members r =
      (JsonField.readOne? fit members r s.field).bind
        (JsonField.readAll? fit (slots.map field) members) := rfl

/-- A part is read from its only member, and stays where it has none. -/
theorem get_of_readOne? {s : Slot ρ}
    (read : JsonField.readOne? fit members r s.field = some r') :
    (Json.valuesAt s.name members = [] ∧ r' = r) ∨
      ∃ j x, Json.valuesAt s.name members = [j] ∧ s.form.ofJson? fit j = some x ∧
        r' = s.set r x := by
  unfold JsonField.readOne? at read
  split at read
  · exact .inl ⟨‹_›, (Option.some.inj read).symm⟩
  · obtain ⟨x, found, rfl⟩ := Option.map_eq_some_iff.1 read
    exact .inr ⟨_, x, ‹_›, found, rfl⟩
  · cases read

theorem get_readAll? {s : Slot ρ} (apart : ∀ t ∈ slots, s.Apart t)
    (read : JsonField.readAll? fit (slots.map field) members r = some r') :
    s.get r' = s.get r := by
  induction slots generalizing r with
  | nil =>
    cases read
    rfl
  | cons t slots ih =>
    obtain ⟨first, rest⟩ := List.forall_mem_cons.1 apart
    rw [readAll?_cons] at read
    obtain ⟨r₁, one, more⟩ := Option.bind_eq_some_iff.1 read
    rw [ih rest more]
    rcases get_of_readOne? one with ⟨_, rfl⟩ | ⟨j, x, _, _, rfl⟩
    · rfl
    · exact first.left r x

/-- What is read has the part that its only member stands for, and where there is no member the part
of the record before. -/
theorem get_of_readAll? (separate : Separate slots)
    (read : JsonField.readAll? fit (slots.map field) members r = some r') : ∀ s ∈ slots,
    (Json.valuesAt s.name members = [] ∧ s.get r' = s.get r) ∨
      ∃ j, Json.valuesAt s.name members = [j] ∧ s.form.ofJson? fit j = some (s.get r') := by
  induction slots generalizing r with
  | nil => nofun
  | cons t slots ih =>
    obtain ⟨get_set, gets⟩ := List.forall_mem_cons.1 separate.get_set
    obtain ⟨first, rest⟩ := List.pairwise_cons.1 separate.apart
    rw [readAll?_cons] at read
    obtain ⟨r₁, one, more⟩ := Option.bind_eq_some_iff.1 read
    intro s mem
    rcases List.mem_cons.1 mem with rfl | mem
    · have kept := get_readAll? first more
      rcases get_of_readOne? one with ⟨none, rfl⟩ | ⟨j, x, only, found, rfl⟩
      · exact .inl ⟨none, kept⟩
      · rw [get_set] at kept
        exact .inr ⟨j, only, by rw [kept, found]⟩
    · rcases ih ⟨gets, rest⟩ more s mem with ⟨none, kept⟩ | only
      · refine .inl ⟨none, kept.trans ?_⟩
        rcases get_of_readOne? one with ⟨_, rfl⟩ | ⟨j, x, _, _, rfl⟩
        · rfl
        · exact (first s mem).right r x
      · exact .inr only

/-- A part with a single member is what that one stands for. -/
theorem get_of_single (separate : Separate slots)
    (read : JsonField.readAll? fit (slots.map field) members r = some r') {s : Slot ρ}
    (mem : s ∈ slots) {j : Json} (single : Json.valuesAt s.name members = [j]) :
    s.form.ofJson? fit j = some (s.get r') := by
  rcases get_of_readAll? separate read s mem with ⟨none, _⟩ | ⟨only, alone, found⟩
  · rw [single] at none
    cases none
  · rw [single] at alone
    cases alone
    exact found

theorem exists_readAll? (each : ∀ s ∈ slots, Json.valuesAt s.name members = [] ∨
      ∃ j x, Json.valuesAt s.name members = [j] ∧ s.form.ofJson? fit j = some x) :
    ∃ r', JsonField.readAll? fit (slots.map field) members r = some r' := by
  induction slots generalizing r with
  | nil => exact ⟨r, rfl⟩
  | cons s slots ih =>
    obtain ⟨first, rest⟩ := List.forall_mem_cons.1 each
    have one : ∃ r₁, JsonField.readOne? fit members r s.field = some r₁ := by
      unfold JsonField.readOne?
      rcases first with none | ⟨j, x, only, found⟩
      · exact ⟨r, by rw [show s.field.name = s.name from rfl, none]⟩
      · exact ⟨s.set r x, by rw [show s.field.name = s.name from rfl, only]; simp [field, found]⟩
    obtain ⟨r₁, one⟩ := one
    obtain ⟨r', more⟩ := ih rest (r := r₁)
    exact ⟨r', by rw [readAll?_cons, one, Option.bind_some, more]⟩

end Reading

theorem valuesAt_map (names : (slots.map Slot.name).Nodup) (value : Slot ρ → Json) :
    ∀ s ∈ slots, Json.valuesAt s.name (slots.map fun s => (s.name, value s)) = [value s] := by
  induction slots with
  | nil => nofun
  | cons t slots ih =>
    obtain ⟨first, rest⟩ := List.nodup_cons.1 names
    intro s mem
    rw [List.map_cons, Json.valuesAt_cons]
    rcases List.mem_cons.1 mem with rfl | mem
    · rw [if_pos rfl, Json.valuesAt_eq_nil]
      rintro m inside same
      obtain ⟨u, listed, rfl⟩ := List.mem_map.1 inside
      exact first (List.mem_map.2 ⟨u, listed, same⟩)
    · rw [if_neg fun same => first (List.mem_map.2 ⟨s, mem, same.symm⟩), ih rest s mem]

/-- The members of a record without hidden parts, one of them replaced. -/
theorem replace?_writeAll (shown : ∀ s ∈ slots, ∀ x, s.hides x = false) (name : String) (v : Json)
    (r : ρ) : Json.replace? name v (JsonField.writeAll (slots.map field) r) =
      if name ∈ slots.map Slot.name then
        some (slots.map fun s => (s.name, if s.name = name then v else s.form.toJson (s.get r)))
      else none := by
  have written : JsonField.writeAll (slots.map field) r =
      slots.map fun s => (s.name, s.form.toJson (s.get r)) := by
    induction slots with
    | nil => rfl
    | cons s slots ih =>
      obtain ⟨first, rest⟩ := List.forall_mem_cons.1 shown
      rw [writeAll_cons, if_neg (by simp [first]), ih rest, List.map_cons]
  have named : (slots.map fun s => (s.name, s.form.toJson (s.get r))).any (fun m => m.1 == name) =
      decide (name ∈ slots.map Slot.name) := by
    rw [Bool.eq_iff_iff, decide_eq_true_iff, List.any_map, List.any_eq_true, List.mem_map]
    simp only [Function.comp_apply, beq_iff_eq]
  rw [written, Json.replace?, named]
  simp only [decide_eq_true_iff, List.map_map]
  refine if_congr Iff.rfl (congrArg some (List.map_congr_left fun s _ => ?_)) rfl
  by_cases same : s.name = name <;> simp [same]

namespace Family

variable {members : List (String × Json)} {r r' : ρ}

/-- A part that its member holds as it was written is read as it was, if the record is read. -/
theorem get_of_written (family : Family slots default)
    (read : JsonField.readAll? .tight (slots.map field) members default = some r') {s : Slot ρ}
    (mem : s ∈ slots) (written : Json.valuesAt s.name members =
      if s.hides (s.get r) then [] else [s.form.toJson (s.get r)]) : s.get r' = s.get r := by
  rcases get_of_readAll? family.separate read s mem with ⟨none, kept⟩ | ⟨j, only, found⟩
  · by_cases hidden : s.hides (s.get r) = true
    · rw [kept, family.hidden s mem _ hidden]
    · rw [none, if_neg hidden] at written
      cases written
  · rw [only] at written
    split at written
    · cases written
    · cases written
      have exact := family.exact s mem
      exact exact.eq_of_read found

/-- The JSON form of a record stands for no other record. -/
theorem eq_of_read (family : Family slots default)
    (read : Json.toRecord? (slots.map field) default .tight (Json.ofRecord (slots.map field) r) =
      some r') : r' = r :=
  family.ext fun s mem =>
    family.get_of_written read mem (valuesAt_writeAll family.names r s mem)

/-- A record is read back from its JSON form iff its parts are, except for hidden ones. -/
theorem restored_iff (family : Family slots default) :
    Json.toRecord? (slots.map field) default .tight (Json.ofRecord (slots.map field) r) = some r ↔
      ∀ s ∈ slots, s.hides (s.get r) = true ∨ s.Restores r := by
  have values := valuesAt_writeAll family.names r
  constructor
  · intro read s mem
    by_cases hidden : s.hides (s.get r) = true
    · exact .inl hidden
    · have single := (values s mem).trans (if_neg hidden)
      exact .inr (get_of_single family.separate read mem single)
  · intro each
    have found : ∀ s ∈ slots,
        Json.valuesAt s.name (JsonField.writeAll (slots.map field) r) = [] ∨
          ∃ j x, Json.valuesAt s.name (JsonField.writeAll (slots.map field) r) = [j] ∧
            s.form.ofJson? .tight j = some x := by
      intro s mem
      by_cases hidden : s.hides (s.get r) = true
      · exact .inl ((values s mem).trans (if_pos hidden))
      · exact .inr ⟨_, _, (values s mem).trans (if_neg hidden), (each s mem).resolve_left hidden⟩
    obtain ⟨r', read⟩ := exists_readAll? found (r := default)
    change JsonField.readAll? .tight (slots.map field) _ default = some r
    rw [read, family.eq_of_read read]

/-- A record that is read after one of its members was replaced: the part of that name is what the
new member stands for, all other parts are as they were, and so are the members if the same one is
replaced again. -/
theorem of_replaced (family : Family slots default) (shown : ∀ s ∈ slots, ∀ x, s.hides x = false)
    {name : String} {v : Json}
    (replaced : Json.replace? name v (JsonField.writeAll (slots.map field) r) = some members)
    (read : Json.toRecord? (slots.map field) default .tight (.object members) = some r') :
    (∃ s ∈ slots, s.name = name ∧ s.form.ofJson? .tight v = some (s.get r')) ∧
      (∀ s ∈ slots, s.name ≠ name → s.get r' = s.get r) ∧
      Json.replace? name v (JsonField.writeAll (slots.map field) r') = some members := by
  rw [replace?_writeAll shown] at replaced
  obtain ⟨listed, same⟩ := Option.ite_none_right_eq_some.1 replaced
  cases same
  have each : ∀ s ∈ slots, s.form.ofJson? .tight (if s.name = name then v
      else s.form.toJson (s.get r)) = some (s.get r') := by
    intro s mem
    have single := valuesAt_map family.names
      (fun s => if s.name = name then v else s.form.toJson (s.get r)) s mem
    exact get_of_single family.separate read mem single
  have others : ∀ s ∈ slots, s.name ≠ name → s.get r' = s.get r := by
    intro s mem other
    have exact := family.exact s mem
    exact exact.eq_of_read ((if_neg other ▸ each s mem :))
  refine ⟨?_, others, ?_⟩
  · obtain ⟨s, mem, rfl⟩ := List.mem_map.1 listed
    exact ⟨s, mem, rfl, by simpa using each s mem⟩
  · rw [replace?_writeAll shown, if_pos listed]
    refine congrArg some (List.map_congr_left fun s mem => ?_)
    by_cases same : s.name = name
    · rw [if_pos same, if_pos same]
    · rw [if_neg same, if_neg same, others s mem same]

end Family

end Slot

end MediaQuery
