import MediaQuery.Profile.Form
import MediaQuery.Profile.Verify
import MediaQuery.Proofs.Device
import MediaQuery.Proofs.KeyMap
import MediaQuery.Proofs.Slots

set_option autoImplicit false

namespace MediaQuery

/-- Keyword types without two values of one spelling. -/
class DistinctKeyword (α : Type) [Keyword α] extends LawfulKeyword α where
  distinct : ((Keyword.all : List α).map Keyword.text).Nodup

section Keywords

instance : DistinctKeyword Medium := ⟨by decide⟩
instance : DistinctKeyword Hover := ⟨by decide⟩
instance : DistinctKeyword Pointer := ⟨by decide⟩
instance : DistinctKeyword Update := ⟨by decide⟩
instance : DistinctKeyword OverflowBlock := ⟨by decide⟩
instance : DistinctKeyword OverflowInline := ⟨by decide⟩
instance : DistinctKeyword Scan := ⟨by decide⟩
instance : DistinctKeyword Blending := ⟨by decide⟩
instance : DistinctKeyword DisplayMode := ⟨by decide⟩
instance : DistinctKeyword DynamicRange := ⟨by decide⟩
instance : DistinctKeyword ForcedColors := ⟨by decide⟩
instance : DistinctKeyword InvertedColors := ⟨by decide⟩
instance : DistinctKeyword NavControls := ⟨by decide⟩
instance : DistinctKeyword ColorScheme := ⟨by decide⟩
instance : DistinctKeyword Contrast := ⟨by decide⟩
instance : DistinctKeyword Reduce := ⟨by decide⟩
instance : DistinctKeyword Scripting := ⟨by decide⟩

instance : DistinctKeyword GamutBand where
  mem_all a := by cases a <;> decide
  distinct := by decide

instance : DistinctKeyword WritingMode where
  mem_all a := by cases a <;> decide
  distinct := by decide

instance : DistinctKeyword Kleene where
  mem_all a := by cases a <;> decide
  distinct := by decide

instance : DistinctKeyword RangeKind where
  mem_all a := by cases a <;> decide
  distinct := by decide

theorem Keyword.ofText?_text {α : Type} [Keyword α] [DistinctKeyword α] (a : α) :
    Keyword.ofText? (Keyword.text a) = some a := by
  have mem := LawfulKeyword.mem_all a
  have distinct := DistinctKeyword.distinct (α := α)
  unfold Keyword.ofText?
  generalize (Keyword.all : List α) = values at mem distinct
  induction values with
  | nil => cases mem
  | cons b values ih =>
    obtain ⟨first, rest⟩ := List.nodup_cons.1 distinct
    rcases List.mem_cons.1 mem with rfl | mem
    · simp
    · have other : (Keyword.text b == Keyword.text a) = false := by
        rw [beq_eq_false_iff_ne]
        exact fun same => first (List.mem_map.2 ⟨a, mem, same.symm⟩)
      rw [List.find?_cons, other]
      exact ih mem rest

instance {α : Type} [Keyword α] [DistinctKeyword α] : FullForm α :=
  ⟨fun a => Keyword.ofText?_text a⟩

end Keywords

instance : FullForm Bool := ⟨fun _ => rfl⟩

instance : FullForm String := ⟨fun _ => rfl⟩

instance : FullForm UInt32 where
  restored n := by
    have bound : n.toNat < UInt32.size := n.toNat_lt
    have fits : (0 : Int) ≤ n.toNat ∧ (n.toNat : Int).toNat < UInt32.size := by omega
    change (if (0 : Int) ≤ n.toNat ∧ (n.toNat : Int).toNat < UInt32.size then
      some (UInt32.ofNat (n.toNat : Int).toNat) else none) = some n
    rw [if_pos fits, Int.toNat_natCast, UInt32.ofNat_toNat]

/-- A number is read back iff it is finite. -/
theorem JsonForm.restored_float_iff {x : Float} :
    JsonForm.Restored x ↔ Number.isFinite x = true := by
  change JsonForm.ofJson? .tight (if Number.isFinite x then Json.fraction x else .null) = some x ↔ _
  by_cases finite : Number.isFinite x = true
  · rw [if_pos finite]
    exact iff_of_true rfl finite
  · rw [if_neg finite]
    exact iff_of_false nofun finite

instance : ExactForm Float where
  eq_of_read {x y} read := by
    change JsonForm.ofJson? .tight (if Number.isFinite x then Json.fraction x else .null) = some y
      at read
    split at read <;> cases read
    rfl

theorem Json.countOr?_count (keyword : String) (n : UInt32) :
    Json.countOr? keyword (JsonForm.toJson n) = some (some n) := by
  have word : Json.isWord n.toNat = true := by
    have bound := n.toNat_lt
    rw [Json.isWord, Bool.and_eq_true, decide_eq_true_iff, decide_eq_true_iff, Number.wordMin,
      Number.wordMax]
    omega
  have held : Json.held? (JsonForm.toJson n) = some (JsonForm.toJson n) := if_pos word
  have read : JsonForm.ofJson? .tight (JsonForm.toJson n) = some n := FullForm.restored n
  simp only [Json.countOr?, held, Option.bind_eq_bind, Option.bind_some, read]

theorem Json.countOr?_keyword (keyword : String) :
    Json.countOr? keyword (.string keyword) = some none := by
  have other : JsonForm.ofJson? .tight (.string keyword) = (none : Option UInt32) := rfl
  simp only [Json.countOr?, Json.held?, Option.bind_eq_bind, Option.bind_some, other, if_true]

instance : FullForm Monochrome where
  restored
    | .bits n => congrArg (Option.map _) (Json.countOr?_count "not-monochrome" n)
    | .colored => congrArg (Option.map _) (Json.countOr?_keyword "not-monochrome")

instance : FullForm ColorIndex where
  restored
    | .entries n => congrArg (Option.map _) (Json.countOr?_count "none" n)
    | .none => congrArg (Option.map _) (Json.countOr?_keyword "none")

theorem mapM_map_eq_some {α β : Type} {f : α → β} {g : β → Option α} {xs : List α}
    (back : ∀ x ∈ xs, g (f x) = some x) : (xs.map f).mapM g = some xs := by
  induction xs with
  | nil => rfl
  | cons x xs ih =>
    obtain ⟨first, rest⟩ := List.forall_mem_cons.1 back
    simp [List.mapM_cons, first, ih rest]

instance {α : Type} [JsonForm α] [FullForm α] : FullForm (List α) where
  restored _ := mapM_map_eq_some fun x _ => FullForm.restored x

theorem KeyMap.ofList_entries {α : Type} (m : KeyMap α) : KeyMap.ofList m.entries = m := by
  refine ext_get? fun k => ?_
  rw [get?_ofList m.entries_distinct]
  rfl

instance {α : Type} [JsonForm α] [FullForm α] : FullForm (KeyMap α) where
  restored m := by
    have entries : (m.entries.map fun e => (e.1, JsonForm.toJson e.2)).mapM
        (fun e => (JsonForm.ofJson? .tight e.2).map (e.1, ·)) = some m.entries := by
      refine mapM_map_eq_some fun e _ => ?_
      have value : JsonForm.ofJson? .tight (JsonForm.toJson e.2) = some e.2 := FullForm.restored e.2
      simp [value]
    change Option.map KeyMap.ofList _ = some m
    rw [entries, Option.map_some, KeyMap.ofList_entries]

theorem Json.held?_words (words : List String) :
    Json.held? (JsonForm.toJson words) = some (JsonForm.toJson words) := by
  have items : Json.heldItems? (words.map JsonForm.toJson) = some (words.map JsonForm.toJson) := by
    induction words with
    | nil => rfl
    | cons word words ih =>
      have first : Json.held? (JsonForm.toJson word) = some (JsonForm.toJson word) := rfl
      simp [Json.heldItems?, ih, first]
  exact congrArg (Option.map Json.array) items

instance : FullForm Knowledge where
  restored
    | .discrete values canBeFalse => by
      have words : Knowledge.words? (JsonForm.toJson values) = some values :=
        FullForm.restored values
      have flag : JsonForm.ofJson? .tight (.bool canBeFalse) = some canBeFalse := rfl
      change Knowledge.ofJson? (.object _) = _
      simp [Knowledge.ofJson?, Json.held?, Json.heldMembers?, Json.held?_words, Json.sole?,
        Json.valuesAt, Knowledge.readTyped?, Json.recordMembers?, Knowledge.readDiscrete?,
        Knowledge.flag?, flag, words]
    | .range kind canBeZero canBeNegative extraValues => by
      have words : Knowledge.words? (JsonForm.toJson extraValues) = some extraValues :=
        FullForm.restored extraValues
      have flag (b : Bool) : JsonForm.ofJson? .tight (.bool b) = some b := rfl
      have named : Knowledge.kind? (.string (Keyword.text kind)) = some kind :=
        Keyword.ofText?_text kind
      change Knowledge.ofJson? (.object _) = _
      simp [Knowledge.ofJson?, Json.held?, Json.heldMembers?, Json.held?_words, Json.sole?,
        Json.valuesAt, Knowledge.readTyped?, Json.recordMembers?, Knowledge.readRange?,
        Knowledge.flag?, flag, words, named]

@[simp] theorem Slot.exactForm_of {ρ α : Type} [JsonForm α] [exact : ExactForm α] (name : String)
    (get : ρ → α) (set : ρ → α → ρ) :
    @ExactForm (Slot.of name get set).Part (Slot.of name get set).form := exact

theorem Metrics.slots_shown : ∀ s ∈ Metrics.slots, ∀ x, s.hides x = false := by
  simp [Metrics.slots]

theorem Device.slots_shown : ∀ s ∈ Device.slots, ∀ x, s.hides x = false := by
  simp [Device.slots]

theorem Metrics.family : Slot.Family Metrics.slots {} :=
  Slot.Made.family ⟨rfl, fun _ => by simp only [Slot.values, Slot.setAll, Metrics.slots, Slot.of]⟩
    (by decide) (by simp [Metrics.slots])
    fun s mem x hides => absurd hides (by simp [Metrics.slots_shown s mem x])

theorem Device.family : Slot.Family Device.slots {} :=
  Slot.Made.family ⟨rfl, fun _ => by simp only [Slot.values, Slot.setAll, Device.slots, Slot.of]⟩
    (by decide) (by simp [Device.slots])
    fun s mem x hides => absurd hides (by simp [Device.slots_shown s mem x])

theorem SolverSettings.family : Slot.Family SolverSettings.slots {} :=
  Slot.Made.family ⟨rfl, fun _ => rfl⟩ (by decide)
    (List.forall_mem_cons.2 ⟨inferInstanceAs (ExactForm Kleene), List.forall_mem_cons.2
      ⟨inferInstanceAs (ExactForm Kleene), List.forall_mem_singleton.2
        (inferInstanceAs (ExactForm (KeyMap Knowledge)))⟩⟩)
    (List.forall_mem_cons.2 ⟨fun _ => nofun, List.forall_mem_cons.2 ⟨fun _ => nofun,
      List.forall_mem_singleton.2 fun _ => KeyMap.eq_empty_of_isEmpty⟩⟩)

instance : ExactForm Metrics := ⟨fun read => Metrics.family.eq_of_read read⟩

instance : ExactForm Device := ⟨fun read => Device.family.eq_of_read read⟩

instance : ExactForm SolverSettings := ⟨fun read => SolverSettings.family.eq_of_read read⟩

theorem Profile.family : Slot.Family Profile.slots {} :=
  Slot.Made.family ⟨rfl, fun _ => rfl⟩ (by decide) (by simp [Profile.slots])
    (by simp [Profile.slots])

instance : ExactForm Profile := ⟨fun read => Profile.family.eq_of_read read⟩

instance : FullForm SolverSettings where
  restored s := by
    refine SolverSettings.family.restored_iff.2 ?_
    refine List.forall_mem_cons.2 ⟨.inr (FullForm.restored s.isMediaTypeScreen),
      List.forall_mem_cons.2 ⟨.inr (FullForm.restored s.isLegacyBrowser),
        List.forall_mem_singleton.2 (.inr (FullForm.restored s.features))⟩⟩

/-- A part that is always written is restored iff its value is. -/
theorem Slot.of_restored {ρ α : Type} [JsonForm α] {name : String} {get : ρ → α}
    {set : ρ → α → ρ} {r : ρ} :
    ((Slot.of name get set).hides ((Slot.of name get set).get r) = true ∨
      (Slot.of name get set).Restores r) ↔ JsonForm.Restored (get r) :=
  ⟨fun either => either.resolve_left nofun, .inr⟩

theorem JsonForm.restored_iff_true {α : Type} [JsonForm α] [FullForm α] {x : α} :
    JsonForm.Restored x ↔ True :=
  iff_true_intro (FullForm.restored x)

/-- Metrics are read back iff their lengths are finite. -/
theorem Metrics.restored_iff {m : Metrics} :
    JsonForm.Restored m ↔ ∀ length ∈ m.lengths, Number.isFinite length.2 = true := by
  refine Metrics.family.restored_iff.trans ?_
  simp only [Metrics.slots, Metrics.lengths, List.forall_mem_cons, Slot.of_restored,
    JsonForm.restored_float_iff, JsonForm.restored_iff_true, List.not_mem_nil, false_implies,
    implies_true, true_and]

/-- A device is read back iff its lengths and its density are finite. -/
theorem Device.restored_iff {d : Device} :
    JsonForm.Restored d ↔ (Number.isFinite d.widthPx = true ∧ Number.isFinite d.heightPx = true ∧
      Number.isFinite d.deviceWidthPx = true ∧ Number.isFinite d.deviceHeightPx = true) ∧
      Number.isFinite d.dppx = true := by
  refine Device.family.restored_iff.trans ?_
  simp only [Device.slots, List.forall_mem_cons, Slot.of_restored,
    JsonForm.restored_float_iff, JsonForm.restored_iff_true, List.not_mem_nil, false_implies,
    implies_true, true_and, and_true, and_assoc]

/-- A profile is read back iff its metrics and its device are. -/
theorem Profile.restored_iff {p : Profile} :
    JsonForm.Restored p ↔ JsonForm.Restored p.units ∧ JsonForm.Restored p.environment := by
  refine Profile.family.restored_iff.trans ?_
  simp only [Profile.slots, List.forall_mem_cons, Slot.of_restored,
    JsonForm.restored_iff_true, List.not_mem_nil, false_implies, implies_true, and_true]

end MediaQuery
