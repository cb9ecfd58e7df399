import MediaQuery.Profile.Store
import MediaQuery.Proofs.JsonText
import MediaQuery.Proofs.ProfileForm

set_option autoImplicit false

namespace MediaQuery

open Json

/-- A double that is read back from its decimal, if it is finite. -/
def Json.IsExact (x : Float) : Prop :=
  Number.isFinite x = true →
    Json.number? (Decimal.Layout.data.finite x) = some (.fraction x, [])

def Profile.numbers (p : Profile) : List Float :=
  p.units.lengths.map Prod.snd ++
    [p.environment.widthPx, p.environment.heightPx, p.environment.deviceWidthPx,
     p.environment.deviceHeightPx, p.environment.dppx]

/-- Types whose JSON forms are all read back from their texts. -/
class LegibleForm (α : Type) [JsonForm α] : Prop where
  legible : ∀ x : α, Legible (JsonForm.toJson x)

instance : LegibleForm Bool := ⟨.bool⟩

instance : LegibleForm String := ⟨.string⟩

instance {α : Type} [Keyword α] : LegibleForm α := ⟨fun a => .string (Keyword.text a)⟩

instance : LegibleForm UInt32 where
  legible n := .integer (by
    have bound := n.toNat_lt
    rw [isWord, Bool.and_eq_true, decide_eq_true_iff, decide_eq_true_iff, Number.wordMin,
      Number.wordMax]
    omega)

instance : LegibleForm Monochrome where
  legible
    | .bits n => LegibleForm.legible n
    | .colored => .string _

instance : LegibleForm ColorIndex where
  legible
    | .entries n => LegibleForm.legible n
    | .none => .string _

instance {α : Type} [JsonForm α] [LegibleForm α] : LegibleForm (List α) where
  legible _ := .array (List.forall_mem_map.2 fun x _ => LegibleForm.legible x)

instance {α : Type} [JsonForm α] [LegibleForm α] : LegibleForm (KeyMap α) where
  legible _ := .object (List.forall_mem_map.2 fun e _ => LegibleForm.legible e.2)

instance : LegibleForm Knowledge where
  legible
    | .discrete values canBeFalse => .object <| by
      simp only [List.forall_mem_cons]
      exact ⟨.string _, LegibleForm.legible values, .bool canBeFalse, List.forall_mem_nil _⟩
    | .range kind canBeZero canBeNegative extraValues => .object <| by
      simp only [List.forall_mem_cons]
      exact ⟨.string _, .string _, .bool canBeZero, .bool canBeNegative,
        LegibleForm.legible extraValues, List.forall_mem_nil _⟩

theorem legible_float_iff {x : Float} : Legible (JsonForm.toJson x) ↔ IsExact x := by
  change Legible (if Number.isFinite x then Json.fraction x else .null) ↔ _
  by_cases finite : Number.isFinite x = true
  · rw [if_pos finite]
    exact ⟨fun (.fraction _ back) _ => back, fun exact => .fraction finite (exact finite)⟩
  · rw [if_neg finite]
    exact ⟨fun _ other => absurd other finite, fun _ => .null⟩

theorem legible_iff_true {α : Type} [JsonForm α] [LegibleForm α] {x : α} :
    Legible (JsonForm.toJson x) ↔ True :=
  iff_true_intro (LegibleForm.legible x)

theorem Slot.legible_ofRecord {ρ : Type} (slots : List (Slot ρ)) {r : ρ}
    (each : ∀ s ∈ slots, Legible (s.form.toJson (s.get r))) :
    Legible (Json.ofRecord (slots.map Slot.field) r) := by
  refine .object fun m mem => ?_
  obtain ⟨s, listed, _, rfl⟩ := Slot.exists_of_mem_writeAll mem
  exact each s listed

theorem Slot.of_legible {ρ α : Type} [JsonForm α] {name : String} {get : ρ → α}
    {set : ρ → α → ρ} {r : ρ} :
    Legible ((Slot.of name get set).form.toJson ((Slot.of name get set).get r)) ↔
      Legible (JsonForm.toJson (get r)) :=
  Iff.rfl

instance : LegibleForm SolverSettings where
  legible s := Slot.legible_ofRecord SolverSettings.slots <|
    List.forall_mem_cons.2 ⟨LegibleForm.legible s.isMediaTypeScreen,
      List.forall_mem_cons.2 ⟨LegibleForm.legible s.isLegacyBrowser,
        List.forall_mem_singleton.2 (LegibleForm.legible s.features)⟩⟩

theorem Metrics.legible {m : Metrics} (exact : ∀ length ∈ m.lengths, IsExact length.2) :
    Legible (JsonForm.toJson m) := by
  refine Slot.legible_ofRecord Metrics.slots ?_
  simpa only [Metrics.slots, Metrics.lengths, List.forall_mem_cons, Slot.of_legible,
    legible_float_iff, legible_iff_true, List.not_mem_nil, false_implies, implies_true, true_and]
    using exact

theorem Device.legible {d : Device} (width : IsExact d.widthPx) (height : IsExact d.heightPx)
    (deviceWidth : IsExact d.deviceWidthPx) (deviceHeight : IsExact d.deviceHeightPx)
    (density : IsExact d.dppx) : Legible (JsonForm.toJson d) := by
  refine Slot.legible_ofRecord Device.slots ?_
  simp only [Device.slots, List.forall_mem_cons, Slot.of_legible, legible_float_iff,
    legible_iff_true, List.not_mem_nil, false_implies, implies_true, true_and, and_true]
  exact ⟨width, height, deviceWidth, deviceHeight, density⟩

/-- A profile is legible if its doubles are read back from their decimals. -/
theorem Profile.legible {p : Profile} (exact : ∀ x ∈ p.numbers, IsExact x) :
    Legible (JsonForm.toJson p) := by
  obtain ⟨lengths, device⟩ := List.forall_mem_append.1 exact
  simp only [List.forall_mem_cons] at device
  obtain ⟨width, height, deviceWidth, deviceHeight, density, _⟩ := device
  have units : Legible (JsonForm.toJson p.units) :=
    Metrics.legible fun length mem => lengths _ (List.mem_map_of_mem mem)
  have environment : Legible (JsonForm.toJson p.environment) :=
    Device.legible width height deviceWidth deviceHeight density
  have solver : Legible (JsonForm.toJson p.solver) := LegibleForm.legible p.solver
  exact Slot.legible_ofRecord Profile.slots (List.forall_mem_cons.2 ⟨units,
    List.forall_mem_cons.2 ⟨environment, List.forall_mem_singleton.2 solver⟩⟩)

section Files

variable {p : Profile} {file : String}

/-- The text of a profile in a file that is not JSON5: it is read if the profile is read back from
its JSON form. -/
theorem Profile.ofText_text (exact : ∀ x ∈ p.numbers, IsExact x)
    (format : Profile.isJson5 file = false) : Profile.ofText file p.text =
      (JsonForm.ofJson? .tight (JsonForm.toJson p)).elim (.error (.malformed file)) .ok := by
  have read : Json.read? p.text = some (JsonForm.toJson p) := read?_pretty (Profile.legible exact)
  rw [Profile.ofText, format, if_neg (by decide), read, Option.bind_some]
  cases (JsonForm.ofJson? .tight (JsonForm.toJson p) : Option Profile) <;> rfl

/-- A possible device with finite metrics makes a profile that is read back iff its density is
finite. -/
theorem Profile.restored_iff_density (valid : p.environment.validate = .ok ())
    (finite : ∀ length ∈ p.units.lengths, Number.isFinite length.2 = true) :
    JsonForm.Restored p ↔ Number.isFinite p.environment.dppx = true := by
  have device := Device.validate_eq_ok.1 valid
  rw [Profile.restored_iff, Metrics.restored_iff, Device.restored_iff]
  exact ⟨fun restored => restored.2.2, fun density => ⟨finite, ⟨device.width.finite,
    device.height.finite, device.deviceWidth.finite, device.deviceHeight.finite⟩, density⟩⟩

/-- A profile of a possible device with finite metrics is read from its text iff its density is
finite. -/
theorem Profile.ofText_text_of_valid (valid : p.environment.validate = .ok ())
    (finite : ∀ length ∈ p.units.lengths, Number.isFinite length.2 = true)
    (exact : ∀ x ∈ p.numbers, IsExact x) (format : Profile.isJson5 file = false) :
    Profile.ofText file p.text =
      if Number.isFinite p.environment.dppx then .ok p else .error (.malformed file) := by
  have restored := p.restored_iff_density valid finite
  rw [Profile.ofText_text exact format]
  by_cases density : Number.isFinite p.environment.dppx = true
  · rw [if_pos density, restored.2 density, Option.elim_some]
  · rw [if_neg density]
    cases read : (JsonForm.ofJson? .tight (JsonForm.toJson p) : Option Profile) with
    | none => rfl
    | some q =>
      -- A form stands for no other profile, so the profile would be read back.
      cases ExactForm.eq_of_read read
      exact absurd (restored.1 read) density

theorem Store.get?_of_save {s s' : Store} (saved : s.save p file = .ok s') :
    s'.get? file = some p.text := by
  unfold Store.save at saved
  split at saved
  · cases saved
  · cases saved
    rw [KeyMap.insert, KeyMap.get?_insertWith_self]
    cases s.get? file <;> rfl

end Files

/-- A profile of a possible device with finite metrics is saved and loaded again: the profile that
is loaded is the one that was saved if the density of the device is finite, and if it is infinite,
nothing is loaded. -/
theorem Store.load_of_save {s s' : Store} {p : Profile} {file : String}
    (valid : p.environment.validate = .ok ())
    (finite : ∀ length ∈ p.units.lengths, Number.isFinite length.2 = true)
    (exact : ∀ x ∈ p.numbers, IsExact x) (format : Profile.isJson5 file = false)
    (saved : s.save p file = .ok s') : s'.load file =
      if Number.isFinite p.environment.dppx then .ok p else .error (.malformed file) := by
  rw [Store.load, Store.get?_of_save saved]
  dsimp only
  rw [Profile.ofText_text_of_valid valid finite exact format]
  split
  · dsimp only [Bind.bind, Except.bind]
    rw [valid]
  · rfl

def Profile.phone : Profile where
  units := { widthPx := 390, emPx := 17.5 }
  environment := { widthPx := 390, dppx := 3, grid := true }
  solver :=
    { isMediaTypeScreen := .yes
      features := KeyMap.single "light-level" (.discrete ["dim", "washed"] false) }

theorem Store.load_of_save_phone : Profile.phone.environment.validate = .ok () ∧
    ∃ s : Store, Store.save KeyMap.empty Profile.phone "phone.json" = .ok s ∧
      s.load "phone.json" = .ok Profile.phone := by
  have valid : Profile.phone.environment.validate = .ok () := rfl
  have finite : ∀ length ∈ Profile.phone.units.lengths, Number.isFinite length.2 = true := by decide
  have exact : ∀ x ∈ Profile.phone.numbers, IsExact x := by
    repeat' first
      | exact List.forall_mem_nil _
      | refine List.forall_mem_cons.2 ⟨fun _ => rfl, ?_⟩
  have format : Profile.isJson5 "phone.json" = false := by decide
  have saved : Store.save KeyMap.empty Profile.phone "phone.json" =
      .ok (KeyMap.insert KeyMap.empty "phone.json" Profile.phone.text) := rfl
  exact ⟨valid, _, saved, Store.load_of_save valid finite exact format saved⟩

def Profile.dense : Profile where
  environment := { dppx := Number.infinity }

/-- The device is possible, and yet what is saved cannot be loaded. -/
theorem Store.exists_saved_not_loaded : ∃ (p : Profile) (s : Store),
    p.environment.validate = .ok () ∧
      (∀ length ∈ p.units.lengths, Number.isFinite length.2 = true) ∧
      (∀ x ∈ p.numbers, IsExact x) ∧ Store.save KeyMap.empty p "p.json" = .ok s ∧
      s.load "p.json" = .error (.malformed "p.json") := by
  have valid : Profile.dense.environment.validate = .ok () := rfl
  have finite : ∀ length ∈ Profile.dense.units.lengths, Number.isFinite length.2 = true := by decide
  have exact : ∀ x ∈ Profile.dense.numbers, IsExact x := by
    repeat' first
      | exact List.forall_mem_singleton.2 nofun
      | refine List.forall_mem_cons.2 ⟨fun _ => rfl, ?_⟩
  have saved : Store.save KeyMap.empty Profile.dense "p.json" =
      .ok (KeyMap.insert KeyMap.empty "p.json" Profile.dense.text) := rfl
  refine ⟨Profile.dense, _, valid, finite, exact, saved, ?_⟩
  rw [Store.load, Store.get?_of_save saved]
  dsimp only
  rw [Profile.ofText_text_of_valid valid finite exact (by decide)]
  rfl

end MediaQuery
