import MediaQuery.Proofs.ProfileForm

set_option autoImplicit false

namespace MediaQuery

namespace Profile

/-- Sets a field of a part of the profile that is kept. It is written once nothing is wrong with the
new profile. -/
def assignField (part : Section) (field key text : String) :
    ExceptT ProfileError (StateM Profile) Unit := do
  let p ← get
  match Json.replace? field (Json.ofScalar text) (p.sectionMembers part) with
  | none => throw (.unknownKey key)
  | some members => match JsonForm.ofJson? .tight (p.withSection part members) with
    | none => throw (.invalidValue key text)
    | some (q : Profile) => match q.environment.validate with
      | .ok () => MonadState.set q
      | .error e => throw (.device e)

def assign (key text : String) : ExceptT ProfileError (StateM Profile) Unit :=
  match key with
  | "solver.isMediaTypeScreen" => do
    let k ← ofExcept (readKleene text)
    modify fun p => { p with solver := { p.solver with isMediaTypeScreen := k } }
  | "solver.isLegacyBrowser" => do
    let k ← ofExcept (readKleene text)
    modify fun p => { p with solver := { p.solver with isLegacyBrowser := k } }
  | key => match splitKey? key with
    | some (part, field) => assignField part field key text
    | none => throw (.unknownKey key)

/-- The outcome of setting a value of a profile, and the profile that is kept. -/
def assigned (p : Profile) (key text : String) : Except ProfileError Unit × Profile :=
  Id.run ((assign key text).run.run p)

/-- The outcome of a change that does not fail, and the profile that is kept if it does. -/
def kept (p : Profile) : Except ProfileError Profile → Except ProfileError Unit × Profile
  | .ok q => (.ok (), q)
  | .error e => (.error e, p)

theorem assignField_eq (p : Profile) (part : Section) (field key text : String) :
    Id.run ((assignField part field key text).run.run p) =
      p.kept (p.setField part field key text) := by
  unfold setField
  change Id.run (StateT.run (ExceptT.run (match Json.replace? field (Json.ofScalar text)
    (p.sectionMembers part) with
    | none => _
    | some members => _)) p) = _
  cases Json.replace? field (Json.ofScalar text) (p.sectionMembers part) with
  | none => rfl
  | some members =>
    dsimp only
    cases (JsonForm.ofJson? .tight (p.withSection part members) : Option Profile) with
    | none => rfl
    | some q =>
      dsimp only
      cases q.environment.validate <;> rfl

theorem modify_eq {α : Type} (p : Profile) (read : Except ProfileError α)
    (put : Profile → α → Profile) :
    Id.run ((do
      let x ← ofExcept read
      modify fun q => put q x : ExceptT ProfileError (StateM Profile) Unit).run.run p) =
      p.kept (read.map (put p)) := by
  cases read <;> rfl

theorem set_of_ne {p : Profile} {key text : String} (screen : key ≠ "solver.isMediaTypeScreen")
    (legacy : key ≠ "solver.isLegacyBrowser") :
    p.set key text = match splitKey? key with
      | some (part, field) => p.setField part field key text
      | none => .error (.unknownKey key) := by
  unfold Profile.set
  split
  · exact absurd rfl screen
  · exact absurd rfl legacy
  · rfl

/-- A value is set in place as it is set in a copy, and an error keeps the profile. -/
theorem assigned_eq (p : Profile) (key text : String) :
    p.assigned key text = p.kept (p.set key text) := by
  unfold assigned assign
  split
  · exact modify_eq ..
  · exact modify_eq ..
  · rename_i screen legacy
    rw [set_of_ne screen legacy]
    split
    · exact assignField_eq ..
    · rfl

/-- One value of a profile: its key, and what a text stands for there. -/
structure Place where
  key : String
  Value : Type
  get : Profile → Value
  read? : String → Option Value

def Place.ofSlot {ρ : Type} (part : Section) (record : Profile → ρ) (s : Slot ρ) : Place where
  key := part.text ++ "." ++ s.name
  Value := s.Part
  get p := s.get (record p)
  read? text := s.form.ofJson? .tight (Json.ofScalar text)

def Section.places : Section → List Place
  | .units => Metrics.slots.map (Place.ofSlot .units Profile.units)
  | .environment => Device.slots.map (Place.ofSlot .environment Profile.environment)

/-- The places of the solver settings. No text stands for what is known of features. -/
def solverPlaces : List Place :=
  [⟨"solver.isMediaTypeScreen", Kleene, fun p => p.solver.isMediaTypeScreen, Kleene.ofWord?⟩,
   ⟨"solver.isLegacyBrowser", Kleene, fun p => p.solver.isLegacyBrowser, Kleene.ofWord?⟩,
   ⟨"solver.features", KeyMap Knowledge, fun p => p.solver.features, fun _ => none⟩]

def places : List Place :=
  Section.units.places ++ Section.environment.places ++ solverPlaces

/-- There is nothing in a profile but its places. -/
theorem ext_places {p q : Profile} (same : ∀ place ∈ places, place.get p = place.get q) :
    p = q := by
  simp only [places, List.forall_mem_append, Section.places, List.forall_mem_map] at same
  obtain ⟨⟨units, environment⟩, solver⟩ := same
  have first : p.units = q.units := Metrics.family.ext units
  have second : p.environment = q.environment := Device.family.ext environment
  simp only [solverPlaces, List.forall_mem_cons] at solver
  have third : p.solver = q.solver := by
    obtain ⟨screen, legacy, features, _⟩ := solver
    exact SolverSettings.family.ext (List.forall_mem_cons.2 ⟨screen, List.forall_mem_cons.2
      ⟨legacy, List.forall_mem_singleton.2 features⟩⟩)
  cases p
  cases q
  cases first
  cases second
  cases third
  rfl

theorem places_distinct : (places.map Place.key).Nodup := by decide +kernel

/-- The profile `q` is `p` with the value that a text stands for in the place that a key names. -/
structure Assigned (p q : Profile) (key text : String) : Prop where
  placed : ∃ place ∈ places, place.key = key ∧ place.read? text = some (place.get q)
  frame : ∀ place ∈ places, place.key ≠ key → place.get q = place.get p
  possible : ∀ part : Section, ∀ place ∈ part.places, place.key = key →
    q.environment.validate = .ok ()

theorem Assigned.unique {p q q' : Profile} {key text : String} (one : Assigned p q key text)
    (other : Assigned p q' key text) : q = q' := by
  refine ext_places fun place mem => ?_
  by_cases named : place.key = key
  · have only {target : Place} (inside : target ∈ places) (same : target.key = key) :
        target = place :=
      List.inj_on_of_nodup_map places_distinct inside mem (same.trans named.symm)
    obtain ⟨target, inside, same, read⟩ := one.placed
    obtain ⟨target', inside', same', read'⟩ := other.placed
    cases only inside same
    cases only inside' same'
    exact Option.some.inj (read.symm.trans read')
  · rw [one.frame place mem named, other.frame place mem named]

theorem withSection_units (p : Profile) (members : List (String × Json)) :
    p.withSection .units members = .object [("units", .object members),
      ("environment", JsonForm.toJson p.environment), ("solver", JsonForm.toJson p.solver)] := rfl

theorem withSection_environment (p : Profile) (members : List (String × Json)) :
    p.withSection .environment members = .object [("units", JsonForm.toJson p.units),
      ("environment", .object members), ("solver", JsonForm.toJson p.solver)] := rfl

section Fields

variable {p q : Profile} {part : Section} {field key text : String}

theorem ofJson?_parts {units environment solver : Json}
    (read : JsonForm.ofJson? .tight (.object
      [("units", units), ("environment", environment), ("solver", solver)]) = some q) :
    JsonForm.ofJson? .tight units = some q.units ∧
      JsonForm.ofJson? .tight environment = some q.environment ∧
      JsonForm.ofJson? .tight solver = some q.solver := by
  have each := Slot.get_of_readAll? Profile.family.separate read
  simpa [Profile.slots, Slot.of, Json.valuesAt] using each

/-- A field is set to a value that it has, in a profile that can be read and whose device is
possible. -/
theorem setField_eq_ok : p.setField part field key text = .ok q ↔
    ∃ members, Json.replace? field (Json.ofScalar text) (p.sectionMembers part) = some members ∧
      JsonForm.ofJson? .tight (p.withSection part members) = some q ∧
      q.environment.validate = .ok () := by
  unfold setField
  constructor
  · intro done
    split at done
    · cases done
    · split at done
      · cases done
      · split at done
        · cases done
          exact ⟨_, ‹_›, ‹_›, ‹_›⟩
        · cases done
  · rintro ⟨members, replaced, read, valid⟩
    simp only [replaced, read, valid]

theorem eq_of_dropStart? (start : String) {rest : List Char}
    (found : Text.dropStart? start.toList key.toList = some rest) :
    key = start ++ String.ofList rest := by
  have split := (Text.dropStart?_eq_some_iff ..).1 found
  rw [← String.toList_inj, split, String.toList_append, String.toList_ofList]

theorem eq_of_splitKey? (split : splitKey? key = some (part, field)) :
    key = part.text ++ "." ++ field := by
  unfold splitKey? at split
  split at split <;> cases split
  · exact eq_of_dropStart? "units." ‹_›
  · exact eq_of_dropStart? "environment." ‹_›

theorem mem_places {place : Place} (part : Section) (mem : place ∈ part.places) :
    place ∈ places := by
  cases part <;> simp [places, mem]

theorem frame_of_parts
    (units : ∀ s ∈ Metrics.slots, Section.units.text ++ "." ++ s.name ≠ key →
      s.get q.units = s.get p.units)
    (environment : ∀ s ∈ Device.slots, Section.environment.text ++ "." ++ s.name ≠ key →
      s.get q.environment = s.get p.environment)
    (solver : ∀ place ∈ solverPlaces, place.key ≠ key → place.get q = place.get p) :
    ∀ place ∈ places, place.key ≠ key → place.get q = place.get p := by
  simp only [places, List.forall_mem_append, Section.places, List.forall_mem_map]
  exact ⟨⟨units, environment⟩, solver⟩

theorem frame_solverPlaces (same : q.solver = p.solver) :
    ∀ place ∈ solverPlaces, place.key ≠ key → place.get q = place.get p := by
  simp [solverPlaces, same]

theorem placed_of_part {ρ : Type} {record : Profile → ρ} {slots : List (Slot ρ)}
    (listed : part.places = slots.map (Place.ofSlot part record))
    (placed : ∃ s ∈ slots, s.name = field ∧
      s.form.ofJson? .tight (Json.ofScalar text) = some (s.get (record q))) :
    ∃ place ∈ places, place.key = part.text ++ "." ++ field ∧
      place.read? text = some (place.get q) := by
  obtain ⟨s, mem, rfl, found⟩ := placed
  exact ⟨Place.ofSlot part record s, mem_places part (listed ▸ List.mem_map_of_mem mem), rfl, found⟩

theorem assigned_of_setField
    (done : p.setField part field (part.text ++ "." ++ field) text = .ok q) :
    Assigned p q (part.text ++ "." ++ field) text ∧
      q.setField part field (part.text ++ "." ++ field) text = .ok q := by
  obtain ⟨members, replaced, read, valid⟩ := setField_eq_ok.1 done
  -- The two parts without the field are read as they were written, and the part with it follows
  -- from its members.
  cases part with
  | units =>
    rw [withSection_units] at read
    obtain ⟨units, environment, solver⟩ := ofJson?_parts read
    replace environment := ExactForm.eq_of_read environment
    replace solver := ExactForm.eq_of_read solver
    obtain ⟨placed, others, again⟩ :=
      Metrics.family.of_replaced Metrics.slots_shown replaced units
    refine ⟨⟨placed_of_part rfl placed, ?_, fun _ _ _ _ => valid⟩,
      setField_eq_ok.2 ⟨members, again, ?_, valid⟩⟩
    · exact frame_of_parts (fun s mem other => others s mem fun same => other (by rw [same]))
        (fun s _ _ => by rw [environment]) (frame_solverPlaces solver)
    · rw [withSection_units, environment, solver, read]
  | environment =>
    rw [withSection_environment] at read
    obtain ⟨units, environment, solver⟩ := ofJson?_parts read
    replace units := ExactForm.eq_of_read units
    replace solver := ExactForm.eq_of_read solver
    obtain ⟨placed, others, again⟩ :=
      Device.family.of_replaced Device.slots_shown replaced environment
    refine ⟨⟨placed_of_part rfl placed, ?_, fun _ _ _ _ => valid⟩,
      setField_eq_ok.2 ⟨members, again, ?_, valid⟩⟩
    · exact frame_of_parts (fun s _ _ => by rw [units])
        (fun s mem other => others s mem fun same => other (by rw [same]))
        (frame_solverPlaces solver)
    · rw [withSection_environment, units, solver, read]

end Fields

section Keys

variable {p q : Profile} {key text : String} {k : Kleene}

theorem readKleene_eq_ok : readKleene text = .ok k ↔ Kleene.ofWord? text = some k := by
  unfold readKleene
  cases Kleene.ofWord? text <;> simp

theorem key_ne_solver {part : Section} {place other : Place} (mem : place ∈ part.places)
    (solver : other ∈ solverPlaces) : place.key ≠ other.key := by
  have distinct := places_distinct
  rw [places, List.map_append] at distinct
  intro same
  refine List.disjoint_of_nodup_append distinct (a := place.key) (List.mem_map_of_mem ?_) ?_
  · cases part <;> simp [mem]
  · exact same ▸ List.mem_map_of_mem solver

structure IsFlag (name : String) (get : SolverSettings → Kleene)
    (put : SolverSettings → Kleene → SolverSettings) : Prop where
  mem : ⟨name, Kleene, fun p => get p.solver, Kleene.ofWord?⟩ ∈ solverPlaces
  set : ∀ p text, Profile.set p name text =
    (readKleene text).map fun k => { p with solver := put p.solver k }
  written : ∀ s k, get (put s k) = k
  others : ∀ p k, ∀ place ∈ solverPlaces, place.key ≠ name →
    place.get { p with solver := put p.solver k } = place.get p
  twice : ∀ s k, put (put s k) k = put s k

theorem isFlag_solver :
    IsFlag "solver.isMediaTypeScreen" SolverSettings.isMediaTypeScreen
        (fun s k => { s with isMediaTypeScreen := k }) ∧
      IsFlag "solver.isLegacyBrowser" SolverSettings.isLegacyBrowser
        (fun s k => { s with isLegacyBrowser := k }) := by
  constructor
  all_goals
    refine ⟨by simp [solverPlaces], ?_, ?_, by simp [solverPlaces], ?_⟩
    all_goals
      intros
      rfl

theorem assigned_of_flag {name : String} {get : SolverSettings → Kleene}
    {put : SolverSettings → Kleene → SolverSettings} (flag : IsFlag name get put)
    (done : p.set name text = .ok q) : Assigned p q name text ∧ q.set name text = .ok q := by
  rw [flag.set] at done ⊢
  cases read : readKleene text with
  | error e =>
    rw [read] at done
    cases done
  | ok k =>
    rw [read] at done
    cases done
    refine ⟨⟨⟨_, List.mem_append_right _ flag.mem, rfl, ?_⟩, ?_, ?_⟩, ?_⟩
    · exact (readKleene_eq_ok.1 read).trans (congrArg some (flag.written p.solver k).symm)
    · exact frame_of_parts (fun _ _ _ => rfl) (fun _ _ _ => rfl) (flag.others p k)
    · exact fun _ _ inside same => absurd same (key_ne_solver inside flag.mem)
    · simp only [Except.map, flag.twice]

theorem assigned_of_set (done : p.set key text = .ok q) :
    Assigned p q key text ∧ q.set key text = .ok q := by
  by_cases screen : key = "solver.isMediaTypeScreen"
  · exact screen ▸ assigned_of_flag isFlag_solver.1 (screen ▸ done)
  · by_cases legacy : key = "solver.isLegacyBrowser"
    · exact legacy ▸ assigned_of_flag isFlag_solver.2 (legacy ▸ done)
    · rw [set_of_ne screen legacy] at done ⊢
      cases named : splitKey? key with
      | none =>
        rw [named] at done
        cases done
      | some target =>
        rw [named] at done
        cases eq_of_splitKey? named
        exact assigned_of_setField done

end Keys

/-- Setting a value in place either fails, and then the profile is as it was, or puts what the text
stands for into the one place that the key names. Every other place is as it was, what is known of
features among them, and the device is possible if the place is not one of the solver's. The same
once more changes nothing. -/
theorem assigned_atomic (p : Profile) (key text : String) :
    match p.assigned key text with
    | (.error _, q) => q = p
    | (.ok (), q) => Assigned p q key text ∧ q.assigned key text = (.ok (), q) := by
  rw [assigned_eq]
  cases done : p.set key text with
  | error e => rfl
  | ok q =>
    obtain ⟨assigned, again⟩ := assigned_of_set done
    exact ⟨assigned, by rw [assigned_eq, again]; rfl⟩

/-- A width is set, and nothing else. -/
theorem assigned_atomic_width : ∃ q, assigned {} "environment.widthPx" "375" = (.ok (), q) ∧
    q.environment.widthPx = 375 ∧ Assigned {} q "environment.widthPx" "375" ∧
    q.assigned "environment.widthPx" "375" = (.ok (), q) := by
  have taken : (assigned {} "environment.widthPx" "375").1.isOk = true := by decide +kernel
  have width : (assigned {} "environment.widthPx" "375").2.environment.widthPx = 375 := by
    decide +kernel
  have atomic := assigned_atomic {}
  -- the two facts above are all that is computed
  generalize "environment.widthPx" = key, "375" = text at taken width ⊢
  specialize atomic key text
  generalize assigned {} key text = run at taken width atomic ⊢
  obtain ⟨_ | _, q⟩ := run
  · cases taken
  · exact ⟨q, rfl, width, atomic⟩

/-- No width is below zero. -/
example : (assigned {} "environment.widthPx" "-3").1.isOk = false := by decide +kernel

end Profile

end MediaQuery
