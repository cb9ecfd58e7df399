import MediaQuery.Proofs.Comparison
import MediaQuery.Proofs.Truth

set_option autoImplicit false

namespace MediaQuery

/-- The numbers in a value. -/
def Quantity.numbers : Quantity → List Float
  | .number x _ | .length x | .time x | .frequency x | .resolution x => [x]
  | .ratio r => [r.numerator, r.denominator]
  | .infinite | .ident _ => []

def Feature.isSided : Feature → Bool
  | .range _ left right => left.isSome || right.isSome
  | _ => true

namespace FeatureSpec

variable {spec : FeatureSpec} {m : Metrics} {value : Value}

/-- What a value stands for is one of its numbers, zero or infinity. -/
theorem number?_mem {x : Float} (read : spec.number? m value = some x) :
    x = 0 ∨ x = Number.infinity ∨ x ∈ (Quantity.ofValue m value).numbers := by
  unfold number? at read
  generalize Quantity.ofValue m value = q at read ⊢
  simp only at read
  split at read
  · cases q with
    | length px => cases read; exact .inr (.inr List.mem_cons_self)
    | number y integer =>
      simp only [Quantity.length?, Option.ite_none_right_eq_some] at read
      exact .inl (Option.some.inj read.2).symm
    | _ => cases read
  · cases q with
    | number y integer =>
      cases integer <;> cases read
      exact .inr (.inr List.mem_cons_self)
    | _ => cases read
  · cases q with
    | resolution dppx => cases read; exact .inr (.inr List.mem_cons_self)
    | infinite => cases read; exact .inr (.inl rfl)
    | _ => cases read
  · cases q with
    | number y integer => cases read; exact .inr (.inr List.mem_cons_self)
    | _ => cases read
  · cases read

theorem number?_number {x : Float} (read : spec.number? m value = some x)
    (numbers : ∀ y ∈ (Quantity.ofValue m value).numbers, Number.isNaN y = false) :
    Number.isNaN x = false := by
  rcases number?_mem read with rfl | rfl | inside
  · decide
  · decide
  · exact numbers x inside

section Sides

variable {α : Type} {read : Value → Option α} {left right : Value} {low high : Comparison}

theorem sides?_right : sides? read none (some (high, right)) =
    (read right).map fun y => (none, some (high, y)) := by
  cases second : read right <;> simp [sides?, second]

theorem sides?_left : sides? read (some (left, low)) none =
    (read left).map fun x => (some (x, low), none) := by
  cases first : read left <;> simp [sides?, first]

theorem sides?_both : sides? read (some (left, low)) (some (high, right)) =
    (read left).bind fun x => (read right).map fun y => (some (x, low), some (high, y)) := by
  cases first : read left <;> cases second : read right <;> simp [sides?, first, second]

end Sides

section Converted

variable {α : Type} {read : Value → Option α} {left : Option (Value × Comparison)}
  {right : Option (Comparison × Value)} {left' : Option (α × Comparison)}
  {right' : Option (Comparison × α)}

theorem sides?_cases (made : sides? read left right = some (left', right')) :
    (left = none ∧ left' = none ∨
        ∃ value op x, left = some (value, op) ∧ read value = some x ∧ left' = some (x, op)) ∧
      (right = none ∧ right' = none ∨
        ∃ op value x, right = some (op, value) ∧ read value = some x ∧
          right' = some (op, x)) := by
  rcases left with _ | ⟨a, low⟩ <;> rcases right with _ | ⟨high, b⟩
  · cases made
    exact ⟨.inl ⟨rfl, rfl⟩, .inl ⟨rfl, rfl⟩⟩
  · rw [sides?_right] at made
    obtain ⟨y, second, same⟩ := Option.map_eq_some_iff.1 made
    cases same
    exact ⟨.inl ⟨rfl, rfl⟩, .inr ⟨high, b, y, rfl, second, rfl⟩⟩
  · rw [sides?_left] at made
    obtain ⟨x, first, same⟩ := Option.map_eq_some_iff.1 made
    cases same
    exact ⟨.inr ⟨a, low, x, rfl, first, rfl⟩, .inl ⟨rfl, rfl⟩⟩
  · rw [sides?_both] at made
    obtain ⟨x, first, made⟩ := Option.bind_eq_some_iff.1 made
    obtain ⟨y, second, same⟩ := Option.map_eq_some_iff.1 made
    cases same
    exact ⟨.inr ⟨a, low, x, rfl, first, rfl⟩, .inr ⟨high, b, y, rfl, second, rfl⟩⟩

/-- The converted sides of a comparison come from its written sides. -/
theorem sides?_eq_some (made : sides? read left right = some (left', right')) :
    (∀ x op, left' = some (x, op) → ∃ value, left = some (value, op) ∧ read value = some x) ∧
      (∀ op x, right' = some (op, x) →
        ∃ value, right = some (op, value) ∧ read value = some x) := by
  obtain ⟨first, second⟩ := sides?_cases made
  constructor
  · rintro x op rfl
    rcases first with ⟨_, none⟩ | ⟨value, op, x, written, found, same⟩
    · cases none
    · cases same
      exact ⟨value, written, found⟩
  · rintro op x rfl
    rcases second with ⟨_, none⟩ | ⟨op, value, x, written, found, same⟩
    · cases none
    · cases same
      exact ⟨value, written, found⟩

theorem exists_of_sides? (made : sides? read left right = some (left', right')) :
    ∀ value ∈ sideValues left right, ∃ x, read value = some x := by
  obtain ⟨first, second⟩ := sides?_cases made
  intro value mem
  rcases List.mem_append.1 mem with mem | mem
  · rcases first with ⟨rfl, _⟩ | ⟨value, op, x, rfl, found, _⟩
    · cases mem
    · cases List.mem_singleton.1 mem
      exact ⟨x, found⟩
  · rcases second with ⟨rfl, _⟩ | ⟨op, value, x, rfl, found, _⟩
    · cases mem
    · cases List.mem_singleton.1 mem
      exact ⟨x, found⟩

end Converted

section Ends

variable {P : Ratio → Prop} {c : Constraint} {values : List Value}

/-- What the ends of the intervals of a test have to be among: the written values are made of
numbers, and the ratios that a feature is compared with are of some sort. -/
structure Among (spec : FeatureSpec) (m : Metrics) (P : Ratio → Prop) (values : List Value) :
    Prop where
  numbers : ∀ value ∈ values, ∀ x ∈ (Quantity.ofValue m value).numbers, Number.isNaN x = false
  bounds : spec.kind = .ratio → P Endpoint.zero ∧ P Endpoint.negInfinity ∧ P Endpoint.infinity
  written : spec.kind = .ratio → ∀ value ∈ values, ∀ r, ratio? m value = some r → P r
  sides : spec.kind = .orientation → P Endpoint.zero ∧ P ⟨1, 1⟩ ∧ P Endpoint.infinity

private theorem endsIn_number {interval : Interval Float}
    (ends : interval.EndsIn fun x => Number.isNaN x = false) :
    (Constraint.number interval).EndsIn P := by
  refine ⟨fun other same => ?_, nofun⟩
  cases same
  exact ends

private theorem endsIn_ratio {interval : Interval Ratio} (ends : interval.EndsIn P) :
    (Constraint.ratio interval).EndsIn P := by
  refine ⟨nofun, fun other same => ?_⟩
  cases same
  exact ends

private theorem endsIn_compared {x : Float} (number : Number.isNaN x = false) (op : Comparison) :
    (Constraint.number (op.interval x)).EndsIn P := by
  exact endsIn_number (Comparison.endsIn_interval (P := fun x => Number.isNaN x = false)
    Number.isNaN_negInfinity Number.isNaN_infinity number op)

theorem Among.number (among : spec.Among m P values) (mem : value ∈ values) {x : Float}
    (read : spec.number? m value = some x) : Number.isNaN x = false :=
  number?_number read (among.numbers value mem)

private theorem endsIn_nonzero {interval : Interval Float}
    (part : interval ∈ (Interval.exact 0).complement numberDomain) :
    (Constraint.number interval).EndsIn P := by
  have ends : (Interval.exact (0 : Float)).EndsIn fun x => Number.isNaN x = false :=
    ⟨Number.isNaN_zero, Number.isNaN_zero⟩
  have domain : numberDomain.EndsIn fun x => Number.isNaN x = false :=
    ⟨Number.isNaN_zero, Number.isNaN_infinity⟩
  exact endsIn_number (ends.complement domain part)

theorem NameAsks.endsIn (among : spec.Among m P values) (asks : spec.NameAsks c) :
    c.EndsIn P := by
  cases asks with
  | always | discrete kind listed | gamut kind => exact ⟨nofun, nofun⟩
  | number numeric part => exact endsIn_nonzero part
  | ratio kind part =>
    obtain ⟨least, _, greatest⟩ := among.bounds kind
    exact endsIn_ratio (Interval.EndsIn.complement ⟨least, least⟩ ⟨least, greatest⟩ part)

theorem ValueAsks.endsIn {limit : Option Limit} (among : spec.Among m P values)
    (mem : value ∈ values) (asks : spec.ValueAsks m limit value c) : c.EndsIn P := by
  cases asks with
  | universal legal | discrete kind legal | gamut kind named => exact ⟨nofun, nofun⟩
  | portrait kind named =>
    obtain ⟨least, one, _⟩ := among.sides kind
    exact endsIn_ratio ⟨least, one⟩
  | landscape kind named =>
    obtain ⟨_, one, greatest⟩ := among.sides kind
    exact endsIn_ratio ⟨one, greatest⟩
  | number numeric read =>
    rw [Limit.interval_eq]
    exact endsIn_compared (among.number mem read) _
  | ratio kind read =>
    obtain ⟨_, least, greatest⟩ := among.bounds kind
    rw [Limit.interval_eq]
    exact endsIn_ratio (Comparison.endsIn_interval least greatest
      (among.written kind value mem _ read) _)

/-- The converted sides of a comparison are what their written values are read as. -/
theorem sides?_mem {α : Type} {read : Value → Option α} {left : Option (Value × Comparison)}
    {right : Option (Comparison × Value)} {left' : Option (α × Comparison)}
    {right' : Option (Comparison × α)} {Q : α → Prop}
    (legal : ∀ value ∈ sideValues left right, ∀ x, read value = some x → Q x)
    (made : sides? read left right = some (left', right')) :
    (∀ x op, left' = some (x, op) → Q x) ∧ (∀ op x, right' = some (op, x) → Q x) := by
  obtain ⟨first, second⟩ := sides?_eq_some made
  constructor
  · intro x op side
    obtain ⟨value, rfl, found⟩ := first x op side
    exact legal value (by simp [sideValues]) x found
  · intro op x side
    obtain ⟨value, rfl, found⟩ := second op x side
    exact legal value (by simp [sideValues]) x found

theorem SidesAsk.endsIn {left : Option (Value × Comparison)} {right : Option (Comparison × Value)}
    (among : spec.Among m P (sideValues left right)) (asks : spec.SidesAsk m left right c) :
    c.EndsIn P := by
  cases asks with
  | @number unit low high numeric read =>
    obtain ⟨first, second⟩ := sides?_mem (fun value mem x => among.number mem) read
    cases between : Interval.between? low high with
    | none => exact ⟨nofun, nofun⟩
    | some part =>
      exact endsIn_number (Interval.EndsIn.between? Number.isNaN_negInfinity Number.isNaN_infinity
        first second between)
  | @ratio low high kind read =>
    obtain ⟨_, least, greatest⟩ := among.bounds kind
    obtain ⟨first, second⟩ := sides?_mem (among.written kind) read
    cases between : Interval.between? low high with
    | none => exact ⟨nofun, nofun⟩
    | some part => exact endsIn_ratio (Interval.EndsIn.between? least greatest first second between)

end Ends

end FeatureSpec

namespace Feature

variable {f : Feature} {m : Metrics} {ratios : String → Ratio → Prop}

/-- The ends of the intervals of a test are numbers and ratios of some sort for its feature. -/
def Within (ratios : String → Ratio → Prop) (m : Metrics) (f : Feature) : Prop :=
  ∀ limit spec, FeatureTable.resolve? f.name = some (limit, spec) →
    spec.Among m (ratios spec.key) f.values

theorem AsksFor.endsIn {limit : Option Limit} {spec : FeatureSpec} {c : Constraint}
    {P : Ratio → Prop} (among : spec.Among m P f.values) (asks : f.AsksFor m limit spec c) :
    c.EndsIn P := by
  cases asks with
  | name asks => exact asks.endsIn among
  | value asks => exact asks.endsIn among List.mem_cons_self
  | sides asks => exact asks.endsIn among

/-- The clauses of a test within some ratios are plain. -/
theorem plain_clauses_of_within (readable : f.isUnreadable m = false) (within : f.Within ratios m) :
    ∀ c ∈ f.clauses m, c.Plain ratios := by
  refine plain_clauses readable fun c mem key constraint found => ?_
  rcases exists_asksFor mem with ⟨unreadable, _⟩ | ⟨limit, spec, x, resolved, asks, rfl⟩
  · rw [readable] at unreadable
    cases unreadable
  · rw [Clause.single, KeyMap.get?_single] at found
    split at found <;> cases found
    rename_i same
    rw [same]
    exact asks.endsIn (within limit spec resolved)

end Feature

end MediaQuery
