set_option autoImplicit false

namespace MediaQuery

/-- A truth value that may be unknown. -/
inductive Kleene where
  | yes
  | no
  | unknown
deriving DecidableEq, Repr

namespace Kleene

def ofBool : Bool → Kleene
  | true => .yes
  | false => .no

def not : Kleene → Kleene
  | .yes => .no
  | .no => .yes
  | .unknown => .unknown

def and : Kleene → Kleene → Kleene
  | .no, _ => .no
  | _, .no => .no
  | .yes, .yes => .yes
  | _, _ => .unknown

def or : Kleene → Kleene → Kleene
  | .yes, _ => .yes
  | _, .yes => .yes
  | .no, .no => .no
  | _, _ => .unknown

def all (ks : List Kleene) : Kleene := ks.foldr and .yes

def any (ks : List Kleene) : Kleene := ks.foldr or .no

def text : Kleene → String
  | .yes => "true"
  | .no => "false"
  | .unknown => "unknown"

theorem not_not (k : Kleene) : k.not.not = k := by cases k <;> rfl

theorem not_and (a b : Kleene) : (a.and b).not = a.not.or b.not := by cases a <;> cases b <;> rfl

theorem not_or (a b : Kleene) : (a.or b).not = a.not.and b.not := by cases a <;> cases b <;> rfl

theorem and_assoc (a b c : Kleene) : (a.and b).and c = a.and (b.and c) := by
  cases a <;> cases b <;> cases c <;> rfl

theorem or_assoc (a b c : Kleene) : (a.or b).or c = a.or (b.or c) := by
  cases a <;> cases b <;> cases c <;> rfl

@[simp] theorem yes_and (k : Kleene) : Kleene.yes.and k = k := by cases k <;> rfl

@[simp] theorem no_or (k : Kleene) : Kleene.no.or k = k := by cases k <;> rfl

theorem and_yes (k : Kleene) : k.and .yes = k := by cases k <;> rfl

theorem or_no (k : Kleene) : k.or .no = k := by cases k <;> rfl

theorem not_eq_yes {k : Kleene} : k.not = .yes ↔ k = .no := by cases k <;> decide

theorem not_eq_no {k : Kleene} : k.not = .no ↔ k = .yes := by cases k <;> decide

theorem and_eq_yes {a b : Kleene} : a.and b = .yes ↔ a = .yes ∧ b = .yes := by
  cases a <;> cases b <;> decide

theorem and_eq_no {a b : Kleene} : a.and b = .no ↔ a = .no ∨ b = .no := by
  cases a <;> cases b <;> decide

theorem or_eq_yes {a b : Kleene} : a.or b = .yes ↔ a = .yes ∨ b = .yes := by
  cases a <;> cases b <;> decide

theorem or_eq_no {a b : Kleene} : a.or b = .no ↔ a = .no ∧ b = .no := by
  cases a <;> cases b <;> decide

theorem ofBool_and (a b : Bool) : ofBool (a && b) = (ofBool a).and (ofBool b) := by
  cases a <;> cases b <;> rfl

theorem ofBool_or (a b : Bool) : ofBool (a || b) = (ofBool a).or (ofBool b) := by
  cases a <;> cases b <;> rfl

theorem ofBool_not (a : Bool) : ofBool (!a) = (ofBool a).not := by cases a <;> rfl

end Kleene

end MediaQuery
