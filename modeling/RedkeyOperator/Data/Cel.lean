import Mathlib.Data.Option.Basic

/-! # Rules of a schema in the Common Expression Language

An expression has a value or errs; `none` is the error, which is also what the
selection of an absent field gives. The logical operators absorb an error on one
side when the other side decides. -/
namespace RedkeyOperator.Data.Cel

variable {α β : Type}

def or : Option Bool → Option Bool → Option Bool
  | some true, _ => some true
  | _, some true => some true
  | some false, some false => some false
  | _, _ => none

def and : Option Bool → Option Bool → Option Bool
  | some false, _ => some false
  | _, some false => some false
  | some true, some true => some true
  | _, _ => none

def not (a : Option Bool) : Option Bool := a.map fun b => !b

/-- A function or a comparison errs where an argument does. -/
def strict (f : α → α → β) (a b : Option α) : Option β :=
  a.bind fun x => b.map fun y => f x y

def eq [DecidableEq α] : Option α → Option α → Option Bool := strict fun x y => x == y
def ne [DecidableEq α] : Option α → Option α → Option Bool := strict fun x y => x != y

def cond (c : Option Bool) (a b : Option α) : Option α := c.bind fun t => if t then a else b

@[simp] theorem or_eq_true {a b : Option Bool} :
    or a b = some true ↔ a = some true ∨ b = some true := by
  rcases a with _ | _ | _ <;> rcases b with _ | _ | _ <;> simp [or]

@[simp] theorem and_eq_false {a b : Option Bool} :
    and a b = some false ↔ a = some false ∨ b = some false := by
  rcases a with _ | _ | _ <;> rcases b with _ | _ | _ <;> simp [and]

@[simp] theorem not_eq_true {a : Option Bool} : not a = some true ↔ a = some false := by
  rcases a with _ | _ | _ <;> simp [not]

@[simp] theorem strict_some {f : α → α → β} {x y : α} :
    strict f (some x) (some y) = some (f x y) := rfl

theorem strict_eq_some {f : α → α → β} {a b : Option α} {r : β} :
    strict f a b = some r ↔ ∃ x y, a = some x ∧ b = some y ∧ f x y = r := by
  rcases a with _ | x <;> rcases b with _ | y <;> simp [strict]

@[simp] theorem eq_eq_true [DecidableEq α] {a b : Option α} :
    eq a b = some true ↔ ∃ x, a = some x ∧ b = some x := by
  simp only [eq, strict_eq_some, beq_iff_eq]
  constructor
  · rintro ⟨x, y, ha, hb, rfl⟩
    exact ⟨x, ha, hb⟩
  · rintro ⟨x, ha, hb⟩
    exact ⟨x, x, ha, hb, rfl⟩

@[simp] theorem ne_eq_true [DecidableEq α] {a b : Option α} :
    ne a b = some true ↔ ∃ x y, a = some x ∧ b = some y ∧ x ≠ y := by
  simp [ne, strict_eq_some]

/-- A rule is evaluated only if its value is present; one that errs rejects. -/
def holds (value : Option α) (rule : α → Option Bool) : Bool :=
  value.all fun v => rule v == some true

/-- A rule that reads `oldSelf` is evaluated only if there is an old value. -/
def holdsAcross (old new : Option α) (rule : α → α → Option Bool) : Bool :=
  holds new fun n => match old with
    | some o => rule o n
    | none => some true

@[simp] theorem holds_iff {value : Option α} {rule : α → Option Bool} :
    holds value rule = true ↔ ∀ v, value = some v → rule v = some true := by
  cases value <;> simp [holds]

@[simp] theorem holdsAcross_iff {old new : Option α} {rule : α → α → Option Bool} :
    holdsAcross old new rule = true ↔
      ∀ o n, old = some o → new = some n → rule o n = some true := by
  cases old <;> cases new <;> simp [holdsAcross, holds]

end RedkeyOperator.Data.Cel
