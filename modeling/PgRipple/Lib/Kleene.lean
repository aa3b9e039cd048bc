import Mathlib.Data.Option.Basic

/-!
# Three-valued logic

A truth value is true, false or missing. A conjunction is false as soon as one side is, and
a disjunction true; otherwise a missing side makes them missing. Filters of query languages
compute with these tables, whether a missing value stands for an error or for a null.
-/

namespace Kleene

/-- A truth value; `none` is missing. -/
abbrev Truth := Option Bool

def not (x : Truth) : Truth := x.map Bool.not

def and : Truth → Truth → Truth
  | some false, _ => some false
  | some true, y => y
  | none, some false => some false
  | none, _ => none

def or : Truth → Truth → Truth
  | some true, _ => some true
  | some false, y => y
  | none, some true => some true
  | none, _ => none

variable {x y : Truth}

@[simp] theorem not_eq_some {b : Bool} : not x = some b ↔ x = some (!b) := by
  obtain _ | _ | _ := x <;> cases b <;> simp [not]

@[simp] theorem and_eq_true : and x y = some true ↔ x = some true ∧ y = some true := by
  obtain _ | _ | _ := x <;> obtain _ | _ | _ := y <;> simp [and]

@[simp] theorem and_eq_false : and x y = some false ↔ x = some false ∨ y = some false := by
  obtain _ | _ | _ := x <;> obtain _ | _ | _ := y <;> simp [and]

@[simp] theorem or_eq_true : or x y = some true ↔ x = some true ∨ y = some true := by
  obtain _ | _ | _ := x <;> obtain _ | _ | _ := y <;> simp [or]

@[simp] theorem or_eq_false : or x y = some false ↔ x = some false ∧ y = some false := by
  obtain _ | _ | _ := x <;> obtain _ | _ | _ := y <;> simp [or]

end Kleene
