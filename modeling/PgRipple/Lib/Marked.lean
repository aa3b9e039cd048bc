import Mathlib.Data.List.Basic
import Mathlib.Tactic.Common

/-!
# Rewriting at marked positions

`rewrite` goes through a list whose elements may be marked, and at a marked one puts something
else for it and for some elements after it. Two markings of one list give the same result only
if they are the same: at the first difference one of the results has the element itself, and the
other one what replaces it.
-/

namespace Marked

variable {α : Type*} {replace : List α → List α × Nat} {m m' : List (α × Bool)} {skip : Nat}
  {a : α} {b b' : Bool}

/-- The list without its marks. -/
def text (m : List (α × Bool)) : List α := m.map Prod.fst

@[simp] theorem text_nil : text ([] : List (α × Bool)) = [] := rfl

@[simp] theorem text_cons : text ((a, b) :: m) = a :: text m := rfl

/-- `replace` gives what stands for the beginning of a list, and how long this beginning is. -/
def rewrite (replace : List α → List α × Nat) : (skip : Nat) → List (α × Bool) → List α
  | _, [] => []
  | skip + 1, _ :: m => rewrite replace skip m
  | 0, (a, true) :: m =>
    (replace (a :: text m)).1 ++ rewrite replace ((replace (a :: text m)).2 - 1) m
  | 0, (a, false) :: m => a :: rewrite replace 0 m

/-- The next elements have no mark. -/
def Quiet (skip : Nat) (m : List (α × Bool)) : Prop := ∀ x ∈ m.take skip, x.2 = false

theorem quiet_zero : Quiet 0 m := by simp [Quiet]

theorem quiet_succ : Quiet (skip + 1) ((a, b) :: m) ↔ b = false ∧ Quiet skip m := by
  simp [Quiet]

/-- What is replaced begins with another element, and has no mark inside. -/
def Sound (replace : List α → List α × Nat) : List (α × Bool) → Prop
  | [] => True
  | (a, b) :: m =>
    (b = true → (∃ c r, (replace (a :: text m)).1 = c :: r ∧ c ≠ a) ∧
      Quiet ((replace (a :: text m)).2 - 1) m) ∧ Sound replace m

theorem rewrite_inj (same : text m = text m') (sound : Sound replace m)
    (sound' : Sound replace m') (quiet : Quiet skip m) (quiet' : Quiet skip m')
    (equal : rewrite replace skip m = rewrite replace skip m') : m = m' := by
  induction m generalizing m' skip with
  | nil =>
    cases m' with
    | nil => rfl
    | cons x m' => cases same
  | cons x m ih =>
    cases m' with
    | nil => cases same
    | cons x' m' =>
      obtain ⟨a, b⟩ := x
      obtain ⟨a', b'⟩ := x'
      rw [text_cons, text_cons] at same
      obtain ⟨rfl, rest⟩ := List.cons.inj same
      cases skip with
      | succ skip =>
        obtain ⟨rfl, later⟩ := quiet_succ.mp quiet
        obtain ⟨rfl, later'⟩ := quiet_succ.mp quiet'
        rw [ih rest sound.2 sound'.2 later later' equal]
      | zero =>
        cases b with
        | false =>
          cases b' with
          | false =>
            rw [ih rest sound.2 sound'.2 quiet_zero quiet_zero (List.cons.inj equal).2]
          | true =>
            obtain ⟨⟨c, r, begins, differ⟩, -⟩ := sound'.1 rfl
            rw [rewrite, rewrite, begins] at equal
            exact absurd (List.cons.inj equal).1.symm differ
        | true =>
          cases b' with
          | false =>
            obtain ⟨⟨c, r, begins, differ⟩, -⟩ := sound.1 rfl
            rw [rewrite, rewrite, begins] at equal
            exact absurd (List.cons.inj equal).1 differ
          | true =>
            rw [rewrite, rewrite, ← rest] at equal
            have inside := (sound'.1 rfl).2
            rw [← rest] at inside
            rw [ih rest sound.2 sound'.2 (sound.1 rfl).2 inside (List.append_cancel_left equal)]

/-- A position has a mark. -/
def Mark (m : List (α × Bool)) (i : Nat) : Prop := ∃ a, m[i]? = some (a, true)

theorem eq_of_marks (same : text m = text m') (marks : ∀ i, Mark m i ↔ Mark m' i) : m = m' := by
  refine List.ext_getElem? fun i => ?_
  have element : m[i]?.map Prod.fst = m'[i]?.map Prod.fst := by
    rw [← List.getElem?_map, ← List.getElem?_map]
    exact congrArg (·[i]?) same
  have marked := marks i
  unfold Mark at marked
  rcases first : m[i]? with _ | ⟨a, b⟩
  · rw [first] at element
    exact (Option.map_eq_none_iff.mp element.symm).symm
  · rcases second : m'[i]? with _ | ⟨a', b'⟩
    · rw [first, second] at element
      cases element
    · rw [first, second] at element marked
      cases Option.some.inj element
      cases b with
      | true =>
        obtain ⟨c, equal⟩ := marked.mp ⟨a, rfl⟩
        rw [(Prod.mk.inj (Option.some.inj equal)).2]
      | false =>
        cases b' with
        | true =>
          obtain ⟨c, equal⟩ := marked.mpr ⟨_, rfl⟩
          cases equal
        | false => rfl

end Marked
