import Mathlib.Logic.Function.Basic
import Mathlib.Logic.Relation

/-!
# Disjoint sets

A forest is given by the parent of every node, and a root is its own parent. `find`
follows the parents to the root and then points the nodes on its way at it.

`Forest parent depth rep` says that every node reaches its representative in at most
`depth` steps. `find` returns the representative and keeps the forest, whatever nodes
were compressed before, and making one root the parent of another merges two classes
and adds a level.

`Classes rep pairs` says that the classes are those of the equivalence that the pairs
generate, so that neither the order of the pairs nor the choice of the roots matters.
-/

namespace DisjointSets

variable {α : Type*} {parent : α → α}

/-- The number of steps from a node to its root. -/
inductive Rooted (parent : α → α) : Nat → α → α → Prop
  | root {r : α} (fixed : parent r = r) : Rooted parent 0 r r
  | step {n : Nat} {x r : α} (inner : parent x ≠ x) (rest : Rooted parent n (parent x) r) :
      Rooted parent (n + 1) x r

namespace Rooted

variable {n m : Nat} {x y r s : α}

theorem fixed (h : Rooted parent n x r) : parent r = r := by
  induction h with
  | root fixed => exact fixed
  | step _ _ ih => exact ih

theorem unique (h : Rooted parent n x r) (h' : Rooted parent m x s) : r = s := by
  induction h generalizing m with
  | root fixed =>
    cases h' with
    | root => rfl
    | step inner _ => exact absurd fixed inner
  | step inner _ ih =>
    cases h' with
    | root fixed => exact absurd fixed inner
    | step _ rest => exact ih rest

end Rooted

/-- Every node reaches its representative in at most `depth` steps. -/
def Forest (parent : α → α) (depth : Nat) (rep : α → α) : Prop :=
  ∀ x, ∃ n ≤ depth, Rooted parent n x (rep x)

theorem forest_id : Forest (id : α → α) 0 id := fun _ => ⟨0, Nat.le_refl 0, .root rfl⟩

theorem Forest.rep_rep {depth : Nat} {rep : α → α} (h : Forest parent depth rep) (x : α) :
    rep (rep x) = rep x := by
  obtain ⟨n, -, rooted⟩ := h x
  obtain ⟨m, -, again⟩ := h (rep x)
  exact again.unique (.root rooted.fixed)

theorem Forest.parent_rep {depth : Nat} {rep : α → α} (h : Forest parent depth rep) (x : α) :
    parent (rep x) = rep x := by
  obtain ⟨n, -, rooted⟩ := h x
  exact rooted.fixed

theorem Forest.mono {depth depth' : Nat} {rep : α → α} (h : Forest parent depth rep)
    (le : depth ≤ depth') : Forest parent depth' rep := by
  intro x
  obtain ⟨n, bound, rooted⟩ := h x
  exact ⟨n, Nat.le_trans bound le, rooted⟩

/-- Two classes become one. -/
def merge [DecidableEq α] (rep : α → α) (a b : α) : α → α := fun z => if rep z = a then b else rep z

section Operations

variable [DecidableEq α] {depth fuel : Nat} {rep : α → α} {a b x y : α}

/-- Pointing a node at its root shortens paths. -/
theorem Rooted.compress {k n : Nat} {y s r : α} (hx : Rooted parent k x r) (inner : r ≠ x)
    (hy : Rooted parent n y s) : ∃ m ≤ n, Rooted (Function.update parent x r) m y s := by
  have top : Function.update parent x r r = r := by
    rw [Function.update_of_ne inner]
    exact hx.fixed
  induction hy with
  | @root s fixed =>
    have other : s ≠ x := by
      rintro rfl
      exact inner (hx.unique (.root fixed))
    refine ⟨0, Nat.le_refl 0, .root ?_⟩
    rw [Function.update_of_ne other]
    exact fixed
  | @step n y s up rest ih =>
    by_cases here : y = x
    · subst here
      have same : r = s := hx.unique (.step up rest)
      have above : Function.update parent y r y = r := Function.update_self y r parent
      refine ⟨1, Nat.succ_le_succ (Nat.zero_le n), .step ?_ ?_⟩
      · rw [above]
        exact inner
      · rw [above, ← same]
        exact .root top
    · obtain ⟨m, le, shorter⟩ := ih
      have above : Function.update parent x r y = parent y := Function.update_of_ne here r parent
      refine ⟨m + 1, Nat.succ_le_succ le, .step ?_ ?_⟩
      · rw [above]
        exact up
      · rw [above]
        exact shorter

/-- Paths to a root that gets another root as its parent. -/
theorem Rooted.link {n : Nat} {y s : α} (ha : parent a = a) (hb : parent b = b) (ne : a ≠ b)
    (hy : Rooted parent n y s) :
    ∃ m ≤ n + 1, Rooted (Function.update parent a b) m y (if s = a then b else s) := by
  have top : Function.update parent a b b = b := by
    rw [Function.update_of_ne ne.symm]
    exact hb
  induction hy with
  | @root s fixed =>
    by_cases here : s = a
    · subst here
      have above : Function.update parent s b s = b := Function.update_self s b parent
      refine ⟨1, Nat.le_refl 1, .step ?_ ?_⟩
      · rw [above]
        exact ne.symm
      · rw [above, if_pos rfl]
        exact .root top
    · refine ⟨0, Nat.zero_le 1, ?_⟩
      rw [if_neg here]
      apply Rooted.root
      rw [Function.update_of_ne here]
      exact fixed
  | @step n y s up rest ih =>
    obtain ⟨m, le, longer⟩ := ih
    have other : y ≠ a := by
      rintro rfl
      exact up ha
    have above : Function.update parent a b y = parent y := Function.update_of_ne other b parent
    refine ⟨m + 1, Nat.succ_le_succ le, .step ?_ ?_⟩
    · rw [above]
      exact up
    · rw [above]
      exact longer

/-- The root of a node, and the parents after path compression. -/
def find : (fuel : Nat) → (α → α) → α → Option (α × (α → α))
  | 0, _, _ => none
  | fuel + 1, parent, x =>
    if parent x = x then some (x, parent)
    else (find fuel parent (parent x)).map fun (root, parent) =>
      (root, Function.update parent x root)

/-- The roots of two nodes, one after the other. -/
def findBoth (fuel : Nat) (parent : α → α) (x y : α) : Option (α × α × (α → α)) := do
  let (rx, parent) ← find fuel parent x
  let (ry, parent) ← find fuel parent y
  some (rx, ry, parent)

/-- `find` ends within the length of the path, at its root, and lengthens no path. -/
theorem Rooted.find {n : Nat} {r : α} (h : Rooted parent n x r) (enough : n < fuel) :
    ∃ parent', DisjointSets.find fuel parent x = some (r, parent') ∧
      ∀ k y s, Rooted parent k y s → ∃ m ≤ k, Rooted parent' m y s := by
  induction h generalizing fuel with
  | @root r fixed =>
    obtain ⟨fuel, rfl⟩ := Nat.exists_eq_add_of_lt enough
    refine ⟨parent, ?_, fun k y s path => ⟨k, Nat.le_refl k, path⟩⟩
    rw [DisjointSets.find, if_pos fixed]
  | @step n x r up rest ih =>
    cases fuel with
    | zero => cases enough
    | succ fuel =>
      obtain ⟨parent', found, shorter⟩ := ih (Nat.lt_of_succ_lt_succ enough)
      refine ⟨Function.update parent' x r, ?_, ?_⟩
      · rw [DisjointSets.find, if_neg up, found]
        rfl
      · have inner : r ≠ x := by
          rintro rfl
          exact up rest.fixed
        obtain ⟨k, -, path⟩ := shorter (n + 1) x r (.step up rest)
        intro j y s hy
        obtain ⟨i, le, hy'⟩ := shorter j y s hy
        obtain ⟨m, le', final⟩ := path.compress inner hy'
        exact ⟨m, Nat.le_trans le' le, final⟩

theorem Forest.find (h : Forest parent depth rep) (enough : depth < fuel) (x : α) :
    ∃ parent', DisjointSets.find fuel parent x = some (rep x, parent') ∧
      Forest parent' depth rep := by
  obtain ⟨n, le, rooted⟩ := h x
  obtain ⟨parent', found, shorter⟩ := rooted.find (Nat.lt_of_le_of_lt le enough)
  refine ⟨parent', found, ?_⟩
  intro y
  obtain ⟨k, bound, path⟩ := h y
  obtain ⟨m, le, path⟩ := shorter k y (rep y) path
  exact ⟨m, Nat.le_trans le bound, path⟩

theorem Forest.findBoth (h : Forest parent depth rep) (enough : depth < fuel) (x y : α) :
    ∃ parent', DisjointSets.findBoth fuel parent x y = some (rep x, rep y, parent') ∧
      Forest parent' depth rep := by
  obtain ⟨parent₁, found₁, forest₁⟩ := h.find enough x
  obtain ⟨parent₂, found₂, forest₂⟩ := forest₁.find enough y
  refine ⟨parent₂, ?_, forest₂⟩
  simp only [DisjointSets.findBoth, found₁, found₂, Option.bind_eq_bind, Option.bind_some]

/-- Making one root the parent of another. -/
theorem Forest.link (h : Forest parent depth rep) (ha : rep a = a) (hb : rep b = b) (ne : a ≠ b) :
    Forest (Function.update parent a b) (depth + 1) (merge rep a b) := by
  have rootA : parent a = a := by
    have fixed := h.parent_rep a
    rwa [ha] at fixed
  have rootB : parent b = b := by
    have fixed := h.parent_rep b
    rwa [hb] at fixed
  intro y
  obtain ⟨n, le, path⟩ := h y
  obtain ⟨m, bound, longer⟩ := path.link rootA rootB ne
  exact ⟨m, by omega, longer⟩

end Operations

/-- The least equivalence that relates the two of every pair. -/
def Equiv (pairs : List (α × α)) : α → α → Prop := Relation.EqvGen fun a b => (a, b) ∈ pairs

/-- The representatives tell the classes of the pairs apart. -/
def Classes (rep : α → α) (pairs : List (α × α)) : Prop :=
  ∀ x y, rep x = rep y ↔ Equiv pairs x y

section Classes

variable {pairs pairs' : List (α × α)} {rep : α → α} {a b x y : α}

theorem equiv_nil : Equiv ([] : List (α × α)) x y ↔ x = y := by
  constructor
  · intro h
    induction h with
    | rel x y edge => cases edge
    | refl x => rfl
    | symm x y _ ih => exact ih.symm
    | trans x y z _ _ ih ih' => exact ih.trans ih'
  · rintro rfl
    exact .refl x

theorem Equiv.mono (sub : ∀ e ∈ pairs, e ∈ pairs') (h : Equiv pairs x y) : Equiv pairs' x y :=
  Relation.EqvGen.mono (fun a b => sub (a, b)) x y h

/-- Every pair is inside one class. -/
theorem Equiv.le_of_edges {f : α → β} (edges : ∀ a b, (a, b) ∈ pairs → f a = f b)
    (h : Equiv pairs x y) : f x = f y := by
  induction h with
  | rel x y edge => exact edges x y edge
  | refl x => rfl
  | symm x y _ ih => exact ih.symm
  | trans x y z _ _ ih ih' => exact ih.trans ih'

theorem classes_id : Classes (id : α → α) [] := fun _ _ => equiv_nil.symm

/-- A pair that is already inside a class changes nothing. -/
theorem Classes.same (h : Classes rep pairs) (same : rep a = rep b) :
    Classes rep (pairs ++ [(a, b)]) := by
  intro x y
  constructor
  · intro eq
    exact ((h x y).mp eq).mono fun e => List.mem_append_left _
  · apply Equiv.le_of_edges
    intro c d edge
    obtain old | new := List.mem_append.mp edge
    · exact (h c d).mpr (.rel c d old)
    · cases List.mem_singleton.mp new
      exact same

/-- A pair merges the classes of its two nodes, under either representative. -/
theorem Classes.merge [DecidableEq α] (h : Classes rep pairs) (fixed : ∀ x, rep (rep x) = rep x)
    {r s : α} (ends : r = rep a ∧ s = rep b ∨ r = rep b ∧ s = rep a) :
    Classes (merge rep r s) (pairs ++ [(a, b)]) := by
  have edge : Equiv (pairs ++ [(a, b)]) a b :=
    .rel a b (List.mem_append_right pairs List.mem_cons_self)
  have old {x y : α} (eq : rep x = rep y) : Equiv (pairs ++ [(a, b)]) x y :=
    ((h x y).mp eq).mono fun e => List.mem_append_left _
  have joined : Equiv (pairs ++ [(a, b)]) r s := by
    obtain ⟨rfl, rfl⟩ | ⟨rfl, rfl⟩ := ends
    · exact .trans _ _ _ (old (fixed a)) (.trans _ _ _ edge (old (fixed b).symm))
    · exact .trans _ _ _ (old (fixed b)) (.trans _ _ _ edge.symm (old (fixed a).symm))
  have own (z : α) : Equiv (pairs ++ [(a, b)]) z (rep z) := old (fixed z).symm
  intro x y
  constructor
  · intro eq
    unfold DisjointSets.merge at eq
    split at eq <;> rename_i hx <;> split at eq <;> rename_i hy
    · exact old (hx.trans hy.symm)
    · have left : Equiv (pairs ++ [(a, b)]) x r := hx ▸ own x
      have right : Equiv (pairs ++ [(a, b)]) y s := eq ▸ own y
      exact left.trans _ _ _ (joined.trans _ _ _ right.symm)
    · have left : Equiv (pairs ++ [(a, b)]) x s := eq ▸ own x
      have right : Equiv (pairs ++ [(a, b)]) y r := hy ▸ own y
      exact left.trans _ _ _ (joined.symm.trans _ _ _ right.symm)
    · exact old eq
  · apply Equiv.le_of_edges
    intro c d edge
    obtain earlier | new := List.mem_append.mp edge
    · unfold DisjointSets.merge
      rw [(h c d).mpr (.rel c d earlier)]
    · cases List.mem_singleton.mp new
      unfold DisjointSets.merge
      obtain ⟨rfl, rfl⟩ | ⟨rfl, rfl⟩ := ends
      · rw [if_pos rfl]
        split <;> rfl
      · rw [if_pos rfl]
        split <;> rfl

end Classes

end DisjointSets
