import Mathlib.Data.List.Basic

/-!
# Caches kept as lists

`updateFirst` changes the first element with a property: a way of a set-associative
cache, for instance. The counting lemmas say how many elements with a property there
are afterwards.

`get` and `put` are a least-recently-used cache with the most recent entry in front.
The only fact about it that a user of a cache relies on is that nothing is found
that was not put there.
-/

namespace Cache

/-- Change the first element that satisfies `p`. -/
def updateFirst {α : Type*} (p : α → Bool) (f : α → α) : List α → List α
  | [] => []
  | x :: xs => if p x then f x :: xs else x :: updateFirst p f xs

section UpdateFirst

variable {α : Type*} {p q : α → Bool} {f : α → α}

theorem updateFirst_cons (x : α) (xs : List α) :
    updateFirst p f (x :: xs) = if p x then f x :: xs else x :: updateFirst p f xs :=
  rfl

theorem mem_updateFirst {x : α} {xs : List α} (h : x ∈ updateFirst p f xs) :
    x ∈ xs ∨ ∃ y ∈ xs, p y = true ∧ x = f y := by
  induction xs with
  | nil => cases h
  | cons y ys ih =>
    rw [updateFirst_cons] at h
    split at h
    · rename_i py
      cases List.mem_cons.mp h with
      | inl new => exact .inr ⟨y, List.mem_cons_self, py, new⟩
      | inr old => exact .inl (List.mem_cons_of_mem y old)
    · cases List.mem_cons.mp h with
      | inl first => exact .inl (first ▸ List.mem_cons_self)
      | inr later =>
        refine (ih later).imp (List.mem_cons_of_mem y) ?_
        rintro ⟨z, hz, rest⟩
        exact ⟨z, List.mem_cons_of_mem y hz, rest⟩

/-- If there is an element to change, its new value is there afterwards. -/
theorem exists_mem_updateFirst {xs : List α} (some_ : ∃ x ∈ xs, p x = true) :
    ∃ x ∈ xs, f x ∈ updateFirst p f xs := by
  induction xs with
  | nil =>
    obtain ⟨x, hx, -⟩ := some_
    cases hx
  | cons y ys ih =>
    rw [updateFirst_cons]
    split
    · exact ⟨y, List.mem_cons_self, List.mem_cons_self⟩
    · rename_i other
      obtain ⟨x, hx, px⟩ := some_
      have later : x ∈ ys := by
        cases List.mem_cons.mp hx with
        | inl first => exact absurd (first ▸ px) other
        | inr later => exact later
      obtain ⟨z, hz, new⟩ := ih ⟨x, later, px⟩
      exact ⟨z, List.mem_cons_of_mem y hz, List.mem_cons_of_mem y new⟩

theorem length_updateFirst (xs : List α) : (updateFirst p f xs).length = xs.length := by
  induction xs with
  | nil => rfl
  | cons x xs ih =>
    rw [updateFirst_cons]
    split
    · rfl
    · simp only [List.length_cons, ih]

/-- A change that turns nothing into a `q` does not add to their number. -/
theorem countP_updateFirst_le (stays : ∀ x, p x = true → q (f x) = true → q x = true)
    (xs : List α) : (updateFirst p f xs).countP q ≤ xs.countP q := by
  induction xs with
  | nil => exact Nat.le_refl _
  | cons x xs ih =>
    rw [updateFirst_cons]
    split
    · rename_i px
      have := stays x px
      simp only [List.countP_cons]
      grind
    · simp only [List.countP_cons]
      omega

theorem countP_updateFirst_le_succ (xs : List α) :
    (updateFirst p f xs).countP q ≤ xs.countP q + 1 := by
  induction xs with
  | nil => exact Nat.zero_le _
  | cons x xs ih =>
    rw [updateFirst_cons]
    split
    · simp only [List.countP_cons]
      grind
    · simp only [List.countP_cons]
      omega

/-- Turning the first `p` into something else takes one away. -/
theorem countP_updateFirst_self (gone : ∀ x, p (f x) = false) (xs : List α) :
    (updateFirst p f xs).countP p = xs.countP p - 1 := by
  induction xs with
  | nil => rfl
  | cons x xs ih =>
    rw [updateFirst_cons]
    split
    · rename_i px
      simp [px, gone]
    · rename_i px
      simp only [List.countP_cons, px, Bool.false_eq_true, if_false, Nat.add_zero]
      exact ih

/-- A change seen through a map, such as the fields of a packed word. -/
theorem map_updateFirst {β : Type*} {g : α → β} {p' : β → Bool} {f' : β → β}
    (same : ∀ x, p' (g x) = p x) (moved : ∀ x, p x = true → f' (g x) = g (f x)) (xs : List α) :
    (updateFirst p f xs).map g = updateFirst p' f' (xs.map g) := by
  induction xs with
  | nil => rfl
  | cons x xs ih =>
    rw [List.map_cons, updateFirst_cons, updateFirst_cons, same]
    split
    · rename_i px
      rw [moved x px, List.map_cons]
    · rw [List.map_cons, ih]

/-- Overwriting by position, where the position is the first one with the property. -/
theorem set_eq_updateFirst {x y : α} {xs : List α} {i : Nat} (at_ : xs[i]? = some x)
    (here : p x = true) (before : ∀ j < i, ∀ z, xs[j]? = some z → p z = false) :
    xs.set i y = updateFirst p (fun _ => y) xs := by
  induction xs generalizing i with
  | nil => cases at_
  | cons w ws ih =>
    cases i with
    | zero =>
      cases at_
      rw [List.set_cons_zero, updateFirst_cons, if_pos here]
    | succ i =>
      have pw : p w = false := before 0 (Nat.succ_pos i) w rfl
      rw [List.set_cons_succ, updateFirst_cons, pw, if_neg Bool.false_ne_true]
      congr 1
      apply ih at_
      intro j lt
      exact before (j + 1) (Nat.succ_lt_succ lt)

end UpdateFirst

section FirstMax

variable {α : Type*} {key : α → Nat}

/-- One step of the scan: a later element replaces the best one if its key is greater. -/
def better (key : α → Nat) (best : Nat × Nat) (y : α × Nat) : Nat × Nat :=
  if best.2 < key y.1 then (y.2, key y.1) else best

/-- The position of the first element of greatest key. -/
def firstMax (key : α → Nat) : List α → Nat
  | [] => 0
  | x :: xs => ((xs.zipIdx 1).foldl (better key) (0, key x)).1

/-- `best` is the position of the first greatest key among `seen`, and that key. -/
structure IsBest (key : α → Nat) (seen : List α) (best : Nat × Nat) : Prop where
  here : (seen[best.1]?).map key = some best.2
  greatest : ∀ y ∈ seen, key y ≤ best.2
  first : ∀ j < best.1, ∀ y, seen[j]? = some y → key y < best.2

theorem IsBest.better {seen : List α} {best : Nat × Nat} (h : IsBest key seen best) (y : α) :
    IsBest key (seen ++ [y]) (better key best (y, seen.length)) := by
  obtain ⟨x, at_, value⟩ := Option.map_eq_some_iff.mp h.here
  obtain ⟨bound, -⟩ := List.getElem?_eq_some_iff.mp at_
  unfold Cache.better
  split
  · rename_i greater
    refine ⟨by simp, ?_, ?_⟩
    · intro z hz
      obtain old | new := List.mem_append.mp hz
      · exact Nat.le_trans (h.greatest z old) (Nat.le_of_lt greater)
      · exact (List.mem_singleton.mp new) ▸ Nat.le_refl _
    · intro j lt z hz
      rw [List.getElem?_append_left lt] at hz
      exact Nat.lt_of_le_of_lt (h.greatest z (List.mem_of_getElem? hz)) greater
  · rename_i notGreater
    refine ⟨?_, ?_, ?_⟩
    · rw [List.getElem?_append_left bound]
      exact h.here
    · intro z hz
      obtain old | new := List.mem_append.mp hz
      · exact h.greatest z old
      · exact (List.mem_singleton.mp new) ▸ Nat.le_of_not_lt notGreater
    · intro j lt z hz
      rw [List.getElem?_append_left (Nat.lt_trans lt bound)] at hz
      exact h.first j lt z hz

theorem IsBest.foldl {seen : List α} {best : Nat × Nat} (h : IsBest key seen best) (ys : List α) :
    IsBest key (seen ++ ys) ((ys.zipIdx seen.length).foldl (Cache.better key) best) := by
  induction ys generalizing seen best with
  | nil => simpa using h
  | cons y ys ih =>
    have next := ih (h.better y)
    rw [List.append_assoc, List.singleton_append, List.length_append, List.length_singleton] at next
    rw [List.zipIdx_cons, List.foldl_cons]
    exact next

/-- Overwriting the element that the scan found. -/
theorem set_firstMax {y : α} {xs : List α} {greatest : Nat}
    (le : ∀ x ∈ xs, key x ≤ greatest) (attained : xs ≠ [] → ∃ x ∈ xs, key x = greatest) :
    xs.set (firstMax key xs) y = updateFirst (fun x => key x = greatest) (fun _ => y) xs := by
  cases xs with
  | nil => rfl
  | cons x xs =>
    have start : IsBest key [x] (0, key x) :=
      ⟨rfl, fun z hz => (List.mem_singleton.mp hz) ▸ Nat.le_refl _,
        fun j lt => absurd lt (Nat.not_lt_zero j)⟩
    have best := start.foldl xs
    obtain ⟨z, at_, value⟩ := Option.map_eq_some_iff.mp best.here
    obtain ⟨w, hw, top⟩ := attained (List.cons_ne_nil x xs)
    -- the key that the scan kept is the greatest one
    have same : key z = greatest := by
      apply Nat.le_antisymm
      · exact le z (List.mem_of_getElem? at_)
      · rw [value, ← top]
        exact best.greatest w hw
    apply set_eq_updateFirst at_ (decide_eq_true same)
    intro j lt v hv
    have smaller := best.first j lt v hv
    rw [← value, same] at smaller
    exact decide_eq_false (Nat.ne_of_lt smaller)

end FirstMax

section Lru

variable {κ ν : Type*} [DecidableEq κ] {k k' : κ} {v v' : ν} {cache : List (κ × ν)}

/-- Read an entry, which becomes the most recent one. -/
def get (k : κ) (cache : List (κ × ν)) : Option ν × List (κ × ν) :=
  match cache.find? fun e => e.1 = k with
  | some e => (some e.2, e :: cache.filter fun e => e.1 ≠ k)
  | none => (none, cache)

/-- Write an entry; the least recent one gives way. -/
def put (capacity : Nat) (k : κ) (v : ν) (cache : List (κ × ν)) : List (κ × ν) :=
  ((k, v) :: cache.filter fun e => e.1 ≠ k).take capacity

theorem get_fst : (get k cache).1 = (cache.find? fun e => e.1 = k).map Prod.snd := by
  rw [get]
  split
  · rename_i e found
    rw [found]
    rfl
  · rename_i absent
    rw [absent]
    rfl

/-- An entry of another key is found whether or not one key is taken out. -/
theorem find?_filter_of_ne (other : k' ≠ k) :
    (cache.filter fun e => e.1 ≠ k).find? (fun e => e.1 = k') =
      cache.find? fun e => e.1 = k' := by
  rw [List.find?_filter]
  congr 1
  funext e
  by_cases same : e.1 = k'
  · simp [same, other]
  · simp [same]

theorem find?_cons_key {e : κ × ν} :
    ((e :: cache).find? fun e => e.1 = k) =
      if e.1 = k then some e else cache.find? fun e => e.1 = k := by
  rw [List.find?_cons]
  split <;> simp_all

theorem get_get : (get k' (get k cache).2).1 = (get k' cache).1 := by
  rw [get_fst, get_fst, get]
  split
  · rename_i e found
    have named : e.1 = k := by simpa using List.find?_some found
    rw [find?_cons_key, named]
    by_cases same : k' = k
    · subst same
      rw [if_pos rfl, found]
    · rw [if_neg fun h => same h.symm, find?_filter_of_ne same]
  · rfl

theorem get_put_self {capacity : Nat} (room : 0 < capacity) :
    (get k (put capacity k v cache)).1 = some v := by
  obtain ⟨n, rfl⟩ := Nat.exists_eq_succ_of_ne_zero (Nat.ne_of_gt room)
  rw [get_fst, put, List.take_succ_cons, find?_cons_key, if_pos rfl]
  rfl

/-- What is found under another key was there before. -/
theorem get_of_get_put {capacity : Nat} (other : k' ≠ k)
    (found : (get k' (put capacity k v cache)).1 = some v') : (get k' cache).1 = some v' := by
  rw [get_fst] at found ⊢
  obtain ⟨e, here, rfl⟩ := Option.map_eq_some_iff.mp found
  have longer : ((k, v) :: cache.filter fun e => e.1 ≠ k).find? (fun e => e.1 = k') = some e := by
    rw [← List.take_append_drop capacity ((k, v) :: cache.filter fun e => e.1 ≠ k),
      List.find?_append]
    rw [put] at here
    rw [here]
    rfl
  rw [find?_cons_key, if_neg fun h => other h.symm, find?_filter_of_ne other] at longer
  rw [longer]
  rfl

theorem mem_of_get_eq_some (h : (get k cache).1 = some v) : (k, v) ∈ cache := by
  rw [get] at h
  split at h
  · rename_i e found
    cases h
    have same : e.1 = k := by simpa using List.find?_some found
    rw [← same]
    exact List.mem_of_find?_eq_some found
  · cases h

theorem mem_get {e : κ × ν} (h : e ∈ (get k cache).2) : e ∈ cache := by
  rw [get] at h
  split at h
  · rename_i e' found
    cases List.mem_cons.mp h with
    | inl first => exact first ▸ List.mem_of_find?_eq_some found
    | inr later => exact List.mem_of_mem_filter later
  · exact h

theorem mem_put {capacity : Nat} {e : κ × ν} (h : e ∈ put capacity k v cache) :
    e = (k, v) ∨ e ∈ cache := by
  cases List.mem_cons.mp (List.mem_of_mem_take h) with
  | inl new => exact .inl new
  | inr old => exact .inr (List.mem_of_mem_filter old)

end Lru

end Cache
