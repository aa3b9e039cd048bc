import Mathlib.Data.List.Forall2

/-!
# Folds that may fail

A fold in `Except` that succeeds has succeeded at every element. `foldlM_prefix`
turns that into an induction rule: a property of the state and the elements read so
far, established by each step, holds at the end for the whole list.
-/

namespace Fold

variable {ε α σ : Type*} {f : σ → α → Except ε σ}

theorem bind_eq_ok {β : Type*} {x : Except ε α} {f : α → Except ε β} {b : β} :
    x.bind f = .ok b ↔ ∃ a, x = .ok a ∧ f a = .ok b := by
  cases x with
  | error e => simp [Except.bind]
  | ok a => simp [Except.bind]

/-- The induction rule for successful folds. -/
theorem foldlM_prefix {P : List α → σ → Prop} {l : List α} {s s' : σ} (start : P [] s)
    (step : ∀ pre x s s', P pre s → f s x = .ok s' → P (pre ++ [x]) s')
    (h : l.foldlM f s = .ok s') : P l s' := by
  have rule (rest pre : List α) (s : σ) (hs : P pre s) (h : rest.foldlM f s = .ok s') :
      P (pre ++ rest) s' := by
    induction rest generalizing pre s with
    | nil =>
      cases h
      simpa using hs
    | cons x rest ih =>
      rw [List.foldlM_cons] at h
      obtain ⟨mid, first, h⟩ := bind_eq_ok.mp h
      have := ih (pre ++ [x]) mid (step pre x s mid hs first) h
      simpa using this
  exact rule l [] s start h

/-- A fold whose steps can be followed by another one succeeds with it. -/
theorem foldlM_simulates {τ : Type*} {g : τ → α → Except ε τ} {R : σ → τ → Prop} {l : List α}
    {s s' : σ} {t : τ}
    (step : ∀ x s t s', R s t → f s x = .ok s' → ∃ t', g t x = .ok t' ∧ R s' t')
    (start : R s t) (h : l.foldlM f s = .ok s') : ∃ t', l.foldlM g t = .ok t' ∧ R s' t' := by
  induction l generalizing s t with
  | nil =>
    cases h
    exact ⟨t, rfl, start⟩
  | cons x l ih =>
    rw [List.foldlM_cons] at h
    obtain ⟨mid, first, h⟩ := bind_eq_ok.mp h
    obtain ⟨mid', first', related⟩ := step x s t mid start first
    obtain ⟨t', rest, related⟩ := ih related h
    refine ⟨t', ?_, related⟩
    rw [List.foldlM_cons, first']
    exact rest

theorem exists_foldlM {l : List α} (s : σ) (h : ∀ a ∈ l, ∀ s, ∃ s', f s a = .ok s') :
    ∃ s', l.foldlM f s = .ok s' := by
  induction l generalizing s with
  | nil => exact ⟨s, rfl⟩
  | cons a l ih =>
    obtain ⟨mid, first⟩ := h a List.mem_cons_self s
    obtain ⟨s', rest⟩ := ih mid fun a' ha' => h a' (List.mem_cons_of_mem a ha')
    refine ⟨s', ?_⟩
    rw [List.foldlM_cons, first]
    exact rest

/-- A fold whose steps all leave the state alone. -/
theorem foldlM_eq_self {l : List α} {s : σ} (h : ∀ a ∈ l, f s a = .ok s) :
    l.foldlM f s = .ok s := by
  induction l with
  | nil => rfl
  | cons a l ih =>
    rw [List.foldlM_cons, h a List.mem_cons_self]
    exact ih fun a' ha' => h a' (List.mem_cons_of_mem a ha')

/-- Mapping a fallible function over a list gives the results of its members. -/
theorem mem_of_mapM {β : Type*} {f : α → Except ε β} {l : List α} {results : List β}
    (h : l.mapM f = .ok results) {b : β} : b ∈ results ↔ ∃ a ∈ l, f a = .ok b := by
  induction l generalizing results with
  | nil =>
    cases h
    simp
  | cons x l ih =>
    rw [List.mapM_cons] at h
    obtain ⟨y, hy, h⟩ := bind_eq_ok.mp h
    obtain ⟨ys, hys, h⟩ := bind_eq_ok.mp h
    cases h
    rw [List.mem_cons, ih hys]
    constructor
    · rintro (rfl | ⟨a, ha, hb⟩)
      · exact ⟨x, List.mem_cons_self, hy⟩
      · exact ⟨a, List.mem_cons_of_mem x ha, hb⟩
    · intro ⟨a, ha, hb⟩
      cases List.mem_cons.mp ha with
      | inl same =>
        subst same
        rw [hy] at hb
        exact .inl (Except.ok.inj hb).symm
      | inr rest => exact .inr ⟨a, rest, hb⟩

theorem exists_mapM {β : Type*} {f : α → Except ε β} {l : List α}
    (succeeds : ∀ a ∈ l, ∃ b, f a = .ok b) : ∃ results, l.mapM f = .ok results := by
  induction l with
  | nil => exact ⟨[], rfl⟩
  | cons x l ih =>
    obtain ⟨y, hy⟩ := succeeds x List.mem_cons_self
    obtain ⟨ys, hys⟩ := ih fun a ha => succeeds a (List.mem_cons_of_mem x ha)
    refine ⟨y :: ys, ?_⟩
    rw [List.mapM_cons, hy]
    change (l.mapM f).bind _ = _
    rw [hys]
    rfl

/-- Mapping a partial function over a list gives the results of its members. -/
theorem mem_of_mapM_eq_some {β : Type*} {f : α → Option β} {l : List α} {results : List β}
    (h : l.mapM f = some results) {b : β} : b ∈ results ↔ ∃ a ∈ l, f a = some b := by
  induction l generalizing results with
  | nil =>
    cases h
    simp
  | cons x l ih =>
    rw [List.mapM_cons] at h
    obtain ⟨y, hy, h⟩ := Option.bind_eq_some_iff.mp h
    obtain ⟨ys, hys, h⟩ := Option.bind_eq_some_iff.mp h
    cases h
    rw [List.mem_cons, ih hys, List.exists_mem_cons_iff, hy, Option.some.injEq, eq_comm]

/-- A partial function that is defined on the whole list is defined on each member. -/
theorem exists_of_mapM_eq_some {β : Type*} {f : α → Option β} {l : List α} {results : List β}
    (h : l.mapM f = some results) {a : α} (ha : a ∈ l) : ∃ b, f a = some b := by
  induction l generalizing results with
  | nil => cases ha
  | cons x l ih =>
    rw [List.mapM_cons] at h
    obtain ⟨y, hy, h⟩ := Option.bind_eq_some_iff.mp h
    obtain ⟨ys, hys, -⟩ := Option.bind_eq_some_iff.mp h
    cases List.mem_cons.mp ha with
    | inl same => exact ⟨y, same ▸ hy⟩
    | inr later => exact ih hys later

theorem exists_mapM_eq_some {β : Type*} {f : α → Option β} {l : List α}
    (defined : ∀ a ∈ l, ∃ b, f a = some b) : ∃ results, l.mapM f = some results := by
  induction l with
  | nil => exact ⟨[], rfl⟩
  | cons x l ih =>
    obtain ⟨y, hy⟩ := defined x List.mem_cons_self
    obtain ⟨ys, hys⟩ := ih fun a ha => defined a (List.mem_cons_of_mem x ha)
    refine ⟨y :: ys, ?_⟩
    rw [List.mapM_cons, hy, hys]
    rfl

/-- Mapping a partial function succeeds with the results in the order of the members. -/
theorem mapM_eq_some_iff {β : Type*} {f : α → Option β} {l : List α} {results : List β} :
    l.mapM f = some results ↔ List.Forall₂ (fun a b => f a = some b) l results := by
  induction l generalizing results with
  | nil =>
    rw [List.forall₂_nil_left_iff]
    exact Option.some_inj.trans eq_comm
  | cons x l ih =>
    rw [List.mapM_cons]
    constructor
    · intro h
      obtain ⟨y, hy, h⟩ := Option.bind_eq_some_iff.mp h
      obtain ⟨ys, hys, h⟩ := Option.bind_eq_some_iff.mp h
      cases h
      exact .cons hy (ih.mp hys)
    · intro h
      cases h with
      | cons hy hys =>
        rw [hy, ih.mpr hys]
        rfl

theorem forall₂_and {β : Type*} {R S : α → β → Prop} {l : List α} {results : List β}
    (first : List.Forall₂ R l results) (second : List.Forall₂ S l results) :
    List.Forall₂ (fun a b => R a b ∧ S a b) l results := by
  induction first with
  | nil => exact .nil
  | cons here _ ih =>
    cases second with
    | cons there rest => exact .cons ⟨here, there⟩ (ih rest)

/-- Two lists of results for the same members are related to each other. -/
theorem forall₂_of_forall₂ {β γ : Type*} {R : α → β → Prop} {S : α → γ → Prop} {l : List α}
    {results : List β} {others : List γ} (first : List.Forall₂ R l results)
    (second : List.Forall₂ S l others) :
    List.Forall₂ (fun b c => ∃ a ∈ l, R a b ∧ S a c) results others := by
  induction first generalizing others with
  | nil =>
    cases second
    exact .nil
  | cons here _ ih =>
    cases second with
    | cons there rest =>
      refine .cons ⟨_, List.mem_cons_self, here, there⟩ ((ih rest).imp ?_)
      rintro b c ⟨a, ha, both⟩
      exact ⟨a, List.mem_cons_of_mem _ ha, both⟩

/-- A check of all members that succeeds has succeeded at each. -/
theorem of_forM {f : α → Except ε Unit} {l : List α} (h : l.forM f = .ok ()) {a : α} (ha : a ∈ l) :
    f a = .ok () := by
  induction l with
  | nil => cases ha
  | cons x l ih =>
    obtain ⟨_, first, rest⟩ := bind_eq_ok.mp h
    cases List.mem_cons.mp ha with
    | inl same => exact same ▸ first
    | inr later => exact ih rest later

theorem forM_eq_ok {f : α → Except ε Unit} {l : List α} (h : ∀ a ∈ l, f a = .ok ()) :
    l.forM f = .ok () := by
  induction l with
  | nil => rfl
  | cons x l ih =>
    refine bind_eq_ok.mpr ⟨(), h x List.mem_cons_self, ?_⟩
    exact ih fun a ha => h a (List.mem_cons_of_mem x ha)

theorem exists_of_isOk {x : Except ε α} (h : x.isOk = true) : ∃ a, x = .ok a := by
  cases x with
  | error e => cases h
  | ok a => exact ⟨a, rfl⟩

theorem exists_error_of_isOk {x : Except ε α} (h : x.isOk = false) : ∃ e, x = .error e := by
  cases x with
  | error e => exact ⟨e, rfl⟩
  | ok a => cases h

/-- A computation that ends in a result with a decidable property. -/
theorem exists_of_any {α β : Type*} {x : Option (α × β)} {P : α → β → Prop}
    [∀ a b, Decidable (P a b)] (h : x.any (fun y => decide (P y.1 y.2)) = true) :
    ∃ a b, x = some (a, b) ∧ P a b := by
  cases x with
  | none => simp at h
  | some y => exact ⟨y.1, y.2, rfl, by simpa using h⟩

/-- Members of two lists that are related pairwise. -/
theorem exists_right_of_forall₂ {β : Type*} {R : α → β → Prop} {l : List α} {l' : List β}
    (h : List.Forall₂ R l l') {a : α} (ha : a ∈ l) : ∃ b ∈ l', R a b := by
  induction h with
  | nil => cases ha
  | @cons x y l l' first _ ih =>
    obtain rfl | later := List.mem_cons.mp ha
    · exact ⟨y, List.mem_cons_self, first⟩
    · obtain ⟨b, hb, related⟩ := ih later
      exact ⟨b, List.mem_cons_of_mem y hb, related⟩

theorem exists_left_of_forall₂ {β : Type*} {R : α → β → Prop} {l : List α} {l' : List β}
    (h : List.Forall₂ R l l') {b : β} (hb : b ∈ l') : ∃ a ∈ l, R a b :=
  exists_right_of_forall₂ h.flip hb

end Fold
