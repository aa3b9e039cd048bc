import Mathlib.Logic.Basic

/-!
# Runs of a partial step function

A system is given by a step function that may refuse an event in a state. `exec`
folds it over a list of events. `Along` says that a guard holds at every step of a
run; the guard sees the state in which the event arrives, so it can depend on the
whole history.

`exec_simulates` is the induction that results about whole runs need: a relation
to an abstract state that each guarded step maintains holds at the end of every
guarded run, with the abstract state folded over the same events.

`Eventually` and `LeadsTo` speak about single steps of a run. If steps only take an
observation away or add it, `exec_observed_iff` says when it is there at the end.
-/

namespace Run

variable {σ ε α : Type*}

/-- Execute events one after the other; `none` if one of them is refused. -/
def exec (step : σ → ε → Option σ) : σ → List ε → Option σ
  | s, [] => some s
  | s, e :: es => (step s e).bind fun s' => exec step s' es

/-- The guard holds whenever an event of the run arrives. -/
def Along (step : σ → ε → Option σ) (guard : σ → ε → Prop) : σ → List ε → Prop
  | _, [] => True
  | s, e :: es =>
    guard s e ∧
      match step s e with
      | some s' => Along step guard s' es
      | none => True

variable {step : σ → ε → Option σ} {guard : σ → ε → Prop}

/-- A run can be checked by executing it. -/
instance decidableAlong [∀ s e, Decidable (guard s e)] :
    (s : σ) → (es : List ε) → Decidable (Along step guard s es)
  | _, [] => isTrue trivial
  | s, e :: es =>
    match h : step s e with
    | some s' =>
      have : Decidable (Along step guard s' es) := decidableAlong s' es
      decidable_of_iff (guard s e ∧ Along step guard s' es) (by simp only [Along, h])
    | none => decidable_of_iff (guard s e) (by simp only [Along, h, and_true])

theorem Along.tail {s s' : σ} {e : ε} {es : List ε} (h : Along step guard s (e :: es))
    (stepped : step s e = some s') : Along step guard s' es := by
  have rest := h.2
  rwa [stepped] at rest

/-- The guard holds when an event arrives after some others. -/
theorem Along.guard_of_append {s s' : σ} {e : ε} {es rest : List ε}
    (h : Along step guard s (es ++ e :: rest)) (executed : exec step s es = some s') :
    guard s' e := by
  induction es generalizing s with
  | nil =>
    cases executed
    exact h.1
  | cons e' es ih =>
    obtain ⟨mid, stepped, rest⟩ := Option.bind_eq_some_iff.mp executed
    exact ih (h.tail stepped) rest

/-- A guard that holds in every state holds along every run. -/
theorem along_of_forall {s : σ} {es : List ε} (h : ∀ s, ∀ e ∈ es, guard s e) :
    Along step guard s es := by
  induction es generalizing s with
  | nil => trivial
  | cons e es ih =>
    refine ⟨h s e List.mem_cons_self, ?_⟩
    cases step s e with
    | none => trivial
    | some s' => exact ih fun s e' he' => h s e' (List.mem_cons_of_mem e he')

/-- What one guarded step maintains, a guarded run maintains. -/
theorem exec_simulates {related : σ → α → Prop} {spec : α → ε → α}
    (keeps : ∀ s a e s', related s a → guard s e → step s e = some s' → related s' (spec a e))
    {s s' : σ} {a : α} {es : List ε} (start : related s a) (guarded : Along step guard s es)
    (executed : exec step s es = some s') : related s' (es.foldl spec a) := by
  induction es generalizing s a with
  | nil =>
    cases executed
    exact start
  | cons e es ih =>
    obtain ⟨mid, stepped, rest⟩ := Option.bind_eq_some_iff.mp executed
    exact ih (keeps s a e mid start guarded.1 stepped) (guarded.tail stepped) rest

/-- A state predicate is a relation to an abstract state that never changes. -/
theorem exec_invariant {inv : σ → Prop}
    (keeps : ∀ s e s', inv s → guard s e → step s e = some s' → inv s') {s s' : σ} {es : List ε}
    (start : inv s) (guarded : Along step guard s es) (executed : exec step s es = some s') :
    inv s' := by
  have keeps' : ∀ (s : σ) (a : Unit) (e : ε) (s' : σ),
      Function.const Unit (inv s) a → guard s e → step s e = some s' →
      Function.const Unit (inv s') () := fun s _ e s' h => keeps s e s' h
  exact exec_simulates (a := ()) keeps' start guarded executed

/-- A run goes through if an invariant makes every step of it possible. -/
theorem isSome_exec {inv : σ → Prop} {s : σ} {es : List ε}
    (possible : ∀ s, ∀ e ∈ es, inv s → ∃ s', step s e = some s' ∧ inv s') (start : inv s) :
    (exec step s es).isSome = true := by
  induction es generalizing s with
  | nil => rfl
  | cons e es ih =>
    obtain ⟨s', stepped, next⟩ := possible s e List.mem_cons_self start
    rw [exec, stepped]
    exact ih (fun s e' mem => possible s e' (List.mem_cons_of_mem e mem)) next

/-- What an invariant gives at every guarded step holds along the whole run. -/
theorem along_of_invariant {inv : σ → Prop} {Q : σ → ε → Prop}
    (keeps : ∀ s e s', inv s → guard s e → step s e = some s' → inv s')
    (gives : ∀ s e, inv s → guard s e → Q s e) {s : σ} {es : List ε} (start : inv s)
    (guarded : Along step guard s es) : Along step Q s es := by
  induction es generalizing s with
  | nil => trivial
  | cons e es ih =>
    refine ⟨gives s e start guarded.1, ?_⟩
    cases stepped : step s e with
    | none => trivial
    | some s' => exact ih (keeps s e s' start guarded.1 stepped) (guarded.tail stepped)

/-- The predicate holds in every state that a run visits. -/
def Always (step : σ → ε → Option σ) (P : σ → Prop) : σ → List ε → Prop
  | s, [] => P s
  | s, e :: es =>
    P s ∧
      match step s e with
      | some s' => Always step P s' es
      | none => True

/-- What an invariant gives holds in every state that a guarded run visits. -/
theorem always_of_invariant {inv P : σ → Prop}
    (keeps : ∀ s e s', inv s → guard s e → step s e = some s' → inv s')
    (gives : ∀ s, inv s → P s) {s : σ} {es : List ε} (start : inv s)
    (guarded : Along step guard s es) : Always step P s es := by
  induction es generalizing s with
  | nil => exact gives s start
  | cons e es ih =>
    refine ⟨gives s start, ?_⟩
    cases stepped : step s e with
    | none => trivial
    | some s' => exact ih (keeps s e s' start guarded.1 stepped) (guarded.tail stepped)

/-- If a guard says exactly when a step maintains a predicate, then it holds along exactly those
runs in which the predicate never fails. -/
theorem always_iff_along (inv : σ → Prop) {P : σ → Prop} {s : σ} {es : List ε}
    (keeps : ∀ s, ∀ e ∈ es, ∀ s', inv s → guard s e → step s e = some s' → inv s')
    (exact_ : ∀ s, ∀ e ∈ es, inv s → P s → (guard s e ↔ ∀ s', step s e = some s' → P s'))
    (start : inv s) (holds : P s) : Always step P s es ↔ Along step guard s es := by
  induction es generalizing s with
  | nil => exact iff_of_true holds trivial
  | cons e es ih =>
    have decided := exact_ s e List.mem_cons_self start holds
    have kept := keeps s e List.mem_cons_self
    rw [Always, Along, decided]
    cases stepped : step s e with
    | none => simp [holds]
    | some s' =>
      have only : (∀ s₁, some s' = some s₁ → P s₁) ↔ P s' := by simp
      rw [stepped, only] at decided
      rw [only]
      have rest (next : P s') : Always step P s' es ↔ Along step guard s' es :=
        ih (fun s e' mem => keeps s e' (List.mem_cons_of_mem e mem))
          (fun s e' mem => exact_ s e' (List.mem_cons_of_mem e mem))
          (kept s' start (decided.mpr next) stepped) next
      constructor
      · rintro ⟨-, later⟩
        have next : P s' := by
          cases es with
          | nil => exact later
          | cons _ _ => exact later.1
        exact ⟨next, (rest next).mp later⟩
      · rintro ⟨next, later⟩
        exact ⟨holds, (rest next).mpr later⟩

/-- Some step of the run satisfies `P`. -/
def Eventually (step : σ → ε → Option σ) (P : σ → ε → Prop) : σ → List ε → Prop
  | _, [] => False
  | s, e :: es =>
    P s e ∨
      match step s e with
      | some s' => Eventually step P s' es
      | none => False

/-- Every step that satisfies `P` is followed by one that satisfies `Q`. -/
def LeadsTo (step : σ → ε → Option σ) (P Q : σ → ε → Prop) : σ → List ε → Prop
  | _, [] => True
  | s, e :: es =>
    match step s e with
    | some s' => (P s e → Eventually step Q s' es) ∧ LeadsTo step P Q s' es
    | none => True

section Observation

variable {observed : σ → Prop} {takes adds : σ → ε → Prop}

theorem eventually_cons {P : σ → ε → Prop} {s s' : σ} {e : ε} {es : List ε}
    (stepped : step s e = some s') :
    Eventually step P s (e :: es) ↔ P s e ∨ Eventually step P s' es := by
  simp only [Eventually, stepped]

/-- A step that satisfies `P` comes in a state that satisfies what the steps before maintain. -/
theorem exists_of_eventually {P : σ → ε → Prop} {inv : σ → Prop} {s : σ} {es : List ε}
    (keeps : ∀ s, ∀ e ∈ es, ∀ s', inv s → step s e = some s' → inv s') (start : inv s)
    (h : Eventually step P s es) : ∃ s', ∃ e ∈ es, inv s' ∧ P s' e := by
  induction es generalizing s with
  | nil => exact h.elim
  | cons e es ih =>
    obtain here | later := h
    · exact ⟨s, e, List.mem_cons_self, start, here⟩
    · cases stepped : step s e with
      | none =>
        rw [stepped] at later
        exact later.elim
      | some mid =>
        rw [stepped] at later
        obtain ⟨s', e', mem, holds⟩ := ih
          (fun s e' mem => keeps s e' (List.mem_cons_of_mem e mem))
          (keeps s e List.mem_cons_self mid start stepped) later
        exact ⟨s', e', List.mem_cons_of_mem e mem, holds⟩

theorem eventually_imp {P Q : σ → ε → Prop} (imp : ∀ s e, P s e → Q s e) {s : σ} {es : List ε}
    (h : Eventually step P s es) : Eventually step Q s es := by
  induction es generalizing s with
  | nil => exact h.elim
  | cons e es ih =>
    obtain here | later := h
    · exact .inl (imp s e here)
    · refine .inr ?_
      cases stepped : step s e with
      | none =>
        rw [stepped] at later
        exact later.elim
      | some mid =>
        rw [stepped] at later
        exact ih later

/-- A step that satisfies `P` satisfies `Q` or not. -/
theorem eventually_and_not {P Q : σ → ε → Prop} {s : σ} {es : List ε}
    (h : Eventually step P s es) :
    Eventually step (fun s e => P s e ∧ Q s e) s es ∨
      Eventually step (fun s e => P s e ∧ ¬ Q s e) s es := by
  induction es generalizing s with
  | nil => exact h.elim
  | cons e es ih =>
    obtain here | later := h
    · by_cases decided : Q s e
      · exact .inl (.inl ⟨here, decided⟩)
      · exact .inr (.inl ⟨here, decided⟩)
    · cases stepped : step s e with
      | none =>
        rw [stepped] at later
        exact later.elim
      | some mid =>
        rw [stepped] at later
        rw [eventually_cons stepped, eventually_cons stepped]
        exact (ih later).imp .inr .inr

/-- Every event of a run that ends has its turn. The invariant may end with the step in question. -/
theorem eventually_of_mem {P : σ → ε → Prop} {inv : σ → Prop} {s s' : σ} {e : ε} {es : List ε}
    (keeps : ∀ s, ∀ e ∈ es, ∀ s', inv s → ¬ P s e → step s e = some s' → inv s') (start : inv s)
    (executed : exec step s es = some s') (mem : e ∈ es) (here : ∀ s, inv s → P s e) :
    Eventually step P s es := by
  induction es generalizing s with
  | nil => cases mem
  | cons first es ih =>
    obtain ⟨mid, stepped, rest⟩ := Option.bind_eq_some_iff.mp executed
    rw [eventually_cons stepped]
    by_cases now : P s first
    · exact .inl now
    · cases List.mem_cons.mp mem with
      | inl same => exact absurd (same ▸ here s start) now
      | inr later =>
        refine .inr (ih (fun s e mem => keeps s e (List.mem_cons_of_mem first mem)) ?_ rest later)
        exact keeps s first List.mem_cons_self mid start now stepped

theorem leadsTo_cons {P Q : σ → ε → Prop} {s s' : σ} {e : ε} {es : List ε}
    (stepped : step s e = some s') :
    LeadsTo step P Q s (e :: es) ↔
      (P s e → Eventually step Q s' es) ∧ LeadsTo step P Q s' es := by
  simp only [LeadsTo, stepped]

/-- Each step that satisfies `P` is followed by an event whose steps satisfy `Q`. -/
theorem leadsTo_of_split {P Q : σ → ε → Prop} {inv : σ → Prop} {s s' : σ} {es : List ε}
    (keeps : ∀ s, ∀ e ∈ es, ∀ s', inv s → step s e = some s' → inv s') (start : inv s)
    (executed : exec step s es = some s')
    (follows : ∀ before e after, es = before ++ e :: after → ∀ s, inv s → P s e →
      ∃ e' ∈ after, ∀ s, inv s → Q s e') : LeadsTo step P Q s es := by
  induction es generalizing s with
  | nil => trivial
  | cons e es ih =>
    obtain ⟨mid, stepped, rest⟩ := Option.bind_eq_some_iff.mp executed
    have keepsLater : ∀ s, ∀ e ∈ es, ∀ s', inv s → step s e = some s' → inv s' :=
      fun s e' mem => keeps s e' (List.mem_cons_of_mem e mem)
    have next : inv mid := keeps s e List.mem_cons_self mid start stepped
    refine (leadsTo_cons stepped).mpr ⟨?_, ih keepsLater next rest ?_⟩
    · intro here
      obtain ⟨e', mem, gives⟩ := follows [] e es rfl s start here
      exact eventually_of_mem (fun s e mem s' h _ => keepsLater s e mem s' h) next rest mem gives
    · intro before e' after split
      exact follows (e :: before) e' after (by rw [split, List.cons_append])

theorem leadsTo_congr {P P' Q : σ → ε → Prop} {s : σ} {es : List ε}
    (same : ∀ s, ∀ e ∈ es, (P s e ↔ P' s e)) :
    LeadsTo step P Q s es ↔ LeadsTo step P' Q s es := by
  induction es generalizing s with
  | nil => exact Iff.rfl
  | cons e es ih =>
    have later (s' : σ) := ih (s := s') fun s e' he' => same s e' (List.mem_cons_of_mem e he')
    cases stepped : step s e with
    | none => simp only [LeadsTo, stepped]
    | some s' =>
      rw [leadsTo_cons stepped, leadsTo_cons stepped, same s e List.mem_cons_self, later]

/-- An observation is there at the end if it was there at the beginning or is added,
and is added again whenever it is taken away. -/
theorem exec_observed_iff
    (effect : ∀ s e s', step s e = some s' → (observed s' ↔ (observed s ∧ ¬ takes s e) ∨ adds s e))
    (exclusive : ∀ s e, takes s e → ¬ adds s e) {s s' : σ} {es : List ε}
    (executed : exec step s es = some s') :
    observed s' ↔
      (observed s ∨ Eventually step adds s es) ∧ LeadsTo step takes adds s es := by
  induction es generalizing s with
  | nil =>
    cases executed
    simp [Eventually, LeadsTo]
  | cons e es ih =>
    obtain ⟨mid, stepped, rest⟩ := Option.bind_eq_some_iff.mp executed
    rw [ih rest, effect s e mid stepped, eventually_cons stepped, leadsTo_cons stepped]
    by_cases taken : takes s e
    · have notAdded := exclusive s e taken
      simp only [taken, notAdded, not_true_eq_false, and_false, or_false, false_or,
        forall_const]
      exact ⟨fun h => ⟨.inr h.1, h⟩, fun h => h.2⟩
    · simp only [taken, not_false_eq_true, and_true, false_imp_iff, true_and, or_assoc]

end Observation

end Run
