import PgRipple.Temporal.Facts

/-!
# Snapshots as functions of time

For a predicate with the snapshot model, the facts of a subject in a graph are to be a
function of time: at most one of them is valid at an instant.

The calls keep that if nothing arrives late: what they close began before the instant
at which it is closed, and a new fact begins when all closed ones have ended or ends
before they begin.
-/

namespace PgRipple.Temporal

/-- At most one element satisfies a predicate if no two of them do. -/
theorem length_filter_le_one_iff {α : Type*} {q : α → Bool} {l : List α} :
    (l.filter q).length ≤ 1 ↔ l.Pairwise fun a b => ¬ (q a ∧ q b) := by
  induction l with
  | nil => simp
  | cons a l ih =>
    rw [List.pairwise_cons, ← ih]
    cases holds : q a with
    | false => simp [holds]
    | true =>
      have none' : (l.filter q).length = 0 ↔ ∀ b ∈ l, ¬ q b := by
        rw [List.length_eq_zero_iff, List.filter_eq_nil_iff]
      rw [List.filter_cons, if_pos holds, List.length_cons]
      constructor
      · intro h
        refine ⟨fun b mem both => ?_, by omega⟩
        exact none'.mp (by omega) b mem both.2
      · rintro ⟨h, -⟩
        have := none'.mpr fun b mem => fun hb => h b mem ⟨rfl, hb⟩
        omega

variable {τ : Type*} [LinearOrder τ]

namespace TemporalDb

/-- The facts of a key that are valid at an instant. -/
def factsAt (db : TemporalDb τ) (k : Key) (t : τ) : List (Fact τ) :=
  db.temporalFacts.filter fun f => f.key = k ∧ f.ValidAt t

/-- What the snapshot model promises of the facts of its predicates. -/
structure FunctionOfTime (db : TemporalDb τ) : Prop where
  ordered : ∀ f ∈ db.temporalFacts, db.temporalPredicates f.p = some .snapshot → f.Ordered
  single : ∀ k, db.temporalPredicates k.p = some .snapshot → ∀ t, (db.factsAt k t).length ≤ 1

/-- The call does not come late for the rows of its key. -/
def InTime (db : TemporalDb τ) : Call τ → Prop
  | .insert new _ => db.temporalPredicates new.p = some .snapshot →
      ∀ f ∈ db.temporalFacts, f.key = new.key →
        if f.validTo = none then f.validFrom ≤ new.validFrom else f.Apart new
  | .retract k now => db.temporalPredicates k.p = some .snapshot →
      ∀ f ∈ db.temporalFacts, f.key = k → f.validTo = none → f.validFrom ≤ now
  | .mark _ _ => True
  | .unmark _ => True

/-- The facts of a key, in the order of the table. -/
def factsOf (db : TemporalDb τ) (k : Key) : List (Fact τ) :=
  db.temporalFacts.filter fun f => f.key = k

omit [LinearOrder τ] in
@[simp] theorem mem_factsOf {db : TemporalDb τ} {k : Key} {f : Fact τ} :
    f ∈ db.factsOf k ↔ f ∈ db.temporalFacts ∧ f.key = k := by
  simp [factsOf]

theorem factsAt_eq (db : TemporalDb τ) (k : Key) (t : τ) :
    db.factsAt k t = (db.factsOf k).filter fun f => f.ValidAt t := by
  simp [factsAt, factsOf, List.filter_filter, Bool.and_comm]

end TemporalDb

/-- The facts are in order and apart from each other. -/
structure Timeline (fs : List (Fact τ)) : Prop where
  ordered : ∀ f ∈ fs, f.Ordered
  apart : fs.Pairwise Fact.Apart

theorem forall_length_le_one_iff {fs : List (Fact τ)} :
    (∀ t, (fs.filter fun f => f.ValidAt t).length ≤ 1) ↔ fs.Pairwise Fact.Apart := by
  have at_ (t : τ) : (fs.filter fun f => f.ValidAt t).length ≤ 1 ↔
      fs.Pairwise fun a b => ¬ (a.ValidAt t ∧ b.ValidAt t) := by
    simpa using length_filter_le_one_iff (q := fun f : Fact τ => f.ValidAt t) (l := fs)
  simp only [at_, List.pairwise_iff_forall_sublist]
  constructor
  · intro h a b sub t
    exact h t sub
  · intro h t a b sub
    exact h sub t

theorem TemporalDb.functionOfTime_iff {db : TemporalDb τ} : db.FunctionOfTime ↔
    ∀ k, db.temporalPredicates k.p = some .snapshot → Timeline (db.factsOf k) := by
  have single (k : Key) :
      (∀ t, (db.factsAt k t).length ≤ 1) ↔ (db.factsOf k).Pairwise Fact.Apart := by
    simp only [factsAt_eq, forall_length_le_one_iff]
  constructor
  · intro h k snapshot
    refine ⟨fun f mem => ?_, (single k).mp (h.single k snapshot)⟩
    obtain ⟨stored, rfl⟩ := mem_factsOf.mp mem
    exact h.ordered f stored snapshot
  · intro h
    refine ⟨fun f mem snapshot => ?_, fun k snapshot => (single k).mpr (h k snapshot).apart⟩
    exact (h f.key snapshot).ordered f (mem_factsOf.mpr ⟨mem, rfl⟩)

/-- `closeOpen` on the facts of its key. -/
def closeAll (fs : List (Fact τ)) (at_ : τ) : List (Fact τ) :=
  fs.map fun f => if f.validTo = none then f.close at_ else f

/-- Open rows that began later would end before their start. -/
theorem timeline_closeAll_iff {fs : List (Fact τ)} (h : Timeline fs) (at_ : τ) :
    Timeline (closeAll fs at_) ↔ ∀ f ∈ fs, f.validTo = none → f.validFrom ≤ at_ := by
  constructor
  · intro closed f mem opened
    have ordered := closed.ordered (f.close at_) (List.mem_map.mpr ⟨f, mem, if_pos opened⟩)
    exact (f.ordered_close at_).mp ordered
  · intro began
    refine ⟨fun f mem => ?_, ?_⟩
    · obtain ⟨f, stored, rfl⟩ := List.mem_map.mp mem
      by_cases opened : f.validTo = none
      · rw [if_pos opened]
        exact (f.ordered_close at_).mpr (began f stored opened)
      · rw [if_neg opened]
        exact h.ordered f stored
    · refine List.pairwise_map.mpr (h.apart.imp fun {a b} apart => ?_)
      have left : (if a.validTo = none then a.close at_ else a).Apart b := by
        split_ifs with opened
        · exact apart.close_left opened
        · exact apart
      split_ifs at left ⊢ with ha hb hb
      · exact (left.symm.close_left hb).symm
      · exact left
      · exact (left.symm.close_left hb).symm
      · exact left

theorem timeline_append_iff {fs : List (Fact τ)} {new : Fact τ} (ordered : new.Ordered) :
    Timeline (fs ++ [new]) ↔ Timeline fs ∧ ∀ f ∈ fs, f.Apart new := by
  constructor
  · intro h
    obtain ⟨apart, -, across⟩ := List.pairwise_append.mp h.apart
    refine ⟨⟨fun f mem => h.ordered f (List.mem_append_left _ mem), apart⟩, fun f mem => ?_⟩
    exact across f mem new (List.mem_singleton.mpr rfl)
  · rintro ⟨h, across⟩
    refine ⟨fun f mem => ?_, List.pairwise_append.mpr ⟨h.apart, List.pairwise_singleton _ _, ?_⟩⟩
    · obtain mem | mem := List.mem_append.mp mem
      · exact h.ordered f mem
      · rw [List.mem_singleton.mp mem]
        exact ordered
    · intro f mem b last
      rw [List.mem_singleton.mp last]
      exact across f mem

/-- What an insertion makes of the facts of its key. -/
theorem timeline_insert_iff {fs : List (Fact τ)} {new : Fact τ} (h : Timeline fs)
    (ordered : new.Ordered) : Timeline (closeAll fs new.validFrom ++ [new]) ↔
      ∀ f ∈ fs, if f.validTo = none then f.validFrom ≤ new.validFrom else f.Apart new := by
  rw [timeline_append_iff ordered, timeline_closeAll_iff h]
  constructor
  · rintro ⟨began, apart⟩ f mem
    split_ifs with opened
    · exact began f mem opened
    · exact apart f (List.mem_map.mpr ⟨f, mem, if_neg opened⟩)
  · intro inTime
    refine ⟨fun f mem opened => ?_, fun f mem => ?_⟩
    · have began := inTime f mem
      rwa [if_pos opened] at began
    · obtain ⟨f, stored, rfl⟩ := List.mem_map.mp mem
      have apart := inTime f stored
      split_ifs at apart ⊢
      · exact f.close_apart new
      · exact apart

namespace TemporalDb

variable {db db' : TemporalDb τ}

omit [LinearOrder τ] in
theorem factsOf_closeOpen (db : TemporalDb τ) (k k' : Key) (at_ : τ) :
    (db.closeOpen k at_).factsOf k' =
      if k' = k then closeAll (db.factsOf k') at_ else db.factsOf k' := by
  have keys : ((fun f : Fact τ => decide (f.key = k')) ∘ fun f =>
      if f.key = k ∧ f.validTo = none then f.close at_ else f) = fun f => decide (f.key = k') := by
    funext f
    refine decide_eq_decide.mpr ?_
    dsimp only
    split_ifs <;> rfl
  rw [factsOf, closeOpen, List.filter_map, keys]
  change (db.factsOf k').map _ = _
  split_ifs with same
  · apply List.map_congr_left
    intro f mem
    rw [(mem_factsOf.mp mem).2, same]
    simp
  · rw [List.map_congr_left (g := id), List.map_id]
    intro f mem
    rw [(mem_factsOf.mp mem).2]
    simp [same]

omit [LinearOrder τ] in
theorem factsOf_append (db : TemporalDb τ) (new : Fact τ) (k : Key) :
    ({ db with temporalFacts := db.temporalFacts ++ [new] } : TemporalDb τ).factsOf k =
      db.factsOf k ++ if new.key = k then [new] else [] := by
  rw [factsOf, List.filter_append, factsOf]
  split_ifs with same <;> simp [same]

/-- Every fact is one of a registered predicate. -/
def Registered (db : TemporalDb τ) : Prop :=
  ∀ f ∈ db.temporalFacts, db.temporalPredicates f.p ≠ none

omit [LinearOrder τ] in
theorem Registered.closeOpen (h : db.Registered) (k : Key) (at_ : τ) :
    (db.closeOpen k at_).Registered := by
  intro f mem
  obtain ⟨f, stored, rfl⟩ := List.mem_map.mp mem
  have registered := h f stored
  split_ifs <;> exact registered

omit [LinearOrder τ] in
theorem Registered.factsOf_eq_nil (h : db.Registered) {k : Key}
    (unregistered : db.temporalPredicates k.p = none) : db.factsOf k = [] := by
  refine List.eq_nil_iff_forall_not_mem.mpr fun f mem => ?_
  obtain ⟨stored, rfl⟩ := mem_factsOf.mp mem
  exact h f stored unregistered

theorem step_cases {c : Call τ} (stepped : db.step c = some db') :
    match c with
    | .mark pred dataModel => db' = db ∨ db.temporalPredicates pred = none ∧
        db' = { db with
          temporalPredicates := Function.update db.temporalPredicates pred (some dataModel) }
    | .unmark pred => (∀ f ∈ db.temporalFacts, f.p ≠ pred) ∧
        db' = { db with temporalPredicates := Function.update db.temporalPredicates pred none }
    | .insert new _ => ∃ dataModel, db.temporalPredicates new.p = some dataModel ∧
        let closed := if dataModel = .snapshot then db.closeOpen new.key new.validFrom else db
        db' = { closed with temporalFacts := closed.temporalFacts ++ [new] }
    | .retract k now => db.temporalPredicates k.p ≠ none ∧ db' = db.closeOpen k now := by
  cases c with
  | mark pred dataModel =>
    rw [step, markTemporal] at stepped
    split at stepped
    · split_ifs at stepped
      exact .inl (Option.some.inj stepped).symm
    · exact .inr ⟨‹_›, (Option.some.inj stepped).symm⟩
  | unmark pred =>
    rw [step, unmarkTemporal] at stepped
    split_ifs at stepped with used
    refine ⟨fun f mem same => used ⟨f, mem, same⟩, (Option.some.inj stepped).symm⟩
  | insert new ordered =>
    rw [step, insertTripleTemporal] at stepped
    split at stepped
    · exact absurd stepped (by simp)
    · exact ⟨_, ‹_›, (Option.some.inj stepped).symm⟩
  | retract k now =>
    rw [step, retractTripleTemporal] at stepped
    split at stepped
    · exact absurd stepped (by simp)
    · refine ⟨by simp [*], (Option.some.inj stepped).symm⟩

theorem Registered.step (h : db.Registered) {c : Call τ} (stepped : db.step c = some db') :
    db'.Registered := by
  have cases_ := step_cases stepped
  cases c with
  | mark pred dataModel =>
    obtain rfl | ⟨-, rfl⟩ := cases_
    · exact h
    · intro f mem
      by_cases same : f.p = pred
      · simp [same]
      · simpa [same] using h f mem
  | unmark pred =>
    obtain ⟨unused, rfl⟩ := cases_
    intro f mem
    simpa [unused f mem] using h f mem
  | insert new ordered =>
    obtain ⟨dataModel, registered, rfl⟩ := cases_
    intro f mem
    obtain stored | last := List.mem_append.mp mem
    · split_ifs at stored ⊢
      · exact h.closeOpen _ _ f stored
      · exact h f stored
    · rw [List.mem_singleton.mp last]
      split_ifs <;> simp [registered]
  | retract k now =>
    obtain ⟨-, rfl⟩ := cases_
    exact h.closeOpen k now

/-- An insertion or retraction changes the facts of its own key only. -/
theorem functionOfTime_closeOpen_iff (h : db.FunctionOfTime) {k : Key}
    (snapshot : db.temporalPredicates k.p = some .snapshot) (at_ : τ) :
    (db.closeOpen k at_).FunctionOfTime ↔
      ∀ f ∈ db.temporalFacts, f.key = k → f.validTo = none → f.validFrom ≤ at_ := by
  have own := timeline_closeAll_iff (functionOfTime_iff.mp h k snapshot) at_
  simp only [mem_factsOf, and_imp] at own
  rw [functionOfTime_iff, ← own]
  constructor
  · intro after
    have timeline := after k snapshot
    rwa [factsOf_closeOpen, if_pos rfl] at timeline
  · intro closed k' snapshot'
    rw [factsOf_closeOpen]
    split_ifs with same
    · rwa [same]
    · exact functionOfTime_iff.mp h k' snapshot'

theorem functionOfTime_insert_iff (h : db.FunctionOfTime) {new : Fact τ} (ordered : new.Ordered)
    (snapshot : db.temporalPredicates new.p = some .snapshot) :
    ({ db.closeOpen new.key new.validFrom with
        temporalFacts := (db.closeOpen new.key new.validFrom).temporalFacts ++ [new] } :
          TemporalDb τ).FunctionOfTime ↔
      ∀ f ∈ db.temporalFacts, f.key = new.key →
        if f.validTo = none then f.validFrom ≤ new.validFrom else f.Apart new := by
  have own := timeline_insert_iff (functionOfTime_iff.mp h new.key snapshot) ordered
  simp only [mem_factsOf, and_imp] at own
  rw [functionOfTime_iff, ← own]
  constructor
  · intro after
    have timeline := after new.key snapshot
    rwa [factsOf_append, if_pos rfl, factsOf_closeOpen, if_pos rfl] at timeline
  · intro inserted k' snapshot'
    rw [factsOf_append, factsOf_closeOpen]
    by_cases same : k' = new.key
    · rwa [if_pos same, if_pos same.symm, same]
    · rw [if_neg same, if_neg (Ne.symm same), List.append_nil]
      exact functionOfTime_iff.mp h k' snapshot'

/-- A versioned predicate has no promise to keep. -/
theorem FunctionOfTime.insert_versioned (h : db.FunctionOfTime) {new : Fact τ}
    (versioned : db.temporalPredicates new.p ≠ some .snapshot) :
    ({ db with temporalFacts := db.temporalFacts ++ [new] } : TemporalDb τ).FunctionOfTime := by
  refine functionOfTime_iff.mpr fun k snapshot => ?_
  have other : ¬ new.key = k := by
    rintro rfl
    exact versioned snapshot
  rw [factsOf_append, if_neg other, List.append_nil]
  exact functionOfTime_iff.mp h k snapshot

/-- `closeOpen` for a predicate that is not a snapshot. -/
theorem FunctionOfTime.closeOpen_versioned (h : db.FunctionOfTime) {k : Key} (at_ : τ)
    (versioned : db.temporalPredicates k.p ≠ some .snapshot) :
    (db.closeOpen k at_).FunctionOfTime := by
  refine functionOfTime_iff.mpr fun k' snapshot => ?_
  have other : ¬ k' = k := by
    rintro rfl
    exact versioned snapshot
  rw [factsOf_closeOpen, if_neg other]
  exact functionOfTime_iff.mp h k' snapshot

theorem timeline_nil : Timeline ([] : List (Fact τ)) := ⟨by simp, .nil⟩

/-- A predicate can only be registered while it has no facts. -/
theorem FunctionOfTime.register (h : db.FunctionOfTime) (registered : db.Registered)
    {pred : TermId} (unregistered : db.temporalPredicates pred = none) (dataModel : DataModel) :
    ({ db with temporalPredicates := Function.update db.temporalPredicates pred (some dataModel) } :
      TemporalDb τ).FunctionOfTime := by
  refine functionOfTime_iff.mpr fun k snapshot => ?_
  change Timeline (db.factsOf k)
  by_cases same : k.p = pred
  · rw [registered.factsOf_eq_nil (by rwa [same])]
    exact timeline_nil
  · refine functionOfTime_iff.mp h k ?_
    simpa [same] using snapshot

theorem FunctionOfTime.unregister (h : db.FunctionOfTime) (pred : TermId) :
    ({ db with temporalPredicates := Function.update db.temporalPredicates pred none } :
      TemporalDb τ).FunctionOfTime := by
  refine functionOfTime_iff.mpr fun k snapshot => functionOfTime_iff.mp h k ?_
  by_cases same : k.p = pred
  · simp [same] at snapshot
  · simpa [same] using snapshot

/-- A step keeps the facts a function of time exactly if the call comes in time. -/
theorem step_functionOfTime_iff (h : db.FunctionOfTime) (registered : db.Registered) (c : Call τ) :
    db.InTime c ↔ ∀ db', db.step c = some db' → db'.FunctionOfTime := by
  cases c with
  | mark pred dataModel =>
    refine iff_of_true trivial fun db' stepped => ?_
    obtain rfl | ⟨unregistered, rfl⟩ := step_cases stepped
    · exact h
    · exact h.register registered unregistered dataModel
  | unmark pred =>
    refine iff_of_true trivial fun db' stepped => ?_
    obtain ⟨-, rfl⟩ := step_cases stepped
    exact h.unregister pred
  | insert new ordered =>
    by_cases snapshot : db.temporalPredicates new.p = some .snapshot
    · have after := functionOfTime_insert_iff h ordered snapshot
      simp [InTime, step, insertTripleTemporal, snapshot, ← after]
    · refine iff_of_true (fun other => absurd other snapshot) fun db' stepped => ?_
      obtain ⟨dataModel, found, rfl⟩ := step_cases stepped
      have other : ¬ dataModel = .snapshot := by
        rintro rfl
        exact snapshot found
      rw [if_neg other]
      exact h.insert_versioned snapshot
  | retract k now =>
    by_cases snapshot : db.temporalPredicates k.p = some .snapshot
    · have after := functionOfTime_closeOpen_iff h snapshot now
      simp [InTime, step, retractTripleTemporal, snapshot, ← after]
    · refine iff_of_true (fun other => absurd other snapshot) fun db' stepped => ?_
      obtain ⟨-, rfl⟩ := step_cases stepped
      exact h.closeOpen_versioned now snapshot

theorem functionOfTime_empty : (empty : TemporalDb τ).FunctionOfTime :=
  ⟨fun _ mem => absurd mem List.not_mem_nil, fun _ _ _ => Nat.zero_le 1⟩

/-- The facts are a function of time throughout a run if and only if no call comes late. -/
theorem always_functionOfTime_iff (calls : List (Call τ)) :
    Run.Always step FunctionOfTime (empty : TemporalDb τ) calls ↔
      Run.Along step InTime (empty : TemporalDb τ) calls := by
  refine Run.always_iff_along Registered ?_ ?_ ?_ functionOfTime_empty
  · intro db c _ db' registered _ stepped
    exact registered.step stepped
  · intro db c _ registered h
    exact step_functionOfTime_iff h registered c
  · intro f mem
    exact absurd mem List.not_mem_nil

/-- A correction that arrives late ends the current row before its start. -/
theorem late_fact_breaks_timeline :
    ¬ ∀ calls : List (Call Int), Run.Always step FunctionOfTime (empty : TemporalDb Int) calls := by
  intro all
  have run := all [.mark 7 .snapshot, .insert ⟨1, 7, 2, 0, 10, none⟩ (by decide),
    .insert ⟨1, 7, 3, 0, 5, none⟩ (by decide)]
  have late := run.2.2.2.ordered ⟨1, 7, 2, 0, 10, some 5⟩ (by decide) (by decide)
  exact absurd late (by decide)

end TemporalDb

end PgRipple.Temporal
