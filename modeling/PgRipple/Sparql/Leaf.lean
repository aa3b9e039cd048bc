import PgRipple.Lib.Run
import PgRipple.Datalog.Completeness

/-!
# Leaf readers

Four pieces of SQL generation read the triples of a predicate, and each decides for
itself where to look. A triple pattern of a SPARQL query asks `vp_source`, which
goes through a cache that each backend keeps for itself. A property path asks the
catalog. A pattern with a variable predicate reads the views of all dedicated
predicates and the whole of `vp_rare`. A rule body reads the view and `vp_rare`.

A cache is emptied when its backend learns of DDL, so each event says whether it
issues any.

The readers agree as long as two things are avoided. Inference must not derive a
new triple of a dedicated predicate, since it goes to `vp_rare`, where the first two
readers do not look. And no backend may remember a predicate as unknown when an
insert registers it, since registering is no DDL.
-/

namespace PgRipple.Sparql

open Storage Datalog

/-- `TableDesc`. -/
structure TableDesc where
  dedicated : Bool
  deriving DecidableEq, Repr

/-- An entry of a backend's cache; `none` stands for "looked up and not found". -/
structure CacheEntry where
  session : Session
  predId : TermId
  desc : Option TableDesc
  deriving DecidableEq, Repr

/-- The store and the predicate caches of all backends. -/
structure System where
  store : Store
  cache : List CacheEntry

/-- `spi_resolve`. Without a catalog row the query fails, which reads as `None`. -/
def spiResolve (st : Store) (p : TermId) : Option TableDesc :=
  (st.tableOid p).map TableDesc.mk

namespace System

/-- `CACHE.get`, in one backend. -/
def cached (sys : System) (session : Session) (p : TermId) : Option (Option TableDesc) :=
  (sys.cache.find? fun e => e.session = session ∧ e.predId = p).map CacheEntry.desc

/-- `PREDICATE_CACHE.resolve`, with the setting `predicate_cache_enabled`. -/
def resolve (enabled : Bool) (session : Session) (p : TermId) (sys : System) :
    Option TableDesc × System :=
  if enabled then
    match sys.cached session p with
    | some desc => (desc, sys)
    | none =>
      let desc := spiResolve sys.store p
      (desc, { sys with cache := ⟨session, p, desc⟩ :: sys.cache })
  else (spiResolve sys.store p, sys)

end System

/-- `VpSource`. -/
inductive VpSource where
  | dedicated (p : TermId)
  | rare (p : TermId)
  | empty
  deriving DecidableEq, Repr

/-- `vp_source`. -/
def vpSource (enabled : Bool) (session : Session) (p : TermId) (sys : System) : VpSource :=
  match (sys.resolve enabled session p).1 with
  | some desc => if desc.dedicated then .dedicated p else .rare p
  | none => .empty

/-- The condition on `g` that a leaf carries: one graph, or none of the registered
service graphs. -/
def graphCondition (graphFilter : Option TermId) (svcExcl : List TermId) (g : TermId) : Bool :=
  match graphFilter with
  | some gid => g = gid
  | none => g ∉ svcExcl

/-- `SELECT s, o, g FROM _pg_ripple.vp_{p}`. -/
def viewKeys (st : Store) (p : TermId) : List Key := (st.tables p).htapView.map Row.key

/-- `SELECT s, o, g FROM _pg_ripple.vp_rare WHERE p = {p}`. -/
def rareKeys (st : Store) (p : TermId) : List Key :=
  (st.rare.rows.filter fun r => r.quad.p = p).map fun r => r.quad.key

/-- `table_expr`. -/
def tableExpr (st : Store) (src : VpSource) (graphFilter : Option TermId)
    (svcExcl : List TermId) : List Key :=
  match src with
  | .dedicated p => (viewKeys st p).filter fun k => graphCondition graphFilter svcExcl k.g
  | .rare p => (rareKeys st p).filter fun k => graphCondition graphFilter svcExcl k.g
  | .empty => []

/-- `pred_table_expr`, for a predicate that the dictionary knows. -/
def predTableExpr (st : Store) (p : TermId) (graphFilter : Option TermId) : Option (List Key) :=
  match st.tableOid p with
  | some true => some ((viewKeys st p).filter fun k => graphCondition graphFilter [] k.g)
  | some false => some ((rareKeys st p).filter fun k => graphCondition graphFilter [] k.g)
  | none => none

/-- `build_all_predicates_union`; `none` is error `PT0601`. -/
def buildAllPredicatesUnion (maxPredicateUnionBranches : Int) (st : Store)
    (graphFilter : Option TermId) (svcExcl : List TermId) : Option (List Quad) :=
  if max maxPredicateUnionBranches 10 < st.predicates.rows.length then none
  else
    let branches := st.dedicatedPredicates.map fun p => (viewKeys st p).map (Key.quad · p)
    let rows := branches.flatten ++ st.rare.rows.map RareRow.quad
    some (rows.filter fun q => graphCondition graphFilter svcExcl q.g)

/-- The readers of predicate `p` return the triples that a rule body reads, in the
graphs that were asked for. -/
structure AgreeAt (sys : System) (p : TermId) (k : Key) : Prop where
  /-- A triple pattern, in any backend. -/
  leaf : ∀ enabled session graphFilter svcExcl,
    k ∈ tableExpr sys.store (vpSource enabled session p sys) graphFilter svcExcl ↔
      k ∈ vpReadExpr sys.store p ∧ graphCondition graphFilter svcExcl k.g = true
  /-- A property path; without an expression it matches nothing. -/
  path : ∀ graphFilter, k ∈ (predTableExpr sys.store p graphFilter).getD [] ↔
    k ∈ vpReadExpr sys.store p ∧ graphCondition graphFilter [] k.g = true
  /-- A variable predicate, unless the query is refused. -/
  union : ∀ branches graphFilter svcExcl rows,
    buildAllPredicatesUnion branches sys.store graphFilter svcExcl = some rows →
      (k.quad p ∈ rows ↔
        k ∈ vpReadExpr sys.store p ∧ graphCondition graphFilter svcExcl k.g = true)

/-- All readers agree on all predicates. -/
def ReadersAgree (sys : System) : Prop := ∀ p k, AgreeAt sys p k

/-- What can happen to the system. -/
inductive Event where
  | insertTriple (cfg : Config) (session : Session) (q : Quad)
  | deleteTriple (session : Session) (q : Quad)
  | promotePredicate (p : TermId)
  | mergePredicate (cfg : Config) (p : TermId)
  | runInferenceSeminaive (env : Environment) (session : Session) (rules : List Rule)
  | runSeminaiveInner (env : Environment) (session : Session) (rules : List Rule)
  /-- A query looks a predicate up. -/
  | resolve (enabled : Bool) (session : Session) (p : TermId)
  /-- `invalidate_catalog_cache`. -/
  | invalidateCatalogCache (session : Session)

/-- The event creates, replaces or drops a relation: the tables of a predicate, a
view, or the temporary tables of an inference. -/
def Event.issuesDdl (st : Store) : Event → Bool
  | .insertTriple cfg session q =>
    !st.isDedicated q.p &&
      decide (cfg.vpPromotionThreshold ≤ (Store.insertIntoVpRare session q st).2.tripleCount q.p)
  | .deleteTriple _ q =>
    st.isDedicated q.p && decide (¬ (st.tables q.p).InDelta q.key) &&
      decide (st.tombstoneCount q.p = 0)
  | .promotePredicate p => !st.isDedicated p
  | .mergePredicate _ p => st.isHtap p
  | .runInferenceSeminaive env _ rules =>
    !(derivedPredIds (canonicalRules (env.context st) rules)).isEmpty
  | .runSeminaiveInner _ _ rules => !(derivedPredIds rules).isEmpty
  | .resolve _ _ _ => false
  | .invalidateCatalogCache _ => false

/-- The store after an event; `none` if it fails. -/
def Event.write (st : Store) : Event → Option Store
  | .insertTriple cfg session q => some (Store.insertTriple cfg session q st).2
  | .deleteTriple session q => some (Store.deleteTriple session q st).2
  | .promotePredicate p => some (st.promotePredicate p)
  | .mergePredicate cfg p => some (Store.mergePredicate cfg p st).2
  | .runInferenceSeminaive env session rules =>
    (Datalog.runInferenceSeminaive env session rules st).map Prod.snd
  | .runSeminaiveInner env session rules =>
    (Datalog.runSeminaiveInner env session rules st).map Prod.snd
  | .resolve _ _ _ => some st
  | .invalidateCatalogCache _ => some st

namespace System

/-- The caches after an event, which sees the store as it was before. -/
def caches (sys : System) (event : Event) : List CacheEntry :=
  if event.issuesDdl sys.store then []
  else
    match event with
    | .resolve enabled session p => (sys.resolve enabled session p).2.cache
    | .invalidateCatalogCache session => sys.cache.filter fun e => e.session ≠ session
    | _ => sys.cache

/-- One event. -/
def step (sys : System) (event : Event) : Option System :=
  (event.write sys.store).map fun st => ⟨st, sys.caches event⟩

/-- The system after installation. -/
def initial : System := ⟨Store.initial, []⟩

end System

/-- What an inference derives of dedicated predicates is in their views already. -/
def DerivesShown (st : Store) (engine : Engine Quad) : Prop :=
  ∀ q ∈ engine.stage (maxIterations - 1),
    st.isDedicated q.p = true → (st.tables q.p).Shows q.key

/-- The event does not set the readers apart. -/
def KeepsAgreement (sys : System) : Event → Prop
  | .insertTriple cfg session q =>
    (Event.insertTriple cfg session q).issuesDdl sys.store = false →
      spiResolve sys.store q.p = none → ∀ e ∈ sys.cache, e.predId = q.p → e.desc ≠ none
  | .runInferenceSeminaive env _ rules =>
    DerivesShown sys.store (inferenceEngine env rules sys.store)
  | .runSeminaiveInner env _ rules => DerivesShown sys.store (innerEngine env rules sys.store)
  | _ => True

/-- The place that the catalog names. -/
def catalogKeys (st : Store) (p : TermId) : List Key :=
  match st.tableOid p with
  | some true => viewKeys st p
  | some false => rareKeys st p
  | none => []

section Readers

variable {st : Store} {sys : System} {p : TermId} {k : Key} {graphFilter : Option TermId}
  {svcExcl : List TermId}

@[simp] theorem mem_rareKeys : k ∈ rareKeys st p ↔ st.rare.HasKey (k.quad p) := by
  simp only [rareKeys, List.mem_map, List.mem_filter, decide_eq_true_eq, UniqueTable.hasKey_iff]
  constructor
  · rintro ⟨r, ⟨hr, rfl⟩, rfl⟩
    exact ⟨r, hr, rfl⟩
  · intro ⟨r, hr, same⟩
    exact ⟨r, ⟨hr, congrArg Quad.p same⟩, congrArg Quad.key same⟩

/-- If rows are placed well, the place that the catalog names holds all of them. -/
theorem mem_catalogKeys (placed : st.Placement) : k ∈ catalogKeys st p ↔ k ∈ vpReadExpr st p := by
  rw [mem_vpReadExpr, Store.Visible, Key.quad_p, Key.quad_key, Store.isDedicated_iff_tableOid,
    catalogKeys]
  cases oid : st.tableOid p with
  | none =>
    have absent : ¬ st.rare.HasKey (k.quad p) := fun hq => placed.registered _ hq oid
    simp [absent]
  | some has =>
    cases has with
    | true =>
      have repeated : st.rare.HasKey (k.quad p) → (st.tables p).Shows k := fun hq =>
        placed.shown _ hq (Store.isDedicated_iff_tableOid.mpr oid)
      simp only [true_and]
      exact (or_iff_left_of_imp repeated).symm
    | false => simp [mem_rareKeys]

/-- A lookup that agrees with the catalog reads the place that the catalog names. -/
theorem tableExpr_vpSource {enabled : Bool} {session : Session}
    (fresh : (sys.resolve enabled session p).1 = spiResolve sys.store p) :
    tableExpr sys.store (vpSource enabled session p sys) graphFilter svcExcl =
      (catalogKeys sys.store p).filter fun k => graphCondition graphFilter svcExcl k.g := by
  rw [vpSource, fresh, spiResolve, catalogKeys]
  cases sys.store.tableOid p with
  | none => rfl
  | some has => cases has <;> rfl

theorem predTableExpr_getD :
    (predTableExpr st p graphFilter).getD [] =
      (catalogKeys st p).filter fun k => graphCondition graphFilter [] k.g := by
  rw [predTableExpr, catalogKeys]
  cases st.tableOid p with
  | none => rfl
  | some has => cases has <;> rfl

/-- The union reads both places of every predicate. -/
theorem mem_buildAllPredicatesUnion {branches : Int} {rows : List Quad}
    (h : buildAllPredicatesUnion branches st graphFilter svcExcl = some rows) :
    k.quad p ∈ rows ↔
      k ∈ vpReadExpr st p ∧ graphCondition graphFilter svcExcl k.g = true := by
  rw [buildAllPredicatesUnion] at h
  split at h
  · cases h
  · cases h
    have view : (∃ p' ∈ st.dedicatedPredicates, ∃ k' ∈ viewKeys st p', k'.quad p' = k.quad p) ↔
        st.isDedicated p = true ∧ (st.tables p).Shows k := by
      rw [← Store.mem_dedicatedPredicates]
      constructor
      · rintro ⟨p', hp', k', hk', same⟩
        cases congrArg Quad.p same
        have key : k' = k := congrArg Quad.key same
        subst key
        exact ⟨hp', hk'⟩
      · intro ⟨hp, hk⟩
        exact ⟨p, hp, k, hk, rfl⟩
    simp only [List.mem_filter, List.mem_append, List.mem_flatten, List.mem_map,
      exists_exists_and_eq_and, view, ← UniqueTable.hasKey_iff]
    rw [mem_vpReadExpr, Store.Visible]
    exact Iff.rfl

end Readers

section Inference

variable {st : Store} {session : Session} {env : Environment} {rules : List Rule} {st' : Store}
  {report : Report}

theorem placement_runSeminaiveInner (h : st.Placement)
    (shown : DerivesShown st (innerEngine env rules st))
    (ran : Datalog.runSeminaiveInner env session rules st = some (report, st')) :
    st'.Placement := by
  simp only [Datalog.runSeminaiveInner] at ran
  split at ran
  · cases ran
    exact h
  · obtain ⟨⟨found, iterations⟩, evaluated, ran⟩ := Option.bind_eq_some_iff.mp ran
    cases ran
    refine placement_materialise h ?_
    intro q hq
    exact shown q ((mem_evaluate evaluated q).mp hq)

theorem placement_runInferenceSeminaive (h : st.Placement)
    (shown : DerivesShown st (inferenceEngine env rules st))
    (ran : Datalog.runInferenceSeminaive env session rules st = some (report, st')) :
    st'.Placement := by
  rw [Datalog.runInferenceSeminaive] at ran
  split at ran
  · cases ran
    exact h
  · obtain ⟨⟨found, iterations⟩, evaluated, ran⟩ := Option.bind_eq_some_iff.mp ran
    cases ran
    refine placement_materialise h ?_
    intro q hq
    exact shown q ((mem_evaluate evaluated q).mp hq)

end Inference

/-- The rows are placed well and the caches repeat the catalog. -/
structure Coherent (sys : System) : Prop where
  placement : sys.store.Placement
  cache : ∀ e ∈ sys.cache, e.desc = spiResolve sys.store e.predId

namespace Coherent

variable {sys sys' : System} {event : Event}

theorem initial : Coherent System.initial where
  placement := Store.placement_initial
  cache e he := by cases he

/-- A lookup cannot tell the cache from the catalog. -/
theorem resolve_eq (h : Coherent sys) (enabled : Bool) (session : Session) (p : TermId) :
    (sys.resolve enabled session p).1 = spiResolve sys.store p := by
  rw [System.resolve]
  split
  · split
    · rename_i desc found
      obtain ⟨e, he, rfl⟩ := Option.map_eq_some_iff.mp found
      have isEntry := List.find?_some he
      simp only [decide_eq_true_eq] at isEntry
      rw [← isEntry.2]
      exact h.cache e (List.mem_of_find?_eq_some he)
    · rfl
  · rfl

theorem readersAgree (h : Coherent sys) : ReadersAgree sys := by
  intro p k
  refine ⟨?_, ?_, ?_⟩
  · intro enabled session graphFilter svcExcl
    rw [tableExpr_vpSource (h.resolve_eq enabled session p), List.mem_filter,
      mem_catalogKeys h.placement]
  · intro graphFilter
    rw [predTableExpr_getD, List.mem_filter, mem_catalogKeys h.placement]
  · intro branches graphFilter svcExcl rows read
    exact mem_buildAllPredicatesUnion read

/-- Every event that keeps the readers together keeps the rows placed well. -/
theorem placement_write (h : Coherent sys) (keeps : KeepsAgreement sys event) {st : Store}
    (written : event.write sys.store = some st) : st.Placement := by
  cases event with
  | insertTriple cfg session q =>
    cases written
    exact h.placement.insertTriple
  | deleteTriple session q =>
    cases written
    exact h.placement.deleteQuad
  | promotePredicate p =>
    cases written
    exact h.placement.promotePredicate
  | mergePredicate cfg p =>
    cases written
    exact h.placement.mergePredicate
  | runInferenceSeminaive env session rules =>
    obtain ⟨⟨report, st'⟩, ran, rfl⟩ := Option.map_eq_some_iff.mp written
    exact placement_runInferenceSeminaive h.placement keeps ran
  | runSeminaiveInner env session rules =>
    obtain ⟨⟨report, st'⟩, ran, rfl⟩ := Option.map_eq_some_iff.mp written
    exact placement_runSeminaiveInner h.placement keeps ran
  | resolve enabled session p =>
    cases written
    exact h.placement
  | invalidateCatalogCache session =>
    cases written
    exact h.placement

/-- Without DDL an insert keeps the catalog's answer for whatever is cached. -/
theorem spiResolve_insertTriple (h : Coherent sys) {cfg : Config} {session : Session} {q : Quad}
    (keeps : KeepsAgreement sys (.insertTriple cfg session q))
    (quiet : (Event.insertTriple cfg session q).issuesDdl sys.store = false) {e : CacheEntry}
    (he : e ∈ sys.cache) :
    spiResolve (Store.insertTriple cfg session q sys.store).2 e.predId =
      spiResolve sys.store e.predId := by
  rw [spiResolve, spiResolve, Store.insertTriple]
  split
  · rw [Store.tableOid_insertIntoDelta]
  · rename_i notDedicated
    have below : ¬ cfg.vpPromotionThreshold ≤
        (Store.insertIntoVpRare session q sys.store).2.tripleCount q.p := by
      simpa [Event.issuesDdl, notDedicated] using quiet
    simp only
    rw [if_neg below]
    by_cases same : e.predId = q.p
    · rw [same, Store.tableOid_insertIntoVpRare h.placement.seq]
      split
      · rfl
      · cases oid : sys.store.tableOid q.p with
        | some has => rfl
        | none =>
          -- the entry would remember the predicate as unknown
          have unknown : spiResolve sys.store q.p = none := by rw [spiResolve, oid]; rfl
          have entry := h.cache e he
          rw [same, unknown] at entry
          exact absurd entry (keeps quiet unknown e he same)
    · rw [Store.onlyAt_insertIntoVpRare.tableOid same]

/-- Without DDL the caches stay true. -/
theorem spiResolve_write (h : Coherent sys) (keeps : KeepsAgreement sys event) {st : Store}
    (written : event.write sys.store = some st) (quiet : event.issuesDdl sys.store = false)
    {e : CacheEntry} (he : e ∈ sys.cache) :
    spiResolve st e.predId = spiResolve sys.store e.predId := by
  cases event with
  | insertTriple cfg session q =>
    cases written
    exact h.spiResolve_insertTriple keeps quiet he
  | deleteTriple session q =>
    cases written
    rw [spiResolve, Store.deleteTriple, Store.tableOid_deleteQuad, spiResolve]
  | promotePredicate p =>
    cases written
    have before : sys.store.isDedicated p = true := by simpa [Event.issuesDdl] using quiet
    have after := (Store.dedicatedAt_promotePredicate (h.placement.predicate p)).dedicated
    rw [spiResolve, spiResolve]
    by_cases same : e.predId = p
    · rw [same, Store.isDedicated_iff_tableOid.mp before, Store.isDedicated_iff_tableOid.mp after]
    · rw [Store.onlyAt_promotePredicate.tableOid same]
  | mergePredicate cfg p =>
    cases written
    have noHtap : sys.store.isHtap p = false := quiet
    simp [Store.mergePredicate, noHtap]
  | runInferenceSeminaive env session rules =>
    obtain ⟨⟨report, st'⟩, ran, rfl⟩ := Option.map_eq_some_iff.mp written
    have none : derivedPredIds (canonicalRules (env.context sys.store) rules) = [] := by
      simpa [Event.issuesDdl] using quiet
    rw [Datalog.runInferenceSeminaive] at ran
    split at ran
    · cases ran
      rfl
    · obtain ⟨⟨found, iterations⟩, evaluated, ran⟩ := Option.bind_eq_some_iff.mp ran
      cases ran
      rw [none]
      rfl
  | runSeminaiveInner env session rules =>
    obtain ⟨⟨report, st'⟩, ran, rfl⟩ := Option.map_eq_some_iff.mp written
    have none : (derivedPredIds rules).isEmpty = true := by simpa [Event.issuesDdl] using quiet
    simp only [Datalog.runSeminaiveInner, none, if_true] at ran
    cases ran
    rfl
  | resolve enabled session p =>
    cases written
    rfl
  | invalidateCatalogCache session =>
    cases written
    rfl

/-- What is cached after an event without DDL was cached before or has just been
looked up. -/
theorem mem_caches (quiet : event.issuesDdl sys.store = false) {e : CacheEntry}
    (he : e ∈ sys.caches event) :
    e ∈ sys.cache ∨ (event.write sys.store = some sys.store ∧
      e.desc = spiResolve sys.store e.predId) := by
  simp only [System.caches, quiet, Bool.false_eq_true, if_false] at he
  split at he
  · rename_i enabled session p
    rw [System.resolve] at he
    split at he
    · split at he
      · exact .inl he
      · cases List.mem_cons.mp he with
        | inl new =>
          rw [new]
          exact .inr ⟨rfl, rfl⟩
        | inr old => exact .inl old
    · exact .inl he
  · exact .inl (List.mem_of_mem_filter he)
  · exact .inl he

/-- One event keeps the system coherent. -/
theorem step (h : Coherent sys) (keeps : KeepsAgreement sys event)
    (stepped : sys.step event = some sys') : Coherent sys' := by
  obtain ⟨st, written, rfl⟩ := Option.map_eq_some_iff.mp stepped
  refine ⟨h.placement_write keeps written, ?_⟩
  intro e he
  by_cases ddl : event.issuesDdl sys.store = true
  · simp only [System.caches, ddl, if_true] at he
    cases he
  · have quiet : event.issuesDdl sys.store = false := by simpa using ddl
    cases mem_caches quiet he with
    | inl old => exact (h.cache e old).trans (h.spiResolve_write keeps written quiet old).symm
    | inr new =>
      obtain ⟨same, entry⟩ := new
      cases same.symm.trans written
      exact entry

end Coherent

/-- In every run in which no inference derives a new triple of a dedicated predicate,
and no insert registers a predicate that a backend remembers as unknown, all four
readers agree in the end. -/
theorem readersAgree_of_run {events : List Event} {sys : System}
    (guarded : Run.Along System.step KeepsAgreement System.initial events)
    (executed : Run.exec System.step System.initial events = some sys) : ReadersAgree sys := by
  have keeps (sys : System) (e : Event) (sys' : System) (h : Coherent sys)
      (kept : KeepsAgreement sys e) (stepped : System.step sys e = some sys') : Coherent sys' :=
    h.step kept stepped
  have coherent := Run.exec_invariant keeps Coherent.initial guarded executed
  exact coherent.readersAgree

/-- Default settings. -/
def defaultConfig : Config := ⟨10000, true, 3600⟩

/-- Predicate `21` gets its own tables, a backend looks it up, and `11` is derived from
it. -/
def copied : List Event := [
  .insertTriple defaultConfig 0 ⟨101, 21, 102, 0⟩,
  .promotePredicate 21,
  .resolve true 1 21,
  .runInferenceSeminaive .bare 0 [copyRule]]

/-- The derived predicate has no tables of its own. -/
theorem readersAgree_copied :
    ∃ sys, Run.exec System.step System.initial copied = some sys ∧ ReadersAgree sys := by
  have runs : (Run.exec System.step System.initial copied).isSome = true := by decide
  obtain ⟨sys, executed⟩ := Option.isSome_iff_exists.mp runs
  refine ⟨sys, executed, readersAgree_of_run ?_ executed⟩
  refine ⟨?_, trivial, trivial, ?_, ?_⟩
  · intro _ _ e he
    cases he
  · intro q stage dedicated
    obtain ⟨r, hr, pred⟩ := headPred_of_mem_stage stage
    have only : activeRules (canonicalRules (Environment.bare.context
        ((Store.insertTriple defaultConfig 0 ⟨101, 21, 102, 0⟩ Store.initial).2.promotePredicate
          21)) [copyRule]) = [copyRule] := by decide
    have rule := only ▸ hr
    cases List.mem_singleton.mp rule
    have head : (11 : TermId) = q.p := Option.some.inj pred
    rw [← head] at dedicated
    exact absurd dedicated (by decide)
  · split <;> trivial

/-- Derived into a predicate with tables, the new triple is out of reach for patterns
and paths. -/
theorem not_readersAgree :
    ¬ ∀ events sys, Run.exec System.step System.initial events = some sys →
      ReadersAgree sys := by
  intro promised
  have runs : (Run.exec System.step System.initial
      (.insertTriple defaultConfig 0 ⟨103, 11, 104, 0⟩ :: .promotePredicate 11 :: copied)).any
      (fun sys => decide (⟨101, 102, 0⟩ ∈ vpReadExpr sys.store 11 ∧
        ⟨101, 102, 0⟩ ∉ (predTableExpr sys.store 11 none).getD [])) = true := by decide
  obtain ⟨sys, executed, differs⟩ := (Option.any_eq_true _ _).mp runs
  have agree := (promised _ sys executed 11 ⟨101, 102, 0⟩).path none
  simp only [decide_eq_true_eq] at differs
  exact differs.2 (agree.mpr ⟨differs.1, rfl⟩)

end PgRipple.Sparql
