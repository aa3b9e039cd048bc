import PgRipple.Lib.Run
import PgRipple.Sparql.Update
import PgRipple.Storage.Correctness
import PgRipple.Storage.Sited
import PgRipple.Transfer.Loading

/-!
# Merge workers

Workers of a pool run merge cycles while sessions write. A worker has its share of the
predicates and steals others whose advisory lock is free.

`Op.intended` is what a call is for, on plain sets of quads; merges, promotions and cycles are
for nothing. `shown_run_iff` says in which runs the store always shows the intended set.
-/

namespace PgRipple.Storage

open Sparql

/-- One cycle of a worker, and what it finds. -/
structure MergeCycle where
  cfg : Config
  workerIdx : Nat
  nWorkers : Nat
  /-- `pred_ids_all`, which may be stale. -/
  predIdsAll : List TermId
  mergeThreshold : Int
  deltaIsEmpty : Bool
  /-- The rebalancer holds the fence lock. -/
  fenced : Bool
  /-- `pg_try_advisory_lock`. -/
  tryLock : TermId → Bool

namespace MergeCycle

variable (c : MergeCycle)

/-- `id.unsigned_abs() % n_workers`. -/
def bucket (id : TermId) : Nat := id.natAbs % c.nWorkers

def predIds : List TermId :=
  c.predIdsAll.filter fun id => c.nWorkers ≤ 1 ∨ c.bucket id = c.workerIdx

/-- The predicates to steal. -/
def allPredIds : List TermId :=
  if 1 < c.nWorkers then c.predIdsAll.filter fun id => c.bucket id ≠ c.workerIdx else []

def merges (p : TermId) (st : Store) : Bool :=
  decide (c.mergeThreshold ≤ (st.tables p).delta.rows.length) &&
    (decide (c.nWorkers ≤ 1) || c.tryLock p)

/-- A round of either loop, with `merged_any`. -/
def round (acc : Bool × Store) (p : TermId) : Bool × Store :=
  if c.merges p acc.2 then (true, (Store.mergePredicate c.cfg p acc.2).2) else acc

/-- `run_merge_cycle_for_worker_inner`. -/
def run (st : Store) : Store :=
  if c.deltaIsEmpty || c.fenced then st
  else
    let acc := (c.predIds ++ c.allPredIds).foldl c.round (false, st)
    if acc.1 then Transfer.promoteRarePredicates c.cfg acc.2 else acc.2

/-- Own and foreign predicates are all predicates. -/
theorem perm_predIds : (c.predIds ++ c.allPredIds).Perm c.predIdsAll := by
  rw [predIds, allPredIds]
  by_cases single : c.nWorkers ≤ 1
  · simp [single, Nat.not_lt.mpr single]
  · simpa [single, Nat.not_le.mp single] using
      List.filter_append_perm (fun id => decide (c.bucket id = c.workerIdx)) c.predIdsAll

end MergeCycle

/-- What a call is for. -/
def Op.intended (quads : Set Quad) : Op → Set Quad
  | .insertTriple _ _ q | .insertEncodedTriple _ q => insert q quads
  | .batchInsertEncoded _ p keys => {q | q ∈ quads ∨ q.p = p ∧ q.key ∈ keys}
  | .deleteTriple _ q | .deleteTripleByIds _ q => quads \ {q}
  | .clearGraphById _ g | .dropGraph _ g => {q | q ∈ quads ∧ q.g ≠ g}
  | .promotePredicate _ | .mergePredicate _ _ => quads

/-- A delete does not uncover a row of `main`. -/
def Op.Covered (st : Store) : Op → Prop
  | .deleteTriple _ q | .deleteTripleByIds _ q => ¬ (MainCopy st q ∧ OtherCopy st q)
  | _ => True

/-- A step of the system; `drop_graph` is left out. -/
inductive PoolEvent where
  | call (op : Op) (notDrop : op.NotDrop)
  | cycle (c : MergeCycle)

namespace Store

variable {st : Store} {session : Session} {q : Quad} {p : TermId}

/-- All visible quads. -/
def Shown (st : Store) : Set Quad := {q | st.Visible q}

theorem Inv.shown_deleteQuad_iff (h : st.Inv) :
    (Store.deleteQuad session q st).2.Shown = st.Shown \ {q} ↔
      ¬ (MainCopy st q ∧ OtherCopy st q) := by
  have before (q' : Quad) : st.Visible q' ↔ MainCopy st q' ∨ OtherCopy st q' := by
    simpa [placesOf] using visible_iff_placesOf h
  have after (q' : Quad) : (Store.deleteQuad session q st).2.Visible q' ↔
      (MainCopy st q' ∧ (q' = q → OtherCopy st q)) ∨ (OtherCopy st q' ∧ q' ≠ q) := by
    have places : (Store.deleteQuad session q st).2.Visible q' ↔ _ :=
      visible_iff_placesOf h.deleteQuad
    simpa [placesOf, mainCopy_deleteQuad h.toLayout, otherCopy_deleteQuad h.toLayout,
      imp_iff_not_or] using places
  constructor
  · intro same both
    have gone := Set.ext_iff.mp same q
    exact (gone.mp ((after q).mpr (.inl ⟨both.1, fun _ => both.2⟩))).2 rfl
  · intro apart
    ext q'
    show (Store.deleteQuad session q st).2.Visible q' ↔ st.Visible q' ∧ q' ≠ q
    rw [after, before]
    by_cases same : q' = q
    · subst same
      simpa using apart
    · simp [same]

theorem Inv.shown_mergePredicate (h : st.Inv) (cfg : Config) :
    (Store.mergePredicate cfg p st).2.Shown = st.Shown := by
  ext q
  show (Store.mergePredicate cfg p st).2.Visible q ↔ st.Visible q
  cases h.predicate p with
  | inr unused => rw [unused.mergePredicate_eq]
  | inl used =>
    by_cases same : q.p = p
    · subst same
      rw [h.toLayout.mergePredicate.visible_iff_shows used.mergePredicate.dedicated,
        h.toLayout.visible_iff_shows used.dedicated, used.tables_mergePredicate,
        HtapTables.shows_merged (h.clean q.p)]
    · exact onlyAt_mergePredicate.visible_iff same (by rw [rare_mergePredicate])

theorem Inv.shown_clearGraphById (h : st.Inv) (session : Session) (g : TermId) :
    (Store.clearGraphById session g st).2.Shown = {q | q ∈ st.Shown ∧ q.g ≠ g} := by
  ext q
  refine (h.toLayout.visible_clearGraphById q).trans (Iff.trans ?_ or_and_right.symm)
  refine or_congr_left (Iff.trans (and_congr_right fun hp => ?_) and_assoc.symm)
  obtain ⟨removed, -⟩ := h.toLayout.clearGraphById_effect session g hp
  rw [HtapTables.shows_iff_of_clean (h.clearGraphById.clean _),
    HtapTables.shows_iff_of_clean (h.clean _), removed.inDelta, removed.inTombstones,
    HtapTables.InMain, removed.main]
  show _ ↔ _ ∧ q.key.g ≠ g
  tauto

theorem Inv.shown_apply_iff (h : st.Inv) {op : Op} (notDrop : op.NotDrop) :
    (op.apply st).Shown = op.intended st.Shown ↔ op.Covered st := by
  have always {st' : Store} {quads : Set Quad} (seen : st'.Shown = quads) :
      st'.Shown = quads ↔ True := iff_of_true seen trivial
  cases op with
  | insertTriple cfg session q =>
    exact always (Set.ext fun q' => (h.toLayout.visible_insertTriple q').trans or_comm)
  | insertEncodedTriple session q =>
    exact always (Set.ext fun q' => (h.toLayout.visible_insertEncodedTriple q').trans or_comm)
  | batchInsertEncoded session p keys =>
    exact always (Set.ext (h.toLayout.visible_batchInsertEncoded keys))
  | deleteTriple session q => exact h.shown_deleteQuad_iff
  | deleteTripleByIds session q => exact h.shown_deleteQuad_iff
  | promotePredicate p => exact always (Set.ext h.toLayout.visible_promotePredicate)
  | mergePredicate cfg p => exact always (h.shown_mergePredicate cfg)
  | clearGraphById session g => exact always (h.shown_clearGraphById session g)
  | dropGraph session g => exact notDrop.elim

theorem rounds_induction {c : MergeCycle} {motive : Store → Prop} (start : motive st)
    (merge : ∀ st p, motive st → motive (mergePredicate c.cfg p st).2) (ps : List TermId) :
    motive (ps.foldl c.round (false, st)).2 := by
  refine List.foldlRecOn (motive := fun acc : Bool × Store => motive acc.2) ps _ start ?_
  intro acc kept p _
  rw [MergeCycle.round]
  split
  · exact merge acc.2 p kept
  · exact kept

/-- A cycle consists of merges and promotions. -/
theorem mergeCycle_induction {c : MergeCycle} {motive : Store → Prop} (start : motive st)
    (merge : ∀ st p, motive st → motive (mergePredicate c.cfg p st).2)
    (promote : ∀ st p, motive st → motive (promotePredicate st p)) : motive (c.run st) := by
  rw [MergeCycle.run]
  split
  · exact start
  dsimp only
  split
  · exact List.foldlRecOn _ _ (rounds_induction start merge _) fun st kept p _ => promote st p kept
  · exact rounds_induction start merge _

theorem Inv.mergeCycle (h : st.Inv) (sited : st.Sited) (c : MergeCycle) :
    (c.run st).Inv ∧ (c.run st).Sited ∧ (c.run st).Shown = st.Shown := by
  refine mergeCycle_induction (motive := fun st' => st'.Inv ∧ st'.Sited ∧ st'.Shown = st.Shown)
    ⟨h, sited, rfl⟩ ?_ ?_
  · rintro st' p ⟨inv, sited, shown⟩
    exact ⟨inv.mergePredicate, sited.apply (.mergePredicate c.cfg p),
      (inv.shown_mergePredicate c.cfg).trans shown⟩
  · rintro st' p ⟨inv, sited, shown⟩
    exact ⟨inv.promotePredicate, sited.apply (.promotePredicate p),
      (Set.ext inv.toLayout.visible_promotePredicate).trans shown⟩

theorem tables_promoteRarePredicates (cfg : Config) (none : ∀ q, st.rare.HasKey q → q.p ≠ p) :
    (Transfer.promoteRarePredicates cfg st).tables p = st.tables p := by
  refine List.foldlRecOn (motive := fun st' : Store => st'.tables p = st.tables p) _ _ rfl ?_
  intro st' kept p' hp'
  have listed := List.mem_eraseDups.mp (List.mem_of_mem_filter hp')
  obtain ⟨r, hr, rfl⟩ := List.mem_map.mp listed
  have other := none r.quad (List.mem_map_of_mem hr)
  exact (onlyAt_promotePredicate.tables p other.symm).trans kept

theorem DedicatedAt.tables_rounds (c : MergeCycle) {ps : List TermId} (nodup : ps.Nodup)
    {acc : Bool × Store} (used : acc.2.DedicatedAt p) :
    (ps.foldl c.round acc).2.tables p =
      if p ∈ ps ∧ c.merges p acc.2 = true then (acc.2.tables p).merged c.cfg
      else acc.2.tables p := by
  induction ps generalizing acc with
  | nil => simp
  | cons p' ps ih =>
    obtain ⟨fresh, nodup⟩ := List.nodup_cons.mp nodup
    rw [List.foldl_cons]
    by_cases same : p' = p
    · subst same
      cases merged : c.merges p' acc.2 with
      | true =>
        rw [MergeCycle.round, if_pos merged, ih nodup used.mergePredicate,
          used.tables_mergePredicate]
        simp [fresh]
      | false =>
        rw [MergeCycle.round, if_neg (Bool.eq_false_iff.mp merged), ih nodup used]
        simp [merged]
    · have only : OnlyAt p' acc.2 (c.round acc p').2 := by
        rw [MergeCycle.round]
        split
        · exact onlyAt_mergePredicate
        · exact .refl ..
      have tables := only.tables p (Ne.symm same)
      rw [ih nodup (used.of_onlyAt only (Ne.symm same)), MergeCycle.merges, tables]
      simp [MergeCycle.merges, Ne.symm same]

/-- Whichever worker runs a cycle, it merges the listed predicates with enough rows in `delta`
whose lock is free, and touches no other tables. -/
theorem tables_mergeCycle (h : Reachable Op.NotDrop st) (c : MergeCycle)
    (nodup : c.predIdsAll.Nodup) (dedicated : st.isDedicated p = true) :
    (c.run st).tables p =
      if (c.deltaIsEmpty || c.fenced) = false ∧ p ∈ c.predIdsAll ∧ c.merges p st = true then
        (st.tables p).merged c.cfg
      else st.tables p := by
  rw [MergeCycle.run]
  cases c.deltaIsEmpty || c.fenced with
  | true => simp
  | false =>
    have all := c.perm_predIds
    have rare : _ = st.rare := rounds_induction (c := c) (motive := fun st' => st'.rare = st.rare)
      rfl (fun _ _ kept => rare_mergePredicate.trans kept) (c.predIds ++ c.allPredIds)
    have used : ((false, st) : Bool × Store).2.DedicatedAt p :=
      h.inv.toLayout.dedicatedAt dedicated
    have merged := used.tables_rounds c (all.nodup_iff.mpr nodup)
    simp only [Bool.false_eq_true, if_false, true_and]
    simp only [all.mem_iff] at merged
    refine Eq.trans ?_ merged
    split
    · refine tables_promoteRarePredicates c.cfg fun q hq same => ?_
      have unused := h.inv.rare q (rare ▸ hq)
      rw [same, dedicated] at unused
      cases unused
    · rfl

/-- Worker 1 of 2 takes over predicate 2. -/
def stealingCycle : MergeCycle := ⟨⟨1000, true, 0⟩, 1, 2, [2], 1, false, false, fun _ => true⟩

def promotedStore : Store := run [.insertEncodedTriple 0 ⟨1, 2, 3, 0⟩, .promotePredicate 2] initial

theorem tables_mergeCycle_stolen :
    ((stealingCycle.run promotedStore).tables 2).main.length = 1 := by
  have reachable : Reachable Op.NotDrop promotedStore := ⟨_, by simp [Op.NotDrop], rfl⟩
  rw [tables_mergeCycle reachable stealingCycle (by decide) (by decide)]
  decide

end Store

/-- The store, beside the set of quads that it is to show. -/
def PoolEvent.step (s : Store × Set Quad) : PoolEvent → Option (Store × Set Quad)
  | .call op _ => some (op.apply s.1, op.intended s.2)
  | .cycle c => some (c.run s.1, s.2)

def PoolEvent.Covered (s : Store × Set Quad) : PoolEvent → Prop
  | .call op _ => op.Covered s.1
  | .cycle _ => True

/-- What each step keeps, and when it does what it is for. -/
theorem PoolEvent.step_spec {s s' : Store × Set Quad} {e : PoolEvent}
    (h : s.1.Inv ∧ s.1.Sited) (stepped : e.step s = some s') :
    (s'.1.Inv ∧ s'.1.Sited) ∧ (s.1.Shown = s.2 → (e.Covered s ↔ s'.1.Shown = s'.2)) := by
  cases e with
  | call op notDrop =>
    cases stepped
    refine ⟨⟨h.1.apply notDrop, h.2.apply op⟩, fun shown => ?_⟩
    rw [PoolEvent.Covered, ← h.1.shown_apply_iff notDrop, shown]
  | cycle c =>
    cases stepped
    obtain ⟨inv, sited, shown⟩ := h.1.mergeCycle h.2 c
    exact ⟨⟨inv, sited⟩, fun same => iff_of_true trivial (shown.trans same)⟩

namespace Store

theorem shown_initial : initial.Shown = ∅ := Set.eq_empty_of_forall_notMem not_visible_initial

/-- The store shows the intended set all along a run, whatever cycles the workers run in
between, exactly if no delete uncovers a row of `main`. -/
theorem shown_run_iff (events : List PoolEvent) :
    Run.Always PoolEvent.step (fun s => s.1.Shown = s.2) (initial, ∅) events ↔
      Run.Along PoolEvent.step PoolEvent.Covered (initial, ∅) events := by
  refine Run.always_iff_along (fun s => s.1.Inv ∧ s.1.Sited)
    (fun s e _ s' h _ stepped => (PoolEvent.step_spec h stepped).1) ?_
    ⟨inv_initial, sited_initial⟩ shown_initial
  intro s e _ h shown
  obtain ⟨s', stepped⟩ : ∃ s', e.step s = some s' := by cases e <;> exact ⟨_, rfl⟩
  rw [(PoolEvent.step_spec h stepped).2 shown, stepped]
  simp

theorem shown_of_exec {events : List PoolEvent} {s : Store × Set Quad}
    (covered : Run.Along PoolEvent.step PoolEvent.Covered (initial, ∅) events)
    (ran : Run.exec PoolEvent.step (initial, ∅) events = some s) :
    (s.1.Inv ∧ s.1.Sited) ∧ s.1.Shown = s.2 := by
  refine @Run.exec_invariant _ _ _ _ (fun s => (s.1.Inv ∧ s.1.Sited) ∧ s.1.Shown = s.2) ?_ _ _ _
    ⟨⟨inv_initial, sited_initial⟩, shown_initial⟩ covered ran
  intro s e s' h guarded stepped
  obtain ⟨kept, exact_⟩ := PoolEvent.step_spec h.1 stepped
  exact ⟨kept, (exact_ h.2).mp guarded⟩

end Store

end PgRipple.Storage
