import PgRipple.Storage.Reachable

/-!
# What the store promises, and when it keeps it

Three promises about sequential use: a delete removes its quad, emptying a graph
removes the quads of that graph, and a merge is invisible. Each is a definition
over `Visible`, and is settled for every state that some run reaches.

Merges keep their promise. Deletes and the two graph operations keep theirs in
the states described by an exact condition on the tables; a run that leads
outside of the condition follows each theorem.
-/

namespace PgRipple.Storage.Store

variable {st : Store}

/-- A delete of `q` removes `q` and no other quad, and returns a positive number
exactly if there was something to remove. -/
structure DeleteCorrect (st : Store) (q : Quad) (result : Int × Store) : Prop where
  gone : ¬ result.2.Visible q
  others : ∀ q', q' ≠ q → (result.2.Visible q' ↔ st.Visible q')
  count : 0 < result.1 ↔ st.Visible q

/-- Quads of other predicates never notice a delete. -/
theorem visible_deleteQuad_of_ne {session : Session} {q q' : Quad} (other : q'.p ≠ q.p) :
    (deleteQuad session q st).2.Visible q' ↔ st.Visible q' := by
  have rare : (deleteQuad session q st).2.rare.HasKey q' ↔ st.rare.HasKey q' := by
    rw [rare_deleteQuad]
    exact and_iff_left fun same => other (congrArg Quad.p same)
  exact onlyAt_deleteQuad.visible_iff other rare

/-- Before promotion a delete works on `vp_rare` alone and is correct. -/
theorem UnusedAt.deleteCorrect {session : Session} {q : Quad} (h : st.UnusedAt q.p) :
    DeleteCorrect st q (Store.deleteQuad session q st) := by
  have visible (q' : Quad) (same : q'.p = q.p) :
      (Store.deleteQuad session q st).2.Visible q' ↔ st.Visible q' ∧ q' ≠ q := by
    have before : st.isDedicated q'.p = false := same ▸ h.dedicated
    have after : (Store.deleteQuad session q st).2.isDedicated q'.p = false :=
      same ▸ h.deleteQuad.dedicated
    rw [Visible, Visible, rare_deleteQuad, before, after]
    simp
  refine ⟨?_, ?_, ?_⟩
  · rw [visible q rfl]
    simp
  · intro q' other
    by_cases same : q'.p = q.p
    · rw [visible q' same]
      exact and_iff_left other
    · exact visible_deleteQuad_of_ne same
  · rw [deleteQuad_pos_iff, Visible, h.dedicated]
    simp

/-- On a dedicated predicate, visibility is what the view shows. -/
theorem Layout.visible_iff_shows (h : st.Layout) {q : Quad} (hp : st.isDedicated q.p = true) :
    st.Visible q ↔ (st.tables q.p).Shows q.key := by
  have absent : ¬ st.rare.HasKey q := by
    intro hq
    have := h.rare q hq
    simp [hp] at this
  rw [Visible, hp]
  simp [absent]

section Dedicated

variable {session : Session} {q q' : Quad}

/-- Visibility before a delete, for quads of the same dedicated predicate. -/
theorem Inv.visible_iff (h : st.Inv) (hp : st.isDedicated q.p = true) (same : q'.p = q.p) :
    st.Visible q' ↔
      ((st.tables q.p).InMain q'.key ∧ ¬ (st.tables q.p).InTombstones q'.key) ∨
        (st.tables q.p).InDelta q'.key := by
  rw [h.toLayout.visible_iff_shows (same ▸ hp), same]
  exact HtapTables.shows_iff_of_clean (h.clean q.p)

/-- Visibility after a delete that found its triple in `delta`. -/
theorem Inv.visible_deleteQuad_of_inDelta (h : st.Inv) (hp : st.isDedicated q.p = true)
    (present : (st.tables q.p).InDelta q.key) (same : q'.p = q.p) :
    (Store.deleteQuad session q st).2.Visible q' ↔
      ((st.tables q.p).InMain q'.key ∧ ¬ (st.tables q.p).InTombstones q'.key) ∨
        ((st.tables q.p).InDelta q'.key ∧ q' ≠ q) := by
  have after : (Store.deleteQuad session q st).2.isDedicated q'.p = true :=
    same ▸ (h.toLayout.dedicatedAt hp).deleteQuad.dedicated
  have named : q'.key ≠ q.key ↔ q' ≠ q :=
    not_congr ⟨Quad.ext_key same, congrArg Quad.key⟩
  rw [h.toLayout.deleteQuad.visible_iff_shows after, same,
    shows_deleteQuad_of_inDelta hp present, named,
    HtapTables.mainVisible_iff_of_clean (h.clean q.p)]

/-- Visibility after a delete that wrote a tombstone. -/
theorem Inv.visible_deleteQuad_of_not_inDelta (h : st.Inv) (hp : st.isDedicated q.p = true)
    (absent : ¬ (st.tables q.p).InDelta q.key) (same : q'.p = q.p) :
    (Store.deleteQuad session q st).2.Visible q' ↔
      ((st.tables q.p).InMain q'.key ∧ ¬ (st.tables q.p).InTombstones q'.key ∧ q' ≠ q) ∨
        (st.tables q.p).InDelta q'.key := by
  have used := h.toLayout.dedicatedAt hp
  have after : (Store.deleteQuad session q st).2.isDedicated q'.p = true :=
    same ▸ used.deleteQuad.dedicated
  have named : q'.key ≠ q.key ↔ q' ≠ q :=
    not_congr ⟨Quad.ext_key same, congrArg Quad.key⟩
  rw [h.toLayout.deleteQuad.visible_iff_shows after, same, used.shows_deleteQuad absent, named]

/-- After promotion a delete is correct exactly if, for a triple in `main`, being in
`delta` and having a tombstone coincide. -/
theorem Inv.deleteCorrect_iff (h : st.Inv) (hp : st.isDedicated q.p = true) :
    DeleteCorrect st q (Store.deleteQuad session q st) ↔
      ((st.tables q.p).InMain q.key →
        ((st.tables q.p).InDelta q.key ↔ (st.tables q.p).InTombstones q.key)) := by
  have rare : ¬ st.rare.HasKey q := by
    intro hq
    have := h.rare q hq
    simp [hp] at this
  have count : 0 < (Store.deleteQuad session q st).1 ↔
      (st.tables q.p).InDelta q.key ∨ (st.tables q.p).InMain q.key := by
    rw [deleteQuad_pos_iff]
    simp [hp, rare]
  have before : st.Visible q ↔ _ := h.visible_iff hp rfl
  have elsewhere (q' : Quad) (other : q'.p ≠ q.p) :
      (Store.deleteQuad session q st).2.Visible q' ↔ st.Visible q' :=
    visible_deleteQuad_of_ne other
  by_cases present : (st.tables q.p).InDelta q.key
  · -- the delta branch: the row disappears, and `main` must not show the triple again
    have after (q' : Quad) (same : q'.p = q.p) :
        (Store.deleteQuad session q st).2.Visible q' ↔ _ :=
      h.visible_deleteQuad_of_inDelta hp present same
    constructor
    · intro correct inMain
      refine iff_of_true present ?_
      by_contra live
      exact correct.gone ((after q rfl).mpr (.inl ⟨inMain, live⟩))
    · intro cond
      refine ⟨?_, ?_, ?_⟩
      · rw [after q rfl]
        intro visible
        cases visible with
        | inl main => exact main.2 ((cond main.1).mp present)
        | inr delta => exact delta.2 rfl
      · intro q' other
        by_cases same : q'.p = q.p
        · rw [after q' same, h.visible_iff hp same, and_iff_left other]
        · exact elsewhere q' same
      · rw [count, before]
        exact iff_of_true (.inl present) (.inr present)
  · -- the tombstone branch: the count looks at `main` without its tombstones
    have after (q' : Quad) (same : q'.p = q.p) :
        (Store.deleteQuad session q st).2.Visible q' ↔ _ :=
      h.visible_deleteQuad_of_not_inDelta hp present same
    constructor
    · intro correct inMain
      refine iff_of_false present ?_
      have visible := before.mp (correct.count.mp (count.mpr (.inr inMain)))
      exact (visible.resolve_right present).2
    · intro cond
      refine ⟨?_, ?_, ?_⟩
      · rw [after q rfl]
        simp [present]
      · intro q' other
        by_cases same : q'.p = q.p
        · rw [after q' same, h.visible_iff hp same, and_iff_left other]
        · exact elsewhere q' same
      · rw [count, before, or_comm]
        refine or_congr ?_ Iff.rfl
        refine ⟨fun inMain => ⟨inMain, ?_⟩, And.left⟩
        exact fun tombstone => present ((cond inMain).mpr tombstone)

end Dedicated

/-- In every state that inserts, deletes, promotions and merges can reach, the two
delete functions keep their promise for exactly those quads whose main row, if
there is one, is in `delta` and tombstoned or neither. -/
theorem deleteTriple_correct_iff (h : Reachable Op.NotGraph st) (session : Session) (q : Quad) :
    (DeleteCorrect st q (deleteTriple session q st) ↔
      ((st.tables q.p).InMain q.key →
        ((st.tables q.p).InDelta q.key ↔ (st.tables q.p).InTombstones q.key))) ∧
    (DeleteCorrect st q (deleteTripleByIds session q st) ↔
      ((st.tables q.p).InMain q.key →
        ((st.tables q.p).InDelta q.key ↔ (st.tables q.p).InTombstones q.key))) := by
  have inv : st.Inv := (h.mono fun _ => Op.NotGraph.notDrop).inv
  have both : DeleteCorrect st q (deleteQuad session q st) ↔
      ((st.tables q.p).InMain q.key →
        ((st.tables q.p).InDelta q.key ↔ (st.tables q.p).InTombstones q.key)) := by
    cases inv.predicate q.p with
    | inl used => exact inv.deleteCorrect_iff used.dedicated
    | inr unused =>
        refine iff_of_true unused.deleteCorrect ?_
        rw [unused.tables]
        intro inMain
        exact absurd inMain (HtapTables.not_inMain_fresh _)
  exact ⟨both, both⟩

/-- A run that ends with the triple in `main` only: insert, promote, merge. -/
def mergedOnce (q : Quad) : List Op :=
  [.insertEncodedTriple 0 q, .promotePredicate q.p, .mergePredicate ⟨10000, false, 0⟩ q.p]

/-- The merged triple can be deleted. -/
theorem deleteTriple_correct_mergedOnce :
    DeleteCorrect (run (mergedOnce ⟨1, 2, 3, 0⟩) initial) ⟨1, 2, 3, 0⟩
      (deleteTriple 0 ⟨1, 2, 3, 0⟩ (run (mergedOnce ⟨1, 2, 3, 0⟩) initial)) := by
  have reachable : Reachable Op.NotGraph (run (mergedOnce ⟨1, 2, 3, 0⟩) initial) :=
    ⟨mergedOnce ⟨1, 2, 3, 0⟩, by simp [mergedOnce, Op.NotGraph], rfl⟩
  exact (deleteTriple_correct_iff reachable 0 ⟨1, 2, 3, 0⟩).1.mpr (by decide)

/-- Inserted again after the merge, the triple is in both tables; the delete removes
it from `delta` and the row in `main` stays visible. -/
theorem not_deleteTriple_correct :
    ¬ ∀ (st : Store), Reachable Op.NotGraph st → ∀ (session : Session) (q : Quad),
      DeleteCorrect st q (deleteTriple session q st) ∧
        DeleteCorrect st q (deleteTripleByIds session q st) := by
  intro promised
  have reachable : Reachable Op.NotGraph
      (run (mergedOnce ⟨1, 2, 3, 0⟩ ++ [.insertEncodedTriple 0 ⟨1, 2, 3, 0⟩]) initial) :=
    ⟨_, by simp [mergedOnce, Op.NotGraph], rfl⟩
  exact (promised _ reachable 0 ⟨1, 2, 3, 0⟩).1.gone (by decide)

/-- Emptying graph `g` removes its quads and no others. -/
structure GraphEmptied (g : TermId) (st st' : Store) : Prop where
  gone : ∀ q : Quad, q.g = g → ¬ st'.Visible q
  others : ∀ q : Quad, q.g ≠ g → (st'.Visible q ↔ st.Visible q)

/-- The same for the tables of one predicate. -/
structure TablesEmptied (g : TermId) (t t' : HtapTables) : Prop where
  gone : ∀ k : Key, k.g = g → ¬ t'.Shows k
  others : ∀ k : Key, k.g ≠ g → (t'.Shows k ↔ t.Shows k)

/-- A graph operation that removes the graph's rows from `vp_rare` is correct exactly
if it is correct on every dedicated predicate. -/
theorem Layout.graphEmptied_iff (h : st.Layout) {g : TermId} {st' : Store}
    (visible : ∀ q : Quad, st'.Visible q ↔
      (st.isDedicated q.p = true ∧ (st'.tables q.p).Shows q.key) ∨ (st.rare.HasKey q ∧ q.g ≠ g)) :
    GraphEmptied g st st' ↔
      ∀ p, st.isDedicated p = true → TablesEmptied g (st.tables p) (st'.tables p) := by
  constructor
  · intro emptied p hp
    have shows (k : Key) (hg : k.g ≠ g) :
        (st'.tables p).Shows k ↔ (st.tables p).Shows k := by
      have same := emptied.others (k.quad p) hg
      have rare : ¬ st.rare.HasKey (k.quad p) := by
        intro hq
        have := h.rare _ hq
        simp [hp] at this
      rw [visible, h.visible_iff_shows hp] at same
      simpa [hp, rare] using same
    refine ⟨?_, shows⟩
    intro k hg shown
    exact emptied.gone (k.quad p) hg ((visible _).mpr (.inl ⟨hp, shown⟩))
  · intro emptied
    refine ⟨?_, ?_⟩
    · intro q hg shown
      cases (visible q).mp shown with
      | inl table => exact (emptied q.p table.1).gone q.key hg table.2
      | inr rare => exact rare.2 hg
    · intro q hg
      rw [visible q, Visible]
      refine or_congr (and_congr_right fun hp => ?_) (and_iff_left hg)
      exact (emptied q.p hp).others q.key hg

/-- What the view shows after a graph's rows were removed. -/
theorem GraphRemoved.shows_iff {g : TermId} {t t' : HtapTables} (h : GraphRemoved g t t')
    (k : Key) :
    t'.Shows k ↔
      (t.InMain k ∧ (t'.view = .tombstoneAware → ¬ t.InTombstones k ∧ k.g ≠ g)) ∨
        (t.InDelta k ∧ k.g ≠ g) := by
  have inMain : t'.InMain k ↔ t.InMain k := by
    unfold HtapTables.InMain
    rw [h.main]
  rw [HtapTables.shows_iff, HtapTables.MainVisible, inMain, h.inDelta, h.inTombstones]
  refine or_congr (and_congr_right fun present => ?_) Iff.rfl
  simp [present, not_or]

/-- If the view form stays, the graph is emptied unless main rows of the graph are
read through the skip form. -/
theorem GraphRemoved.tablesEmptied_iff_of_view {g : TermId} {t t' : HtapTables}
    (h : GraphRemoved g t t') (view : t'.view = t.view) :
    TablesEmptied g t t' ↔ (t.view = .tombstoneSkip → ∀ k, t.InMain k → k.g ≠ g) := by
  constructor
  · intro emptied skip k inMain hg
    refine emptied.gone k hg ((h.shows_iff k).mpr (.inl ⟨inMain, ?_⟩))
    intro aware
    rw [view, skip] at aware
    cases aware
  · intro cond
    refine ⟨?_, ?_⟩
    · intro k hg shown
      cases (h.shows_iff k).mp shown with
      | inl main =>
        cases form : t.view with
        | tombstoneAware => exact (main.2 (view.trans form)).2 hg
        | tombstoneSkip => exact cond form k main.1 hg
      | inr delta => exact delta.2 hg
    · intro k hg
      rw [h.shows_iff, HtapTables.shows_iff, view, HtapTables.MainVisible]
      simp [hg]

/-- If the view is made tombstone-aware, the graph is emptied unless that brings
older, so far ignored tombstones of other graphs into force. -/
theorem GraphRemoved.tablesEmptied_iff_of_aware {g : TermId} {t t' : HtapTables}
    (h : GraphRemoved g t t') (aware : t'.view = .tombstoneAware) :
    TablesEmptied g t t' ↔
      (t.view = .tombstoneSkip → ∀ k, k.g ≠ g → t.InMain k → t.InTombstones k → t.InDelta k) := by
  constructor
  · intro emptied skip k hg inMain tombstone
    have shown : t.Shows k := by
      rw [HtapTables.shows_iff, HtapTables.MainVisible, skip]
      simp [inMain]
    have shown' := (h.shows_iff k).mp ((emptied.others k hg).mpr shown)
    cases shown' with
    | inl main => exact absurd tombstone (main.2 aware).1
    | inr delta => exact delta.1
  · intro cond
    refine ⟨?_, ?_⟩
    · intro k hg shown
      cases (h.shows_iff k).mp shown with
      | inl main => exact (main.2 aware).2 hg
      | inr delta => exact delta.2 hg
    · intro k hg
      rw [h.shows_iff, HtapTables.shows_iff, HtapTables.MainVisible, aware]
      cases form : t.view with
      | tombstoneAware => simp [hg]
      | tombstoneSkip =>
        have settled := cond form k hg
        simp only [hg, ne_eq, not_false_eq_true, and_true, forall_const, reduceCtorEq,
          IsEmpty.forall_iff]
        constructor
        · intro shown
          exact shown.imp And.left id
        · intro shown
          by_cases tombstone : t.InTombstones k
          · cases shown with
            | inl inMain => exact .inr (settled inMain tombstone)
            | inr delta => exact .inr delta
          · exact shown.imp (fun inMain => ⟨inMain, tombstone⟩) id

/-- In every reachable state, `drop_graph` empties its graph exactly if no dedicated
predicate in skip form has main rows of the graph, and `clear_graph_by_id` exactly
if it wakes no tombstone of another graph. -/
theorem graph_emptied_iff {allowed : Op → Prop} (h : Reachable allowed st) (session : Session)
    (g : TermId) :
    (GraphEmptied g st (dropGraph session g st).2 ↔
      ∀ p, st.isDedicated p = true → (st.tables p).view = .tombstoneSkip →
        ∀ k, (st.tables p).InMain k → k.g ≠ g) ∧
    (GraphEmptied g st (clearGraphById session g st).2 ↔
      ∀ p, st.isDedicated p = true → (st.tables p).view = .tombstoneSkip →
        (∃ k, (st.tables p).InMain k ∧ k.g = g) →
          ∀ k, k.g ≠ g → (st.tables p).InMain k → (st.tables p).InTombstones k →
            (st.tables p).InDelta k) := by
  have layout := h.layout
  constructor
  · rw [layout.graphEmptied_iff layout.visible_dropGraph]
    refine forall₂_congr fun p hp => ?_
    obtain ⟨removed, view⟩ := layout.dropGraph_effect session g hp
    exact removed.tablesEmptied_iff_of_view view
  · rw [layout.graphEmptied_iff layout.visible_clearGraphById]
    refine forall₂_congr fun p hp => ?_
    obtain ⟨removed, view⟩ := layout.clearGraphById_effect session g hp
    split at view
    · rename_i none
      have noRow : ¬ ∃ k, (st.tables p).InMain k ∧ k.g = g := by
        intro ⟨k, hk⟩
        have := mem_graphKeys.mpr hk
        simp [none] at this
      rw [removed.tablesEmptied_iff_of_view view]
      refine iff_of_true ?_ fun _ row => absurd row noRow
      exact fun _ k inMain hg => noRow ⟨k, inMain, hg⟩
    · rename_i some
      obtain ⟨k, hk⟩ := List.exists_mem_of_ne_nil _ some
      have row : ∃ k, (st.tables p).InMain k ∧ k.g = g := ⟨k, mem_graphKeys.mp hk⟩
      rw [removed.tablesEmptied_iff_of_aware view]
      exact ⟨fun cond skip _ => cond skip, fun cond skip => cond skip row⟩

/-- Directly after a merge the graph of the merged triple can be cleared. -/
theorem clearGraphById_emptied_mergedOnce :
    GraphEmptied 7 (run (mergedOnce ⟨1, 2, 3, 7⟩) initial)
      (clearGraphById 0 7 (run (mergedOnce ⟨1, 2, 3, 7⟩) initial)).2 := by
  have reachable : Reachable Op.NotDrop (run (mergedOnce ⟨1, 2, 3, 7⟩) initial) :=
    ⟨_, by simp [mergedOnce, Op.NotDrop], rfl⟩
  refine (graph_emptied_iff reachable 0 7).2.mpr ?_
  intro p _ skip _ k _ _ tombstone
  have clean := HtapTables.tombstones_eq_nil_iff.mp (reachable.inv.clean p skip)
  exact absurd tombstone (clean k)

/-- But it cannot be dropped: the tombstones go unnoticed by the skip form. -/
theorem not_graph_emptied :
    ¬ ∀ (st : Store), Reachable (fun _ => True) st → ∀ (session : Session) (g : TermId),
      GraphEmptied g st (dropGraph session g st).2 ∧
        GraphEmptied g st (clearGraphById session g st).2 := by
  intro promised
  have reachable : Reachable (fun _ => True) (run (mergedOnce ⟨1, 2, 3, 7⟩) initial) :=
    ⟨_, fun _ _ => trivial, rfl⟩
  exact (promised _ reachable 0 7).1.gone ⟨1, 2, 3, 7⟩ rfl (by decide)

/-- In every state reachable without `drop_graph`, a merge changes neither the
triples that the view shows nor the statement ids it shows them under, and leaves
`delta` and the tombstones empty. -/
theorem mergePredicate_invisible (h : Reachable Op.NotDrop st) (cfg : Config) (p : TermId) :
    (∀ k, ((mergePredicate cfg p st).2.tables p).Shows k ↔ (st.tables p).Shows k) ∧
      (∀ k i, ((mergePredicate cfg p st).2.tables p).ShowsAs k i ↔ (st.tables p).ShowsAs k i) ∧
      ((mergePredicate cfg p st).2.tables p).delta.rows = [] ∧
      ((mergePredicate cfg p st).2.tables p).tombstones = [] := by
  have inv := h.inv
  cases inv.predicate p with
  | inl used =>
      rw [used.tables_mergePredicate]
      exact ⟨fun _ => HtapTables.shows_merged (inv.clean p),
        fun _ _ => HtapTables.showsAs_merged (inv.clean p), rfl, rfl⟩
  | inr unused =>
      rw [unused.mergePredicate_eq, unused.tables]
      exact ⟨fun _ => Iff.rfl, fun _ _ => Iff.rfl, rfl, rfl⟩

/-- A merge over a main row, its tombstone and a newer insert of the same triple. -/
theorem mergePredicate_invisible_reinserted :
    ((mergePredicate ⟨10000, true, 3600⟩ 2
      (run (mergedOnce ⟨1, 2, 3, 0⟩ ++ [.deleteTriple 1 ⟨1, 2, 3, 0⟩,
        .insertEncodedTriple 1 ⟨1, 2, 3, 0⟩]) initial)).2.tables 2).tombstones = [] := by
  have reachable : Reachable Op.NotDrop
      (run (mergedOnce ⟨1, 2, 3, 0⟩ ++ [.deleteTriple 1 ⟨1, 2, 3, 0⟩,
        .insertEncodedTriple 1 ⟨1, 2, 3, 0⟩]) initial) :=
    ⟨_, by simp [mergedOnce, Op.NotDrop], rfl⟩
  exact (mergePredicate_invisible reachable ⟨10000, true, 3600⟩ 2).2.2.2

end PgRipple.Storage.Store
