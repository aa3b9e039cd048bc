import Mathlib.Algebra.Order.BigOperators.Group.List
import Mathlib.Algebra.Order.Group.Nat
import PgRipple.Lib.Paging
import PgRipple.Storage.Reachable
import PgRipple.Storage.RowIds

/-!
# Export in batches

`for_each_encoded_triple_batch` reads the view of every dedicated predicate and then
`vp_rare`, each page by page in the order of the statement id, and hands each page that is
not empty to a callback. What the callback receives is the result here, as a list of batches.

The store holds still while it is exported. The loops are given fuel; the result says that
enough fuel exists and that more of it makes no difference.
-/

namespace PgRipple.Storage.Store

/-- A relation may be restricted to one graph: `g = gid`. -/
def inGraph (graph : Option TermId) (g : TermId) : Bool := graph.all (· = g)

/-- The columns of a view row. All are `NOT NULL`, so that no row is dropped. -/
def readRow (p : TermId) (r : Row) : Option (Quad × Int) := some (r.key.quad p, r.i)

/-- The columns of a row of `vp_rare`, which are `NOT NULL` as well. -/
def readRareRow (r : RareRow) : Option (Quad × Int) := some (r.quad, r.i)

/-- The rows of a view that the graph filter admits. -/
def viewRows (st : Store) (graph : Option TermId) (p : TermId) : List Row :=
  (st.tables p).htapView.filter fun r => inGraph graph r.key.g

/-- The rows of `vp_rare` that the graph filter admits. -/
def rareRows (st : Store) (graph : Option TermId) : List RareRow :=
  st.rare.rows.filter fun r => inGraph graph r.quad.g

/-- The pages of `vp_{p}`. -/
def viewBatches (batchSize : Nat) (graph : Option TermId) (st : Store) (fuel : Nat) (p : TermId) :
    Option (List (List Quad)) :=
  Paging.loop Row.i (readRow p) batchSize (st.viewRows graph p) fuel none

/-- The pages of `vp_rare`. -/
def rareBatches (batchSize : Nat) (graph : Option TermId) (st : Store) (fuel : Nat) :
    Option (List (List Quad)) :=
  Paging.loop RareRow.i readRareRow batchSize (st.rareRows graph) fuel none

/-- One view after the other. -/
def allViewBatches (batchSize : Nat) (graph : Option TermId) (st : Store) (fuel : Nat) :
    List TermId → Option (List (List Quad))
  | [] => some []
  | p :: ps =>
      (viewBatches batchSize graph st fuel p).bind fun batches =>
        (allViewBatches batchSize graph st fuel ps).map (batches ++ ·)

/-- `for_each_encoded_triple_batch`: the batches in the order of the callback's calls. -/
def forEachEncodedTripleBatch (batchSize : Nat) (graph : Option TermId) (st : Store) (fuel : Nat) :
    Option (List (List Quad)) :=
  (allViewBatches batchSize graph st fuel st.dedicatedPredicates).bind fun dedicated =>
    (rareBatches batchSize graph st fuel).map (dedicated ++ ·)

/-- In how many relations that hold it a quad passes the filter. -/
def storingRelations (graph : Option TermId) (st : Store) (q : Quad) : Nat :=
  if inGraph graph q.g then
    (if st.isDedicated q.p = true ∧ (st.tables q.p).Shows q.key then 1 else 0) +
      (if st.rare.HasKey q then 1 else 0)
  else 0

/-- Statement ids do not repeat within a view or within `vp_rare`. -/
structure UniqueIds (st : Store) : Prop where
  view : ∀ p ∈ st.dedicatedPredicates, ((st.tables p).htapView.map Row.i).Nodup
  rare : (st.rare.rows.map RareRow.i).Nodup

/-- A predicate that was promoted with two triples, and one triple in `vp_rare`. -/
def exportedStore : Store :=
  let cfg : Config := ⟨2, true, 0⟩
  run [.insertTriple cfg 0 ⟨1, 10, 2, 0⟩, .insertTriple cfg 0 ⟨3, 10, 4, 0⟩,
    .insertTriple cfg 0 ⟨5, 11, 6, 0⟩] initial

section Export

variable {st : Store} {graph : Option TermId} {batchSize : Nat}

/-- The quads of the views, one view after the other. -/
def viewQuads (graph : Option TermId) (st : Store) (ps : List TermId) : List Quad :=
  ps.flatMap fun p => (st.viewRows graph p).map fun r => r.key.quad p

@[simp] theorem mem_viewQuads {ps : List TermId} {q : Quad} :
    q ∈ viewQuads graph st ps ↔
      q.p ∈ ps ∧ inGraph graph q.g = true ∧ (st.tables q.p).Shows q.key := by
  simp only [viewQuads, List.mem_flatMap, List.mem_map, viewRows, List.mem_filter]
  constructor
  · rintro ⟨p, hp, r, ⟨hr, admitted⟩, rfl⟩
    exact ⟨hp, admitted, List.mem_map_of_mem hr⟩
  · rintro ⟨hp, admitted, shown⟩
    obtain ⟨r, hr, same⟩ := List.mem_map.mp shown
    refine ⟨q.p, hp, r, ⟨hr, ?_⟩, ?_⟩
    · rw [same]
      exact admitted
    · rw [same, Quad.key_quad]

theorem nodup_viewQuads (st : Store) (graph : Option TermId) {ps : List TermId}
    (distinct : ps.Nodup) :
    (viewQuads graph st ps).Nodup := by
  rw [viewQuads, List.nodup_flatMap]
  constructor
  · intro p _
    have keys : ((st.viewRows graph p).map Row.key).Nodup :=
      (DistinctOn.nodup_map_key_distinctOn _).sublist (List.filter_sublist.map Row.key)
    have shape : (st.viewRows graph p).map (fun r => r.key.quad p) =
        ((st.viewRows graph p).map Row.key).map (Key.quad · p) := by
      rw [List.map_map]
      rfl
    rw [shape]
    apply keys.map
    intro k k' same
    exact congrArg Quad.key same
  · apply distinct.imp
    intro p p' differ q hq hq'
    obtain ⟨r, -, rfl⟩ := List.mem_map.mp hq
    obtain ⟨r', -, same⟩ := List.mem_map.mp hq'
    exact differ (congrArg Quad.p same).symm

theorem nodup_rareQuads (st : Store) (graph : Option TermId) :
    ((st.rareRows graph).map RareRow.quad).Nodup :=
  st.rare.unique.sublist (List.filter_sublist.map RareRow.quad)

theorem mem_rareQuads {q : Quad} :
    q ∈ (st.rareRows graph).map RareRow.quad ↔
      inGraph graph q.g = true ∧ st.rare.HasKey q := by
  simp only [rareRows, UniqueTable.HasKey, List.mem_map, List.mem_filter]
  constructor
  · rintro ⟨r, ⟨hr, admitted⟩, rfl⟩
    exact ⟨admitted, r, hr, rfl⟩
  · rintro ⟨admitted, r, hr, rfl⟩
    exact ⟨r, ⟨hr, admitted⟩, rfl⟩

/-- The promise about batches of one or several relations. -/
def Holds (batchSize : Nat) (quads : List Quad) (batches : List (List Quad)) : Prop :=
  batches.flatten.Perm quads ∧ ∀ batch ∈ batches, batch ≠ [] ∧ batch.length ≤ batchSize

theorem Holds.append {quads quads' : List Quad} {batches batches' : List (List Quad)}
    (first : Holds batchSize quads batches) (second : Holds batchSize quads' batches') :
    Holds batchSize (quads ++ quads') (batches ++ batches') := by
  refine ⟨?_, ?_⟩
  · rw [List.flatten_append]
    exact first.1.append second.1
  · intro batch hb
    obtain hb | hb := List.mem_append.mp hb
    · exact first.2 batch hb
    · exact second.2 batch hb

theorem viewBatches_complete (graph : Option TermId) {p : TermId} {fuel : Nat}
    (positive : 0 < batchSize)
    (unique : ((st.tables p).htapView.map Row.i).Nodup)
    (enough : (st.viewRows graph p).length < fuel) :
    ∃ batches, viewBatches batchSize graph st fuel p = some batches ∧
      Holds batchSize ((st.viewRows graph p).map fun r => r.key.quad p) batches := by
  have ids : ((st.viewRows graph p).map Row.i).Nodup :=
    unique.sublist (List.filter_sublist.map Row.i)
  exact Paging.loop_complete (fun r _ => rfl) positive ids enough

theorem rareBatches_complete (graph : Option TermId) {fuel : Nat} (positive : 0 < batchSize)
    (unique : (st.rare.rows.map RareRow.i).Nodup) (enough : (st.rareRows graph).length < fuel) :
    ∃ batches, rareBatches batchSize graph st fuel = some batches ∧
      Holds batchSize ((st.rareRows graph).map RareRow.quad) batches := by
  have ids : ((st.rareRows graph).map RareRow.i).Nodup :=
    unique.sublist (List.filter_sublist.map RareRow.i)
  exact Paging.loop_complete (fun r _ => rfl) positive ids enough

theorem allViewBatches_complete {fuel : Nat} (positive : 0 < batchSize) {ps : List TermId}
    (unique : ∀ p ∈ ps, ((st.tables p).htapView.map Row.i).Nodup)
    (enough : ∀ p ∈ ps, (st.viewRows graph p).length < fuel) :
    ∃ batches, allViewBatches batchSize graph st fuel ps = some batches ∧
      Holds batchSize (viewQuads graph st ps) batches := by
  induction ps with
  | nil =>
    refine ⟨[], rfl, List.Perm.nil, ?_⟩
    intro batch hb
    cases hb
  | cons p ps ih =>
    obtain ⟨first, read, held⟩ := viewBatches_complete graph positive
      (unique p List.mem_cons_self) (enough p List.mem_cons_self)
    obtain ⟨rest, reads, holds⟩ := ih (fun p' hp' => unique p' (List.mem_cons_of_mem p hp'))
      fun p' hp' => enough p' (List.mem_cons_of_mem p hp')
    refine ⟨first ++ rest, ?_, ?_⟩
    · rw [allViewBatches, read, Option.bind_some, reads]
      rfl
    · rw [viewQuads, List.flatMap_cons]
      exact held.append holds

theorem allViewBatches_mono {fuel more : Nat} (le : fuel ≤ more) {ps : List TermId}
    {batches : List (List Quad)}
    (result : allViewBatches batchSize graph st fuel ps = some batches) :
    allViewBatches batchSize graph st more ps = some batches := by
  induction ps generalizing batches with
  | nil => exact result
  | cons p ps ih =>
    obtain ⟨first, read, rest⟩ := Option.bind_eq_some_iff.mp result
    obtain ⟨others, reads, rfl⟩ := Option.map_eq_some_iff.mp rest
    have again : viewBatches batchSize graph st more p = some first := Paging.loop_mono le read
    rw [allViewBatches, again, Option.bind_some, ih reads]
    rfl

theorem forEachEncodedTripleBatch_mono {fuel more : Nat} (le : fuel ≤ more)
    {batches : List (List Quad)}
    (result : forEachEncodedTripleBatch batchSize graph st fuel = some batches) :
    forEachEncodedTripleBatch batchSize graph st more = some batches := by
  obtain ⟨first, reads, rest⟩ := Option.bind_eq_some_iff.mp result
  obtain ⟨others, read, rfl⟩ := Option.map_eq_some_iff.mp rest
  have again : rareBatches batchSize graph st more = some others := Paging.loop_mono le read
  rw [forEachEncodedTripleBatch, allViewBatches_mono le reads, Option.bind_some, again]
  rfl

/-- A bound on the pages of every relation. -/
def exportFuel (graph : Option TermId) (st : Store) : Nat :=
  (st.dedicatedPredicates.map fun p => (st.viewRows graph p).length).sum +
    (st.rareRows graph).length + 1

theorem count_of_holds {batches : List (List Quad)} (q : Quad)
    (holds : Holds batchSize
      (viewQuads graph st st.dedicatedPredicates ++ (st.rareRows graph).map RareRow.quad)
      batches) : batches.flatten.count q = storingRelations graph st q := by
  have views := (nodup_viewQuads st graph st.nodup_dedicatedPredicates).count (a := q)
  have rare := (nodup_rareQuads st graph).count (a := q)
  rw [holds.1.count_eq, List.count_append, views, rare, storingRelations]
  simp only [mem_viewQuads, mem_rareQuads, mem_dedicatedPredicates]
  by_cases admitted : inGraph graph q.g = true
  · simp [admitted]
  · simp [admitted]

/-- With fuel for every relation, the export reads all of them. -/
theorem exists_batches (st : Store) (graph : Option TermId) (positive : 1 ≤ batchSize)
    (unique : st.UniqueIds) :
    ∃ batches, forEachEncodedTripleBatch batchSize graph st (exportFuel graph st) = some batches ∧
      Holds batchSize
        (viewQuads graph st st.dedicatedPredicates ++ (st.rareRows graph).map RareRow.quad)
        batches := by
  have views : ∀ p ∈ st.dedicatedPredicates,
      (st.viewRows graph p).length < exportFuel graph st := by
    intro p hp
    have part : (st.viewRows graph p).length ≤
        (st.dedicatedPredicates.map fun p => (st.viewRows graph p).length).sum :=
      List.le_sum_of_mem
        (List.mem_map_of_mem (f := fun p => (st.viewRows graph p).length) hp)
    unfold exportFuel
    omega
  have rare : (st.rareRows graph).length < exportFuel graph st := by
    unfold exportFuel
    omega
  obtain ⟨first, reads, held⟩ := allViewBatches_complete positive unique.view views
  obtain ⟨rest, read, holds⟩ := rareBatches_complete graph positive unique.rare rare
  refine ⟨first ++ rest, ?_, held.append holds⟩
  rw [forEachEncodedTripleBatch, reads, Option.bind_some, read]
  rfl

/-- The export ends, its batches are not larger than asked for, and they hold every visible
quad of the filter once for each relation that stores it. -/
theorem forEachEncodedTripleBatch_exact (st : Store) (graph : Option TermId) (batchSize : Nat)
    (positive : 1 ≤ batchSize) (unique : st.UniqueIds) :
    ∃ batches,
      (∃ enough, ∀ fuel, enough ≤ fuel →
        forEachEncodedTripleBatch batchSize graph st fuel = some batches) ∧
      (∀ batch ∈ batches, batch ≠ [] ∧ batch.length ≤ batchSize) ∧
      ∀ q, batches.flatten.count q = storingRelations graph st q := by
  obtain ⟨batches, exported, complete⟩ := exists_batches st graph positive unique
  refine ⟨batches, ⟨exportFuel graph st, ?_⟩, complete.2, ?_⟩
  · intro fuel enough
    exact forEachEncodedTripleBatch_mono enough exported
  · intro q
    exact count_of_holds q complete

/-- Ids that name quads do not repeat. -/
theorem Owned.uniqueIds (h : st.Owned) : st.UniqueIds where
  view p _ := by
    have keys : ((st.tables p).htapView.map Row.key).Nodup :=
      DistinctOn.nodup_map_key_distinctOn _
    have carried (r : Row) (hr : r ∈ (st.tables p).htapView) : st.Carries (r.key.quad p) r.i := by
      obtain main | delta := List.mem_append.mp (DistinctOn.mem_of_mem_distinctOn hr)
      · refine .inr (.inr ⟨r, ?_, rfl, rfl⟩)
        revert main
        rw [HtapTables.viewMain]
        split
        · exact List.mem_of_mem_filter
        · exact id
      · exact .inl (deltaId_eq_some_iff.mpr ⟨r, delta, rfl, rfl⟩)
    refine List.Nodup.map_on ?_ (List.Nodup.of_map _ keys)
    intro r hr r' hr' same
    have quads := h.unique _ _ _ (carried r hr) (same ▸ carried r' hr')
    exact List.inj_on_of_nodup_map keys hr hr' (congrArg Quad.key quads)
  rare := by
    have carried (r : RareRow) (hr : r ∈ st.rare.rows) : st.Carries r.quad r.i :=
      .inr (.inl (rareId_eq_some_iff.mpr ⟨r, hr, rfl, rfl⟩))
    refine List.Nodup.map_on ?_ (List.Nodup.of_map _ st.rare.unique)
    intro r hr r' hr' same
    have quads := h.unique _ _ _ (carried r hr) (same ▸ carried r' hr')
    exact List.inj_on_of_nodup_map st.rare.unique hr hr' quads

/-- They do not in any store that the operations reach. -/
theorem Reachable.uniqueIds {allowed : Op → Prop} (h : Reachable allowed st) : st.UniqueIds := by
  obtain ⟨ops, -, rfl⟩ := h
  have kept : (run ops initial).Layout ∧ (run ops initial).Owned := by
    refine List.foldlRecOn (motive := fun st => Layout st ∧ Owned st) ops _
      ⟨layout_initial, owned_initial⟩ fun st good op _ => ?_
    exact ⟨good.1.apply op, good.2.apply good.1 op⟩
  exact kept.2.uniqueIds

/-- Two pages of a promoted predicate and one of `vp_rare`. -/
theorem forEachEncodedTripleBatch_exact_promoted :
    ∃ batches,
      (∃ enough, ∀ fuel, enough ≤ fuel →
        forEachEncodedTripleBatch 1 none exportedStore fuel = some batches) ∧
      (∀ batch ∈ batches, batch ≠ [] ∧ batch.length ≤ 1) ∧
      ∀ q, batches.flatten.count q = storingRelations none exportedStore q :=
  forEachEncodedTripleBatch_exact exportedStore none 1 (by decide)
    ⟨by decide, by decide⟩

end Export

end PgRipple.Storage.Store
