import PgRipple.Storage.Placement
import PgRipple.Datalog.Seminaive

/-!
# Materialisation

Derived triples are inserted into `vp_rare`, whatever the layout of their predicate,
and counted in the catalog. Here is what that changes: the visible triples, the
catalog row of the predicate, and nothing about its tables.
-/

namespace PgRipple.Datalog

open Storage

variable {st : Store} {session : Session} {found : List Quad} {acc : Int × Store} {p : TermId}

/-- Counting triples of a predicate kept in `vp_rare` does not move it. -/
theorem isDedicated_upsertRarePredicate {p' : TermId} {n : Int} :
    (st.upsertRarePredicate p n).isDedicated p' = st.isDedicated p' := by
  simp only [Store.isDedicated, Store.upsertRarePredicate, UniqueTable.find?_upsert]
  split
  · cases st.predicates.find? p' <;> rfl
  · rfl

theorem DedicatedAt.upsertRarePredicate {n : Int} (h : st.DedicatedAt p) :
    (st.upsertRarePredicate p n).DedicatedAt p := by
  obtain ⟨r, row, dedicated, htap⟩ := h.exists_row
  have row' : (st.upsertRarePredicate p n).predicates.find? p =
      some { r with tripleCount := r.tripleCount + n } := by
    simp [Store.upsertRarePredicate, UniqueTable.find?_upsert, row]
  refine .of_row row' dedicated htap ?_ h.tombstones_le
  intro view
  simpa [Store.tombstoneCount, row] using h.skip view

/-- `INSERT INTO _pg_ripple.vp_rare … ON CONFLICT DO NOTHING`. -/
def insertFound (session : Session) (quads : List Quad) (st : Store) : Store :=
  let (stamped, seq) := st.seq.stamp session quads
  { st with seq := seq, rare := st.rare.insertAll (stamped.map fun (q, i) => ⟨q, i, 0⟩) }

/-- A predicate is counted in the catalog if it has new rows. -/
theorem materialisePred_eq :
    (materialisePred session found acc p).2 =
      let quads := found.filter fun q => q.p = p
      let cnt : Int := (quads.filter fun q => ¬ acc.2.rare.HasKey q).length
      if 0 < cnt then (insertFound session quads acc.2).upsertRarePredicate p cnt
      else insertFound session quads acc.2 := rfl

theorem onlyAt_insertFound {quads : List Quad} :
    Store.OnlyAt p st (insertFound session quads st) :=
  .of_eq p rfl rfl Sequence.lastValue_le_stamp

theorem rare_insertFound {quads : List Quad} {q : Quad} :
    (insertFound session quads st).rare.HasKey q ↔ st.rare.HasKey q ∨ q ∈ quads := by
  have drawn : (st.seq.stamp session quads).1.map (fun x => x.1) = quads := Sequence.map_fst_stamp
  simp only [insertFound, UniqueTable.hasKey_insertAll, List.map_map, Function.comp_def, drawn]

theorem onlyAt_materialisePred :
    Store.OnlyAt p acc.2 (materialisePred session found acc p).2 := by
  rw [materialisePred_eq]
  dsimp only
  split
  · exact onlyAt_insertFound.trans Store.onlyAt_upsertRarePredicate
  · exact onlyAt_insertFound

@[simp] theorem tables_materialisePred :
    (materialisePred session found acc p).2.tables = acc.2.tables := by
  rw [materialisePred_eq]
  dsimp only
  split <;> rfl

theorem isDedicated_materialisePred {p' : TermId} :
    (materialisePred session found acc p).2.isDedicated p' = acc.2.isDedicated p' := by
  rw [materialisePred_eq]
  dsimp only
  split
  · exact isDedicated_upsertRarePredicate
  · rfl

theorem materialisePred_rare : (materialisePred session found acc p).2.rare =
    (insertFound session (found.filter fun q => q.p = p) acc.2).rare := by
  rw [materialisePred_eq]
  dsimp only
  split <;> rfl

theorem rare_materialisePred {q : Quad} :
    (materialisePred session found acc p).2.rare.HasKey q ↔
      acc.2.rare.HasKey q ∨ (q ∈ found ∧ q.p = p) := by
  rw [materialisePred_rare, rare_insertFound, List.mem_filter, decide_eq_true_eq]

/-- A predicate gets a catalog row with its first row in `vp_rare`. -/
theorem tableOid_materialisePred {q : Quad} (new : q ∈ found) (same : q.p = p)
    (absent : ¬ acc.2.rare.HasKey q) :
    (materialisePred session found acc p).2.tableOid p ≠ none := by
  have counted : (0 : Int) <
      ((found.filter fun q => q.p = p).filter fun q => ¬ acc.2.rare.HasKey q).length := by
    have member : q ∈ (found.filter fun q => q.p = p).filter fun q => ¬ acc.2.rare.HasKey q := by
      simp [List.mem_filter, new, same, absent]
    exact_mod_cast List.length_pos_of_mem member
  rw [materialisePred_eq]
  dsimp only
  rw [if_pos counted, Store.tableOid_upsertRarePredicate, if_pos rfl]
  exact Option.some_ne_none _

theorem visible_of_rare {st st' : Store} {q : Quad}
    (dedicated : st'.isDedicated q.p = st.isDedicated q.p)
    (tables : st'.tables q.p = st.tables q.p) {new : Prop}
    (rare : st'.rare.HasKey q ↔ st.rare.HasKey q ∨ new) : st'.Visible q ↔ st.Visible q ∨ new := by
  rw [Store.Visible, Store.Visible, dedicated, tables, rare, or_assoc]

/-- One predicate's derived triples become visible. -/
theorem visible_materialisePred {q : Quad} :
    (materialisePred session found acc p).2.Visible q ↔
      acc.2.Visible q ∨ (q ∈ found ∧ q.p = p) :=
  visible_of_rare isDedicated_materialisePred (congrFun tables_materialisePred q.p)
    rare_materialisePred

/-- The predicate stays in the layout that it was in. -/
theorem here_materialisePred (here : acc.2.DedicatedAt p ∨ acc.2.UnusedAt p) :
    (materialisePred session found acc p).2.DedicatedAt p ∨
      (materialisePred session found acc p).2.UnusedAt p := by
  rw [materialisePred_eq]
  dsimp only
  refine here.imp ?_ ?_
  · intro used
    have inserted : (insertFound session (found.filter fun q => q.p = p) acc.2).DedicatedAt p :=
      used.of_eq rfl rfl Sequence.lastValue_le_stamp
    split
    · exact DedicatedAt.upsertRarePredicate inserted
    · exact inserted
  · intro unused
    have inserted : (insertFound session (found.filter fun q => q.p = p) acc.2).UnusedAt p :=
      ⟨unused.dedicated, unused.htap, unused.tables⟩
    split
    · exact inserted.upsertRarePredicate
    · exact inserted

theorem tidy_materialisePred (h : acc.2.Tidy) : (materialisePred session found acc p).2.Tidy := by
  refine h.of_onlyAt onlyAt_materialisePred (here_materialisePred (h.predicate p)) ?_
  rw [tables_materialisePred]
  exact h.clean p

/-- The ids are drawn for every derived triple of the predicate. -/
theorem positive_materialisePred (seq : acc.2.seq.Positive) :
    (materialisePred session found acc p).2.seq.Positive := by
  have drawn : (acc.2.seq.stamp session (found.filter fun q => q.p = p)).2.Positive := seq.stamp
  rw [materialisePred_eq]
  dsimp only
  split <;> exact drawn

theorem placement_materialisePred (h : acc.2.Placement)
    (shown : ∀ q ∈ found, acc.2.isDedicated q.p = true → (acc.2.tables q.p).Shows q.key) :
    (materialisePred session found acc p).2.Placement := by
  have tables : (materialisePred session found acc p).2.tables = acc.2.tables :=
    tables_materialisePred
  refine h.of_onlyAt onlyAt_materialisePred (tidy_materialisePred h.tidy)
    (positive_materialisePred h.seq) ?_ ?_ ?_
  · intro q other hq
    exact (rare_materialisePred.mp hq).resolve_right fun new => other new.2
  · intro q same hq
    by_cases present : acc.2.rare.HasKey q
    · have registered := h.registered q present
      rw [same] at registered
      rw [materialisePred_eq]
      dsimp only
      split
      · rw [Store.tableOid_upsertRarePredicate, if_pos rfl]
        exact Option.some_ne_none _
      · exact registered
    · have new := (rare_materialisePred.mp hq).resolve_left present
      exact tableOid_materialisePred new.1 new.2 present
  · intro q same hq dedicated
    rw [isDedicated_materialisePred, ← same] at dedicated
    rw [tables, ← same]
    cases rare_materialisePred.mp hq with
    | inl old => exact h.shown q old dedicated
    | inr new => exact shown q new.1 dedicated

/-- All derived triples become visible, and no others. -/
theorem visible_materialise {derived : List TermId} {q : Quad} :
    (materialise session derived found st).2.Visible q ↔
      st.Visible q ∨ (q ∈ found ∧ q.p ∈ derived) := by
  have rule (acc : Int × Store) : (derived.foldl (materialisePred session found) acc).2.Visible q ↔
      acc.2.Visible q ∨ (q ∈ found ∧ q.p ∈ derived) := by
    induction derived generalizing acc with
    | nil => simp
    | cons p derived ih =>
      rw [List.foldl_cons, ih, visible_materialisePred, List.mem_cons, or_assoc, ← and_or_left]
  exact rule (0, st)

/-- A property that each predicate's rows keep. -/
theorem materialise_invariant {inv : Store → Prop}
    (keeps : ∀ (acc : Int × Store) (p : TermId), inv acc.2 →
      inv (materialisePred session found acc p).2) {derived : List TermId} (h : inv st) :
    inv (materialise session derived found st).2 := by
  have fold (acc : Int × Store) (h : inv acc.2) :
      inv (derived.foldl (materialisePred session found) acc).2 := by
    induction derived generalizing acc with
    | nil => exact h
    | cons p derived ih => exact ih _ (keeps acc p h)
  exact fold (0, st) h

theorem tidy_materialise {derived : List TermId} (h : st.Tidy) :
    (materialise session derived found st).2.Tidy :=
  materialise_invariant (fun _ _ h => tidy_materialisePred h) h

theorem isDedicated_materialise {derived : List TermId} {p' : TermId} :
    (materialise session derived found st).2.isDedicated p' = st.isDedicated p' :=
  @materialise_invariant st session found (fun st' => st'.isDedicated p' = st.isDedicated p')
    (fun _ _ h => isDedicated_materialisePred.trans h) derived rfl

/-- Materialising triples that dedicated views show already keeps the placement. -/
theorem placement_materialise {derived : List TermId} (h : st.Placement)
    (shown : ∀ q ∈ found, st.isDedicated q.p = true → (st.tables q.p).Shows q.key) :
    (materialise session derived found st).2.Placement := by
  have fold (acc : Int × Store) (h : acc.2.Placement)
      (shown : ∀ q ∈ found, acc.2.isDedicated q.p = true → (acc.2.tables q.p).Shows q.key) :
      (derived.foldl (materialisePred session found) acc).2.Placement := by
    induction derived generalizing acc with
    | nil => exact h
    | cons p derived ih =>
      refine ih _ (placement_materialisePred h shown) ?_
      intro q hq
      rw [isDedicated_materialisePred, tables_materialisePred]
      exact shown q hq
  exact fold (0, st) h shown

theorem tidy_loaded (quads : List Quad) : (loaded quads).Tidy := by
  have inserted {st : Store} (tidy : st.Tidy) :
      (quads.foldl (fun st q => (Store.insertEncodedTriple 0 q st).2) st).Tidy := by
    induction quads generalizing st with
    | nil => exact tidy
    | cons q quads ih => exact ih tidy.insertEncodedTriple
  exact inserted Store.tidy_initial

end PgRipple.Datalog
