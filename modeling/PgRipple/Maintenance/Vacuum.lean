import PgRipple.Datalog.Seminaive
import PgRipple.Dictionary.Rows
import PgRipple.Storage.Merge
import PgRipple.Lib.Run

/-!
# Garbage collection of terms and of rare predicates

`vacuum_dictionary` deletes the rows of terms that no table refers to, and
`vacuum_vp_rare` the `vp_rare` rows of predicates that count no triples. Neither looks
at everything that keeps an id alive: not at the components of quoted triples, not at
the caches, and the count of a predicate is not maintained by every writer.
-/

namespace PgRipple.Maintenance

open Storage Dictionary Datalog

structure System where
  store : Store
  dict : Dict

namespace System

def initial (ready : Bool) (dbOid : BitVec 32) : System := ⟨Store.initial, .initial ready dbOid⟩

/-- `storage::insert_triple` and `storage::delete_triple` encode their arguments first. -/
def encodeTriple (codec : Codec) (session : Session) (s : RdfTerm) (p : Text) (o : RdfTerm)
    (g : TermId) (d : Dict) : Quad × Dict :=
  let (s, d) := d.encodeRdfTerm codec session s
  let (p, d) := d.encode codec session p .iri
  let (o, d) := d.encodeRdfTerm codec session o
  (⟨s, p, o, g⟩, d)

/-- The graph argument of `insert_triple`; without it the triple goes to the default graph. -/
def encodeGraph (codec : Codec) (session : Session) : Option Text → Dict → TermId × Dict
  | none, d => (0, d)
  | some iri, d => d.encode codec session iri .iri

def insertTriple (codec : Codec) (cfg : Config) (session : Session) (s : RdfTerm) (p : Text)
    (o : RdfTerm) (g : Option Text) (sys : System) : System :=
  let (g, d) := encodeGraph codec session g sys.dict
  let (q, d) := encodeTriple codec session s p o g d
  ⟨(Store.insertTriple cfg session q sys.store).2, d⟩

def deleteTriple (codec : Codec) (session : Session) (s : RdfTerm) (p : Text) (o : RdfTerm)
    (g : TermId) (sys : System) : System :=
  let (q, d) := encodeTriple codec session s p o g sys.dict
  ⟨(Store.deleteTriple session q sys.store).2, d⟩

end System

/-- `INSERT INTO … SELECT DISTINCT … ON CONFLICT DO NOTHING` of a CONSTRUCT rule, into the
`delta` of a predicate. -/
def constructIntoDelta (session : Session) (p : TermId) (keys : List Key) (st : Store) : Store :=
  let (stamped, seq) := st.seq.stamp session keys.eraseDups
  let t := st.tables p
  let rows := stamped.map fun (k, i) => (⟨k, i, 1⟩ : Storage.Row)
  { st with seq := seq }.setTables p { t with delta := t.delta.insertAll rows }

/-- The same into `vp_rare`. -/
def constructIntoVpRare (session : Session) (quads : List Quad) (st : Store) : Store :=
  let (stamped, seq) := st.seq.stamp session quads.eraseDups
  { st with seq := seq, rare := st.rare.insertAll (stamped.map fun (q, i) => ⟨q, i, 1⟩) }

/-- What a CONSTRUCT rule writes for one template triple, given the rows of its query.
Only a constant predicate with tables of its own is written there. No counter is touched
and no predicate registered. -/
def constructWriteback (session : Session) (pred : Option TermId) (found : List Quad)
    (st : Store) : Store :=
  match pred with
  | some p =>
    if st.isDedicated p then constructIntoDelta session p (found.map Quad.key) st
    else constructIntoVpRare session (found.map fun q => q.key.quad p) st
  | none => constructIntoVpRare session found st

/-- The ids of a row, and its graph unless it is the default graph. -/
def graphIds (g : TermId) : List TermId := if g ≠ 0 then [g] else []

namespace System

/-- `_pg_ripple_live_ids`. -/
def liveIds (sys : System) : List TermId :=
  sys.store.predicates.rows.map PredicateRow.id ++
    (sys.store.rare.rows.flatMap fun r =>
      [r.quad.p, r.quad.s, r.quad.o] ++ graphIds r.quad.g) ++
    sys.store.dedicatedPredicates.flatMap fun p =>
      (sys.store.tables p).htapView.flatMap fun r => [r.key.s, r.key.o] ++ graphIds r.key.g

/-- The rows that `vacuum_dictionary` deletes. -/
def Orphan (sys : System) (id : TermId) : Prop := 0 < id ∧ id ∉ sys.liveIds

instance (sys : System) (id : TermId) : Decidable (sys.Orphan id) :=
  inferInstanceAs (Decidable (_ ∧ _))

/-- `vacuum_dictionary`: the number of deleted rows. The caches are left alone. -/
def vacuumDictionary (sys : System) : Int × System :=
  let deleted := (sys.dict.rows.rows.filter fun r => sys.Orphan r.id).length
  (deleted, { sys with dict := sys.dict.deleteUnless fun id => ¬ sys.Orphan id })

end System

/-- The predicates of `vp_rare` that do not count a triple. -/
def deadPreds (st : Store) : List TermId :=
  (st.rare.rows.map fun r => r.quad.p).eraseDups.filter fun p =>
    !((st.predicates.rows.filter fun r => 0 < r.tripleCount).map PredicateRow.id).contains p

/-- `DELETE FROM _pg_ripple.vp_rare WHERE p = …`, with the report of one turn. -/
def deleteRarePredicate (acc : List (TermId × Int) × Store) (p : TermId) :
    List (TermId × Int) × Store :=
  let deleted := (acc.2.rare.rows.filter fun r => r.quad.p = p).length
  (if 0 < deleted then acc.1 ++ [(p, (deleted : Int))] else acc.1,
    { acc.2 with rare := acc.2.rare.deleteWhere fun r => r.quad.p = p })

/-- `vacuum_vp_rare_impl`: the number of deleted rows for each predicate. -/
def vacuumVpRareImpl (st : Store) : List (TermId × Int) × Store :=
  (deadPreds st).foldl deleteRarePredicate ([], st)

def System.vacuumVpRare (sys : System) : List (TermId × Int) × System :=
  let (results, st) := vacuumVpRareImpl sys.store
  (results, { sys with store := st })

inductive Event where
  | insertTriple (cfg : Config) (session : Session) (s : RdfTerm) (p : Text) (o : RdfTerm)
      (g : Option Text)
  | deleteTriple (session : Session) (s : RdfTerm) (p : Text) (o : RdfTerm) (g : TermId)
  | batchInsertEncoded (session : Session) (p : TermId) (keys : List Key)
  | encode (session : Session) (t : RdfTerm)
  | encodeBatch (session : Session) (terms : List (Text × Kind))
  | lookup (session : Session) (term : Text) (kind : Kind)
  | runInferenceSeminaive (env : Environment) (session : Session) (rules : List Rule)
  | constructWriteback (session : Session) (pred : Option TermId) (found : List Quad)
  | promotePredicate (p : TermId)
  | mergePredicate (cfg : Config) (p : TermId)
  | vacuumDictionary
  | vacuumVpRare

namespace System

/-- One event; `none` if an inference or a batch fails. -/
def step (codec : Codec) (sys : System) : Event → Option System
  | .insertTriple cfg session s p o g => some (sys.insertTriple codec cfg session s p o g)
  | .deleteTriple session s p o g => some (sys.deleteTriple codec session s p o g)
  | .batchInsertEncoded session p keys =>
    some { sys with store := (Store.batchInsertEncoded session p keys sys.store).2 }
  | .encode session t => some { sys with dict := (sys.dict.encodeRdfTerm codec session t).2 }
  | .encodeBatch session terms =>
    (sys.dict.encodeBatch codec session terms).map fun (_, dict) => { sys with dict := dict }
  | .lookup session term kind =>
    some { sys with dict := (sys.dict.lookup codec session term kind).2 }
  | .runInferenceSeminaive env session rules =>
    (Datalog.runInferenceSeminaive env session rules sys.store).map fun (_, st) =>
      { sys with store := st }
  | .constructWriteback session pred found =>
    some { sys with store := Maintenance.constructWriteback session pred found sys.store }
  | .promotePredicate p => some { sys with store := sys.store.promotePredicate p }
  | .mergePredicate cfg p =>
    some { sys with store := (Store.mergePredicate cfg p sys.store).2 }
  | .vacuumDictionary => some sys.vacuumDictionary.2
  | .vacuumVpRare => some sys.vacuumVpRare.2

/-- The same quads are visible, and all their terms are read back as before. -/
def Unharmed (codec : Codec) (sys sys' : System) : Prop :=
  (∀ q, sys'.store.Visible q ↔ sys.store.Visible q) ∧
    ∀ q, sys.store.Visible q → ∀ id ∈ [q.s, q.p, q.o, q.g],
      Dict.ReadsSame codec sys.dict sys'.dict id

/-- Every encode call, of any backend, returns an inline id or one that has a row. -/
def EncodesWell (codec : Codec) (sys : System) : Prop :=
  (∀ session t, t.Inlined codec (sys.dict.encodeRdfTerm codec session t).1 ∨
    (sys.dict.encodeRdfTerm codec session t).2.HasRow
      (sys.dict.encodeRdfTerm codec session t).1) ∧
  ∀ session terms ids dict, sys.dict.encodeBatch codec session terms = some (ids, dict) →
    ∀ id ∈ ids, dict.HasRow id

/-- What visible quads quote, at any depth, is also used outside of quoted triples. -/
def ComponentsUsed (sys : System) : Prop :=
  ∀ q, sys.store.Visible q → ∀ id ∈ [q.s, q.p, q.o, q.g], ∀ component,
    Relation.TransGen sys.dict.Quotes id component → sys.dict.HasRow component →
      ¬ sys.Orphan component

/-- No cache holds a row that `vacuum_dictionary` is about to delete. -/
def CachesSpared (sys : System) : Event → Prop
  | .vacuumDictionary =>
    ∀ r ∈ sys.dict.rows.rows, sys.Orphan r.id → ¬ sys.dict.Cached r.hash r.id
  | _ => True

end System

/-- A `vp_rare` row of a predicate that counts no triples is also in the predicate's view. -/
def RareRowsShown (st : Store) : Prop :=
  ∀ q, st.rare.HasKey q → st.tripleCount q.p ≤ 0 →
    st.isDedicated q.p = true ∧ (st.tables q.p).Shows q.key

namespace System

variable {codec : Codec} {sys : System} {q : Quad} {id : TermId}

theorem mem_graphIds {g : TermId} (nonzero : g ≠ 0) : g ∈ graphIds g := by
  rw [graphIds, if_pos nonzero]
  exact List.mem_singleton_self g

/-- The terms of a visible quad are referred to by the tables. -/
theorem not_orphan_of_visible (visible : sys.store.Visible q) (hid : id ∈ [q.s, q.p, q.o, q.g]) :
    ¬ sys.Orphan id := by
  intro orphan
  refine orphan.2 ?_
  -- the graph of a row is collected unless it is the default graph, whose id is no orphan
  have listed {before : List TermId} (h : id ∈ before ∨ id = q.g) :
      id ∈ before ++ graphIds q.g := by
    cases h with
    | inl here => exact List.mem_append_left _ here
    | inr graph =>
      have nonzero : q.g ≠ 0 := graph ▸ orphan.1.ne'
      rw [graph]
      exact List.mem_append_right _ (mem_graphIds nonzero)
  rw [liveIds]
  cases visible with
  | inl view =>
    obtain ⟨dedicated, shown⟩ := view
    obtain ⟨r, hr, key⟩ := List.mem_map.mp shown
    by_cases predicate : id = q.p
    · obtain ⟨r, hr, named⟩ := List.mem_map.mp (Store.mem_dedicatedPredicates.mpr dedicated)
      have registered : id ∈ sys.store.predicates.rows.map PredicateRow.id := by
        rw [predicate, ← named]
        exact List.mem_map_of_mem (List.mem_of_mem_filter hr)
      exact List.mem_append_left _ (List.mem_append_left _ registered)
    · refine List.mem_append_right _ (List.mem_flatMap.mpr ?_)
      refine ⟨q.p, Store.mem_dedicatedPredicates.mpr dedicated, List.mem_flatMap.mpr ⟨r, hr, ?_⟩⟩
      rw [key]
      refine listed ?_
      simpa [predicate, Quad.key, or_assoc] using hid
  | inr rare =>
    obtain ⟨r, hr, same⟩ := UniqueTable.hasKey_iff.mp rare
    refine List.mem_append_left _ (List.mem_append_right _ (List.mem_flatMap.mpr ⟨r, hr, ?_⟩))
    rw [same]
    refine listed ?_
    simp only [List.mem_cons, List.not_mem_nil, or_false] at hid ⊢
    tauto

/-- `vacuum_dictionary` is harmless exactly if quoted terms are also used directly. -/
theorem unharmed_vacuumDictionary_iff :
    sys.Unharmed codec sys.vacuumDictionary.2 ↔ sys.ComponentsUsed := by
  have reads : sys.Unharmed codec sys.vacuumDictionary.2 ↔
      ∀ q, sys.store.Visible q → ∀ id ∈ [q.s, q.p, q.o, q.g],
        Dict.ReadsSame codec sys.dict (sys.dict.deleteUnless fun id => ¬ sys.Orphan id) id :=
    ⟨fun h => h.2, fun h => ⟨fun _ => Iff.rfl, h⟩⟩
  rw [reads]
  refine forall₂_congr fun q visible => forall₂_congr fun id hid => ?_
  rw [Dict.readsSame_iff]
  constructor
  · intro keeps component reached row orphan
    have dictionary : isInline component = false := by
      simpa [isInline] using orphan.1.le
    have kept := keeps component reached.to_reflTransGen dictionary row
    exact of_decide_eq_true kept orphan
  · intro used id' reached dictionary row
    refine decide_eq_true ?_
    cases Relation.reflTransGen_iff_eq_or_transGen.mp reached with
    | inl same =>
      rw [same]
      exact not_orphan_of_visible visible hid
    | inr deeper => exact used id' deeper row

end System

variable {st : Store} {q : Quad}

theorem foldl_deleteRarePredicate (preds : List TermId) (acc : List (TermId × Int) × Store) :
    (preds.foldl deleteRarePredicate acc).2.tables = acc.2.tables ∧
      (preds.foldl deleteRarePredicate acc).2.predicates = acc.2.predicates ∧
      ∀ q, (preds.foldl deleteRarePredicate acc).2.rare.HasKey q ↔
        acc.2.rare.HasKey q ∧ q.p ∉ preds := by
  induction preds generalizing acc with
  | nil => simp
  | cons p preds ih =>
    obtain ⟨tables, predicates, rare⟩ := ih (deleteRarePredicate acc p)
    refine ⟨tables, predicates, ?_⟩
    intro q
    have deleted : (deleteRarePredicate acc p).2.rare.HasKey q ↔ acc.2.rare.HasKey q ∧ q.p ≠ p := by
      rw [deleteRarePredicate]
      simpa using acc.2.rare.hasKey_deleteWhere fun q => decide (q.p = p)
    rw [List.foldl_cons, rare q, deleted]
    simp [and_assoc]

theorem mem_deadPreds_iff (present : st.rare.HasKey q) :
    q.p ∈ deadPreds st ↔ st.tripleCount q.p ≤ 0 := by
  obtain ⟨r, hr, same⟩ := UniqueTable.hasKey_iff.mp present
  have here : q.p ∈ (st.rare.rows.map fun r => r.quad.p).eraseDups := by
    rw [List.mem_eraseDups, ← same]
    exact List.mem_map_of_mem hr
  have counts : q.p ∈ (st.predicates.rows.filter fun r => 0 < r.tripleCount).map PredicateRow.id ↔
      0 < st.tripleCount q.p := by
    rw [Store.tripleCount]
    cases found : st.predicates.find? q.p with
    | none =>
      have absent := UniqueTable.find?_eq_none_iff.mp found
      rw [UniqueTable.hasKey_iff] at absent
      simp only [List.mem_map, List.mem_filter, Option.map_none, Option.getD_none, lt_irrefl,
        iff_false]
      intro ⟨pr, ⟨hpr, _⟩, named⟩
      exact absent ⟨pr, hpr, named⟩
    | some pr =>
      obtain ⟨hpr, named⟩ := UniqueTable.find?_eq_some_iff.mp found
      simp only [List.mem_map, List.mem_filter, Option.map_some, Option.getD_some,
        decide_eq_true_eq]
      constructor
      · intro ⟨pr', ⟨hpr', positive⟩, named'⟩
        rw [st.predicates.eq_of_key_eq hpr hpr' (named.trans named'.symm)]
        exact positive
      · intro positive
        exact ⟨pr, ⟨hpr, positive⟩, named⟩
  rw [deadPreds, List.mem_filter, and_iff_right here, Bool.not_eq_true', List.contains_eq_mem,
    decide_eq_false_iff_not, counts, not_lt]

/-- What `vacuum_vp_rare` leaves visible. -/
theorem visible_vacuumVpRareImpl :
    (vacuumVpRareImpl st).2.Visible q ↔
      (st.isDedicated q.p = true ∧ (st.tables q.p).Shows q.key) ∨
        (st.rare.HasKey q ∧ 0 < st.tripleCount q.p) := by
  obtain ⟨tables, predicates, rare⟩ := foldl_deleteRarePredicate (deadPreds st) ([], st)
  have dedicated : (vacuumVpRareImpl st).2.isDedicated q.p = st.isDedicated q.p := by
    rw [vacuumVpRareImpl, Store.isDedicated, predicates]
    rfl
  have kept : (vacuumVpRareImpl st).2.rare.HasKey q ↔
      st.rare.HasKey q ∧ 0 < st.tripleCount q.p := by
    refine (rare q).trans (and_congr_right fun present => ?_)
    rw [mem_deadPreds_iff present, not_le]
  rw [Store.Visible, dedicated, kept, vacuumVpRareImpl, tables]

/-- `vacuum_vp_rare` is harmless exactly if what it deletes is stored twice. -/
theorem unharmed_vacuumVpRare_iff {codec : Codec} {sys : System} :
    sys.Unharmed codec sys.vacuumVpRare.2 ↔ RareRowsShown sys.store := by
  constructor
  · intro unharmed q present uncounted
    cases visible_vacuumVpRareImpl.mp ((unharmed.1 q).mpr (.inr present)) with
    | inl view => exact view
    | inr counted => exact absurd counted.2 (not_lt.mpr uncounted)
  · intro shown
    refine ⟨?_, fun _ _ _ _ _ => rfl⟩
    intro q
    refine visible_vacuumVpRareImpl.trans ⟨Or.imp_right And.left, ?_⟩
    intro visible
    cases visible with
    | inl view => exact .inl view
    | inr present =>
      by_cases counted : 0 < sys.store.tripleCount q.p
      · exact .inr ⟨present, counted⟩
      · exact .inl (shown q present (not_lt.mp counted))

namespace System

variable {codec : Codec} {sys sys' : System}

theorem sound_encodeTriple {d : Dict} (h : d.Sound) (session : Session) (s : RdfTerm) (p : Text)
    (o : RdfTerm) (g : TermId) : (encodeTriple codec session s p o g d).2.Sound := by
  have subject := (h.encodeRdfTerm codec session s).1.sound
  have predicate := (subject.encode codec session p .iri).1.sound
  exact (predicate.encodeRdfTerm codec session o).1.sound

theorem sound_encodeGraph {d : Dict} (h : d.Sound) (session : Session) (g : Option Text) :
    (encodeGraph codec session g d).2.Sound := by
  cases g with
  | none => exact h
  | some iri => exact (h.encode codec session iri .iri).1.sound

/-- The caches only become unsound by deleting a row that one of them holds. -/
theorem sound_vacuumDictionary (h : sys.dict.Sound)
    (spared : ∀ r ∈ sys.dict.rows.rows, sys.Orphan r.id → ¬ sys.dict.Cached r.hash r.id) :
    sys.vacuumDictionary.2.dict.Sound := by
  intro hash128 id cached
  obtain ⟨r, hr, rfl, rfl⟩ := h hash128 id cached
  refine ⟨r, UniqueTable.mem_deleteWhere.mpr ⟨hr, ?_⟩, rfl, rfl⟩
  have kept : ¬ sys.Orphan r.id := fun orphan => spared r hr orphan cached
  simpa using kept

theorem sound_step {event : Event} (h : sys.dict.Sound) (spared : sys.CachesSpared event)
    (stepped : sys.step codec event = some sys') : sys'.dict.Sound := by
  cases event with
  | insertTriple cfg session s p o g =>
    cases stepped
    have graph : (encodeGraph codec session g sys.dict).2.Sound := sound_encodeGraph h session g
    exact sound_encodeTriple graph session s p o (encodeGraph codec session g sys.dict).1
  | deleteTriple session s p o g =>
    cases stepped
    exact sound_encodeTriple h session s p o g
  | batchInsertEncoded session p keys =>
    cases stepped
    exact h
  | encode session t =>
    cases stepped
    exact (h.encodeRdfTerm codec session t).1.sound
  | encodeBatch session terms =>
    obtain ⟨⟨ids, dict⟩, done, rfl⟩ := Option.map_eq_some_iff.mp stepped
    exact (h.encodeBatch done).1.sound
  | lookup session term kind =>
    cases stepped
    exact (h.lookup codec session term kind).sound
  | runInferenceSeminaive env session rules =>
    obtain ⟨result, -, rfl⟩ := Option.map_eq_some_iff.mp stepped
    exact h
  | constructWriteback session pred found =>
    cases stepped
    exact h
  | promotePredicate p =>
    cases stepped
    exact h
  | mergePredicate cfg p =>
    cases stepped
    exact h
  | vacuumDictionary =>
    cases stepped
    exact sound_vacuumDictionary h spared
  | vacuumVpRare =>
    cases stepped
    exact h

theorem encodesWell_of_sound (h : sys.dict.Sound) : sys.EncodesWell codec := by
  refine ⟨fun session t => (h.encodeRdfTerm codec session t).2, ?_⟩
  intro session terms ids dict done id member
  obtain ⟨t, -, stored⟩ := Fold.exists_left_of_forall₂ (h.encodeBatch done).2 member
  exact stored.hasRow

end System

/-- In every state that is reached, each collector is harmless exactly under its condition;
and if no collection of the run deleted a row that some cache held, then every id that
is returned from now on has a row. -/
theorem maintenance_harmless_iff {codec : Codec} {ready : Bool} {dbOid : BitVec 32}
    {events : List Event} {sys : System}
    (executed : Run.exec (System.step codec) (.initial ready dbOid) events = some sys) :
    (sys.Unharmed codec sys.vacuumDictionary.2 ↔ sys.ComponentsUsed) ∧
    (sys.Unharmed codec sys.vacuumVpRare.2 ↔ RareRowsShown sys.store) ∧
    (Run.Along (System.step codec) System.CachesSpared (.initial ready dbOid) events →
      sys.EncodesWell codec) := by
  refine ⟨System.unharmed_vacuumDictionary_iff, unharmed_vacuumVpRare_iff, ?_⟩
  intro spared
  have keeps (s : System) (e : Event) (s' : System) (h : s.dict.Sound) (kept : s.CachesSpared e)
      (stepped : s.step codec e = some s') : s'.dict.Sound := System.sound_step h kept stepped
  have sound := Run.exec_invariant keeps (Dict.sound_initial ready dbOid) spared executed
  exact System.encodesWell_of_sound sound

/-- A codec that is good enough for short texts. -/
def shortTextCodec : Codec where
  chrono := Encoder.numericChrono
  termHash term kind :=
    .ofNat 128 (term.foldl (fun n c => n * 256 + c.toNat) (if kind = .iri then 1 else 2))
  quotedTripleHash s p o :=
    .ofNat 128 (((3 * 2 ^ 32 + s.toNat) * 2 ^ 32 + p.toNat) * 2 ^ 32 + o.toNat)
  normalize := id

/-- Default settings. -/
def defaultConfig : Config := ⟨10000, true, 3600⟩

/-- A triple is stored and quoted; both collectors run. -/
def quotedAndStored : List Event := [
  .insertTriple defaultConfig 0 (.plain ['a'] .iri) ['b'] (.plain ['c'] .iri) none,
  .insertTriple defaultConfig 1
    (.quoted (.plain ['a'] .iri) (.plain ['b'] .iri) (.plain ['c'] .iri)) ['d'] (.plain ['e'] .iri)
    (some ['g']),
  .vacuumDictionary,
  .promotePredicate 2,
  .vacuumVpRare]

theorem maintenance_harmless_quotedAndStored :
    ∃ sys, Run.exec (System.step shortTextCodec) (.initial true 5) quotedAndStored = some sys ∧
      sys.Unharmed shortTextCodec sys.vacuumDictionary.2 ∧
      sys.Unharmed shortTextCodec sys.vacuumVpRare.2 ∧ sys.EncodesWell shortTextCodec := by
  have ends : (Run.exec (System.step shortTextCodec) (.initial true 5) quotedAndStored).any
      (fun sys => (sys.dict.rows.rows.all fun r => ¬ sys.Orphan r.id) &&
        sys.store.rare.rows.all fun r => 0 < sys.store.tripleCount r.quad.p) = true := by
    decide +kernel
  have along : Run.Along (System.step shortTextCodec)
      (fun sys _ => (sys.dict.rows.rows.all fun r => ¬ sys.Orphan r.id) = true) (.initial true 5)
      quotedAndStored := by decide +kernel
  obtain ⟨sys, executed, final⟩ := (Option.any_eq_true _ _).mp ends
  obtain ⟨used, counted⟩ := Bool.and_eq_true_iff.mp final
  have noOrphan {sys : System}
      (h : (sys.dict.rows.rows.all fun r => ¬ sys.Orphan r.id) = true) (r : TermRow)
      (hr : r ∈ sys.dict.rows.rows) : ¬ sys.Orphan r.id :=
    of_decide_eq_true (List.all_eq_true.mp h r hr)
  have components : sys.ComponentsUsed := by
    intro q _ id _ component _ row
    obtain ⟨r, hr, rfl⟩ := row
    exact noOrphan used r hr
  have shown : RareRowsShown sys.store := by
    intro q present uncounted
    obtain ⟨r, hr, rfl⟩ := UniqueTable.hasKey_iff.mp present
    exact absurd (of_decide_eq_true (List.all_eq_true.mp counted r hr)) (not_lt.mpr uncounted)
  have spared : Run.Along (System.step shortTextCodec) System.CachesSpared (.initial true 5)
      quotedAndStored := by
    refine Run.along_of_invariant (fun _ _ _ _ _ _ => trivial) ?_ trivial along
    intro sys event _ h
    cases event with
    | vacuumDictionary => exact fun r hr orphan => absurd orphan (noOrphan h r hr)
    | _ => trivial
  obtain ⟨dictionary, rare, encodes⟩ := maintenance_harmless_iff executed
  exact ⟨sys, executed, dictionary.mpr components, rare.mpr shown, encodes spared⟩

/-- A triple about a quoted triple whose terms are used nowhere else. -/
theorem not_maintenance_harmless :
    ¬ ∀ (codec : Codec) (ready : Bool) (dbOid : BitVec 32) (events : List Event) (sys : System),
      Run.exec (System.step codec) (.initial ready dbOid) events = some sys →
      sys.Unharmed codec sys.vacuumDictionary.2 ∧ sys.Unharmed codec sys.vacuumVpRare.2 ∧
        sys.vacuumDictionary.2.EncodesWell codec ∧ sys.vacuumVpRare.2.EncodesWell codec := by
  intro promised
  have harmed : (Run.exec (System.step shortTextCodec) (.initial true 5) [
      .insertTriple defaultConfig 0
        (.quoted (.plain ['a'] .iri) (.plain ['b'] .iri) (.plain ['c'] .iri)) ['d']
        (.plain ['e'] .iri) none]).any (fun sys => decide (sys.store.Visible ⟨4, 5, 6, 0⟩ ∧
          sys.vacuumDictionary.2.dict.decodeTo shortTextCodec 2 4 ≠
            sys.dict.decodeTo shortTextCodec 2 4)) = true := by
    decide +kernel
  obtain ⟨sys, executed, final⟩ := (Option.any_eq_true _ _).mp harmed
  obtain ⟨visible, different⟩ := of_decide_eq_true final
  have unharmed := (promised _ _ _ _ sys executed).1
  exact different (unharmed.2 _ visible 4 (by decide) 2)

end PgRipple.Maintenance
