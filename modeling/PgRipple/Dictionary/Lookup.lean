import PgRipple.Dictionary.Batch
import PgRipple.Dictionary.CacheSafety

/-!
# Looking terms up

`lookup` asks the backend's own cache and then the table, and never inserts. It hashes the text
that it is given, while `encode` normalises IRIs and blank nodes first. So it returns the id of an
earlier `encode`, in the same transaction or in any later one, exactly for the terms whose hash
normalisation does not change.

Ids have to be unique for this: a row with another hash has another id.
-/

namespace PgRipple.Dictionary

namespace Server

variable {n : Nat}

/-- `encode`, with the text that it hashes. -/
def encode (codec : Codec) (srv : Server n) (b : Fin n) (term : Text) (kind : Kind) :
    Option (Int × Server n) :=
  srv.encodeInner b (codec.termHash (Dict.written codec term kind) kind)

/-- Replace a backend's own cache. -/
def setCache (srv : Server n) (b : Fin n) (cache : List (Hash × Int)) : Server n :=
  srv.setBackend b { srv.backends b with encodeCache := cache }

/-- `lookup` of a hash: committed rows and the backend's own are seen. -/
def lookupRow (srv : Server n) (b : Fin n) (hash128 : Hash) : Option Int × Server n :=
  let (found, cache) := Cache.get hash128 (srv.backends b).encodeCache
  match found with
  | some id => (some id, srv.setCache b cache)
  | none =>
    match (srv.rows ++ (srv.backends b).uncommitted).find? fun r => r.hash = hash128 with
    | some r => (some r.id, srv.setCache b (Cache.put cacheCapacity hash128 r.id cache))
    | none => (none, srv.setCache b cache)

/-- `lookup`. -/
def lookupTerm (codec : Codec) (srv : Server n) (b : Fin n) (term : Text) (kind : Kind) :
    Option Int × Server n :=
  srv.lookupRow b (codec.termHash term kind)

end Server

/-- What a backend may ask for: a call that writes, or a lookup. -/
inductive Request where
  | call (call : Call)
  | lookup (hash128 : Hash)
  deriving DecidableEq, Repr

namespace Server

variable {n : Nat} {srv srv' srv'' : Server n} {b b' : Fin n} {hash128 : Hash} {id : Int}
  {r : DictRow}

/-- One request of an interleaving. -/
def serve (srv : Server n) : Fin n × Request → Option (Server n)
  | (b, .call call) => srv.step (b, call)
  | (b, .lookup hash128) => some (srv.lookupRow b hash128).2

/-- The request meets neither situation that endangers ids. -/
def Quiet (srv : Server n) : Fin n × Request → Prop
  | (b, .call call) => srv.Undisturbed (b, call)
  | (_, .lookup _) => True

/-- The request does not roll the row back. -/
def Retains (r : DictRow) (srv : Server n) : Fin n × Request → Prop
  | (b, .call .abortSub) => r ∉ (srv.backends b).current.rows
  | (b, .call .abort) => r ∉ (srv.backends b).uncommitted
  | _ => True

theorem Visible.rowOf (row : srv.Visible b r) : ∃ o, srv.RowOf o r := by
  cases row with
  | inl committed => exact ⟨none, committed⟩
  | inr own => exact ⟨some b, own⟩

theorem levels_setCache (cache : List (Hash × Int)) (b' : Fin n) :
    ((srv.setCache b cache).backends b').levels = (srv.backends b').levels := by
  apply levels_setBackend
  rfl

theorem Safe.setCache {cache : List (Hash × Int)} (h : srv.Safe)
    (cached : ∀ e ∈ cache, srv.Visible b ⟨e.1, e.2⟩) : (srv.setCache b cache).Safe := by
  have same (o : Option (Fin n)) (r : DictRow) :
      (srv.setCache b cache).RowOf o r ↔ srv.RowOf o r := by
    refine rowOf_congr ?_ (levels_setCache cache) o r
    rfl
  refine h.of_rowOf same h.shared h.idle ?_ ?_ ?_ rfl
  · intro b' r hr
    have noted : ((srv.setCache b cache).backends b').txShmemInserts =
        (srv.backends b').txShmemInserts := by
      by_cases hb : b' = b
      · subst hb
        rw [Server.setCache, setBackend_self]
      · rw [Server.setCache, setBackend_of_ne hb]
    rw [noted]
    exact h.counted b' r hr
  · intro b' e he
    by_cases hb : b' = b
    · subst hb
      rw [Server.setCache, setBackend_self] at he
      exact cached e he
    · rw [Server.setCache, setBackend_of_ne hb] at he
      exact h.cached b' e he
  · intro b'
    rw [levels_setCache]
    exact h.nested b'

/-- A lookup changes the backend's own cache, and answers with a row that it sees, if there is
one. -/
theorem Safe.lookupRow (h : srv.Safe) (b : Fin n) (hash128 : Hash) :
    ∃ cache, (srv.lookupRow b hash128).2 = srv.setCache b cache ∧
      (∀ e ∈ cache, srv.Visible b ⟨e.1, e.2⟩) ∧
      ∀ id, (srv.lookupRow b hash128).1 = some id ↔ srv.Visible b ⟨hash128, id⟩ := by
  have kept : ∀ e ∈ (Cache.get hash128 (srv.backends b).encodeCache).2,
      srv.Visible b ⟨e.1, e.2⟩ := fun e he => h.cached b e (Cache.mem_get he)
  -- one row is found, and there is no other with its hash
  have only {found : Int} (row : srv.Visible b ⟨hash128, found⟩) (id : Int) :
      some found = some id ↔ srv.Visible b ⟨hash128, id⟩ := by
    constructor
    · intro same
      cases same
      exact row
    · intro other
      obtain ⟨o, hr⟩ := row.rowOf
      obtain ⟨o', hr'⟩ := other.rowOf
      exact congrArg (fun r : DictRow => some r.id) (h.unique o o' _ _ hr hr' rfl).2
  rw [Server.lookupRow]
  dsimp only
  split
  · rename_i id found
    exact ⟨_, rfl, kept, only (h.cached b _ (Cache.mem_of_get_eq_some found))⟩
  · split
    · rename_i r found
      have named : r.hash = hash128 := by simpa using List.find?_some found
      have row : srv.Visible b ⟨hash128, r.id⟩ := by
        rw [← named]
        exact List.mem_append.mp (List.mem_of_find?_eq_some found)
      refine ⟨_, rfl, ?_, only row⟩
      intro e he
      cases Cache.mem_put he with
      | inl new =>
        rw [new]
        exact row
      | inr old => exact kept e old
    · rename_i absent
      refine ⟨_, rfl, kept, ?_⟩
      intro id
      constructor
      · intro answer
        cases answer
      · intro row
        have missed := List.find?_eq_none.mp absent _ (List.mem_append.mpr row)
        simp at missed

/-- A backend adds rows of its own, with ids that it draws, and touches no others. -/
structure Wrote (b : Fin n) (srv srv' : Server n) : Prop where
  rows : srv'.rows = srv.rows
  others : ∀ b' ≠ b, (srv'.backends b').levels = (srv.backends b').levels
  own : ∀ r ∈ (srv.backends b).uncommitted, r ∈ (srv'.backends b).uncommitted
  next : srv.nextId ≤ srv'.nextId
  drawn : ∀ r ∈ (srv'.backends b).uncommitted,
    r ∈ (srv.backends b).uncommitted ∨ srv.nextId ≤ r.id ∧ r.id < srv'.nextId
  apart : ∀ r ∈ (srv'.backends b).uncommitted, ∀ r' ∈ (srv'.backends b).uncommitted,
    srv.nextId ≤ r.id → r.id = r'.id → r = r'

/-- All ids are below the next one, and no two hashes share one. -/
structure Numbered (srv : Server n) : Prop where
  below : ∀ o r, srv.RowOf o r → r.id < srv.nextId
  unique : ∀ o o' r r', srv.RowOf o r → srv.RowOf o' r' → r.id = r'.id → r = r'

namespace Wrote

theorem of_levels (h : srv.Numbered) (rows : srv'.rows = srv.rows) (next : srv'.nextId = srv.nextId)
    (levels : ∀ b', (srv'.backends b').levels = (srv.backends b').levels) : Wrote b srv srv' := by
  have same : (srv'.backends b).uncommitted = (srv.backends b).uncommitted :=
    congrArg (List.flatMap Level.rows) (levels b)
  refine ⟨rows, fun b' _ => levels b', ?_, Int.le_of_eq next.symm, ?_, ?_⟩
  · intro r hr
    rwa [same]
  · intro r hr
    rw [same] at hr
    exact .inl hr
  · intro r hr r' hr' new
    rw [same] at hr
    have := h.below (some b) r hr
    omega

theorem trans (first : Wrote b srv srv') (second : Wrote b srv' srv'') : Wrote b srv srv'' where
  rows := second.rows.trans first.rows
  others b' hb := (second.others b' hb).trans (first.others b' hb)
  own r hr := second.own r (first.own r hr)
  next := Int.le_trans first.next second.next
  drawn r hr := by
    have between := first.next
    have later := second.next
    obtain old | new := second.drawn r hr
    · obtain older | drawn := first.drawn r old
      · exact .inl older
      · exact .inr (by omega)
    · exact .inr (by omega)
  apart r hr r' hr' new same := by
    by_cases late : srv'.nextId ≤ r.id
    · exact second.apart r hr r' hr' late same
    · -- both rows are from the first part
      have early := (second.drawn r hr).resolve_right (by omega)
      have early' := (second.drawn r' hr').resolve_right (by omega)
      exact first.apart r early r' early' new same

end Wrote

/-- New ids are larger than all that are in use. -/
theorem Numbered.wrote (h : srv.Numbered) (wrote : Wrote b srv srv') : srv'.Numbered := by
  have next := wrote.next
  have origin (o : Option (Fin n)) (r : DictRow) (row : srv'.RowOf o r) :
      srv.RowOf o r ∨ o = some b ∧ srv.nextId ≤ r.id ∧ r.id < srv'.nextId := by
    cases o with
    | none =>
      rw [RowOf, wrote.rows] at row
      exact .inl row
    | some b' =>
      by_cases hb : b' = b
      · subst hb
        exact (wrote.drawn r row).imp_right fun drawn => ⟨rfl, drawn⟩
      · rw [RowOf, Backend.uncommitted, wrote.others b' hb] at row
        exact .inl row
  refine ⟨?_, ?_⟩
  · intro o r row
    obtain old | ⟨-, drawn⟩ := origin o r row
    · have := h.below o r old
      omega
    · exact drawn.2
  · intro o o' r r' row row' same
    obtain old | ⟨rfl, drawn⟩ := origin o r row
    · obtain old' | ⟨rfl, drawn'⟩ := origin o' r' row'
      · exact h.unique o o' r r' old old' same
      · have := h.below o r old
        omega
    · obtain old' | ⟨rfl, drawn'⟩ := origin o' r' row'
      · have := h.below o' r' old'
        omega
      · exact wrote.apart r row r' row' drawn.1 same

theorem Numbered.lookup (h : srv.Numbered) : Wrote b srv (srv.lookup b hash128).2 :=
  .of_levels h rfl rfl levels_setTiers

theorem Numbered.publish (h : srv.Numbered) : Wrote b srv (srv.publish b hash128 id) :=
  .of_levels h rfl rfl levels_publish

theorem Numbered.upsert (h : srv.Numbered) (done : srv.upsert b hash128 = some (id, srv')) :
    Wrote b srv srv' := by
  have next : srv.nextId ≤ srv.nextId + 1 := by omega
  obtain ⟨-, rfl⟩ | ⟨-, rfl, rfl⟩ := upsert_cases done
  · refine ⟨rfl, fun _ _ => rfl, fun _ hr => hr, next, fun _ hr => .inl hr, ?_⟩
    intro r hr r' hr' new
    have := h.below (some b) r hr
    omega
  · generalize state : Server.setBackend _ b _ = srv'
    have grown : (srv'.backends b).uncommitted =
        ⟨hash128, srv.nextId⟩ :: (srv.backends b).uncommitted := by
      rw [← state, setBackend_self]
      rfl
    have drawn : srv'.nextId = srv.nextId + 1 := by
      rw [← state]
      rfl
    refine ⟨by rw [← state]; rfl, ?_, ?_, drawn ▸ next, ?_, ?_⟩
    · intro b' hb
      rw [← state, setBackend_of_ne hb]
    · intro r hr
      rw [grown]
      exact List.mem_cons_of_mem _ hr
    · intro r hr
      rw [grown] at hr
      cases List.mem_cons.mp hr with
      | inl new =>
        refine .inr ?_
        rw [new, drawn]
        exact ⟨Int.le_refl _, Int.lt_succ _⟩
      | inr old => exact .inl old
    · intro r hr r' hr' new same
      rw [grown] at hr hr'
      cases List.mem_cons.mp hr with
      | inl first =>
        cases List.mem_cons.mp hr' with
        | inl first' => exact first.trans first'.symm
        | inr old' =>
          have := h.below (some b) r' old'
          omega
      | inr old =>
        have := h.below (some b) r old
        omega

theorem Numbered.encodeInner (h : srv.Numbered)
    (done : srv.encodeInner b hash128 = some (id, srv')) : Wrote b srv srv' := by
  have looked : Wrote b srv (srv.lookup b hash128).2 := h.lookup
  rw [Server.encodeInner] at done
  split at done
  · rename_i id' srv₁ found
    cases done
    rwa [found] at looked
  · rename_i srv₁ found
    rw [found] at looked
    obtain ⟨⟨id', srv₂⟩, upserted, done⟩ := Option.bind_eq_some_iff.mp done
    cases done
    have inserted := (h.wrote looked).upsert upserted
    have published : Wrote b srv₂ (srv₂.publish b hash128 id) :=
      ((h.wrote looked).wrote inserted).publish
    exact (looked.trans inserted).trans published

theorem Numbered.encodeEach {hs : List Hash} {ids : List Int} (h : srv.Numbered)
    (done : Server.encodeEach b hs srv = some (ids, srv')) : Wrote b srv srv' := by
  induction hs generalizing srv ids with
  | nil =>
    cases done
    exact .of_levels h rfl rfl fun _ => rfl
  | cons hash128 hs ih =>
    obtain ⟨⟨id, srv₁⟩, first, done⟩ := Option.bind_eq_some_iff.mp done
    obtain ⟨⟨rest, srv₂⟩, later, done⟩ := Option.bind_eq_some_iff.mp done
    cases done
    have encoded := h.encodeInner first
    exact encoded.trans (ih (h.wrote encoded) later)

theorem Numbered.lookupAll {hs : List Hash} (h : srv.Numbered) :
    Wrote b srv (Server.lookupAll b hs srv).2 := by
  induction hs generalizing srv with
  | nil => exact .of_levels h rfl rfl fun _ => rfl
  | cons hash128 hs ih => exact h.lookup.trans (ih (h.wrote h.lookup))

theorem Numbered.upsertMisses {found : List (Hash × Option Int)} {misses : List (Hash × Int)}
    (h : srv.Numbered) (done : Server.upsertMisses b found srv = some (misses, srv')) :
    Wrote b srv srv' := by
  induction found generalizing srv misses with
  | nil =>
    cases done
    exact .of_levels h rfl rfl fun _ => rfl
  | cons f found ih =>
    obtain ⟨hash128, answer⟩ := f
    cases answer with
    | some id => exact ih h done
    | none =>
      obtain ⟨⟨id, srv₁⟩, first, done⟩ := Option.bind_eq_some_iff.mp done
      obtain ⟨⟨rest, srv₂⟩, later, done⟩ := Option.bind_eq_some_iff.mp done
      cases done
      have upserted := h.upsert first
      exact upserted.trans (ih (h.wrote upserted) later)

theorem Numbered.publishAll {misses : List (Hash × Int)} (h : srv.Numbered) :
    Wrote b srv (misses.foldl (fun srv miss => srv.publish b miss.1 miss.2) srv) := by
  induction misses generalizing srv with
  | nil => exact .of_levels h rfl rfl fun _ => rfl
  | cons miss misses ih => exact h.publish.trans (ih (h.wrote h.publish))

theorem Numbered.encodeBatch {hs : List Hash} {ids : List Int} (h : srv.Numbered)
    (done : srv.encodeBatch b hs = some (ids, srv')) : Wrote b srv srv' := by
  have looked : Wrote b srv (Server.lookupAll b hs srv).2 := h.lookupAll
  rw [Server.encodeBatch] at done
  dsimp only at done
  split at done
  · obtain ⟨⟨misses, srv₁⟩, upserted, done⟩ := Option.bind_eq_some_iff.mp done
    cases done
    have inserted := (h.wrote looked).upsertMisses upserted
    exact (looked.trans inserted).trans ((h.wrote looked).wrote inserted).publishAll
  · cases done

variable {be : Backend} {call : Call} {request : Fin n × Request} {answers : List (Hash × Int)}

theorem Numbered.of_rows (h : srv.Numbered) (next : srv'.nextId = srv.nextId)
    (old : ∀ o r, srv'.RowOf o r → ∃ o', srv.RowOf o' r) : srv'.Numbered := by
  refine ⟨?_, ?_⟩
  · intro o r row
    obtain ⟨o₁, row⟩ := old o r row
    rw [next]
    exact h.below o₁ r row
  · intro o o' r r' row row' same
    obtain ⟨o₁, row⟩ := old o r row
    obtain ⟨o₁', row'⟩ := old o' r' row'
    exact h.unique o₁ o₁' r r' row row' same

theorem Numbered.setBackend (h : srv.Numbered)
    (less : ∀ r ∈ be.uncommitted, r ∈ (srv.backends b).uncommitted) :
    (srv.setBackend b be).Numbered := by
  refine h.of_rows rfl ?_
  intro o r row
  rw [rowOf_setBackend] at row
  split at row
  · exact ⟨some b, less r row⟩
  · exact ⟨o, row⟩

/-- The levels of a backend are arranged differently. -/
theorem Visible.setBackend (row : srv.Visible b' r)
    (kept : r ∈ (srv.backends b).uncommitted → r ∈ be.uncommitted) :
    (srv.setBackend b be).Visible b' r := by
  refine row.imp (fun committed => committed) ?_
  intro own
  rw [rowOf_setBackend]
  split
  · rename_i same
    cases same
    exact kept own
  · exact own

theorem Wrote.visible (wrote : Wrote b srv srv') (row : srv.Visible b' r) : srv'.Visible b' r := by
  cases row with
  | inl committed =>
    refine .inl ?_
    rw [RowOf, wrote.rows]
    exact committed
  | inr own =>
    refine .inr ?_
    by_cases hb : b' = b
    · subst hb
      exact wrote.own r own
    · rw [RowOf, Backend.uncommitted, wrote.others b' hb]
      exact own

/-- No request brings an id into use twice, and each row that it does not roll back is seen by
those who saw it before. -/
theorem Numbered.perform (h : srv.Numbered) (done : srv.perform b call = some (answers, srv')) :
    srv'.Numbered ∧
      ∀ b' r, srv.Visible b' r → Retains r srv (b, .call call) → srv'.Visible b' r := by
  cases call with
  | encode hash128 =>
    obtain ⟨⟨id, srv₁⟩, encoded, done⟩ := Option.map_eq_some_iff.mp done
    cases done
    have wrote := h.encodeInner encoded
    exact ⟨h.wrote wrote, fun _ _ row _ => wrote.visible row⟩
  | encodeBatch hs =>
    obtain ⟨⟨ids, srv₁⟩, encoded, done⟩ := Option.map_eq_some_iff.mp done
    cases done
    have wrote := h.encodeBatch encoded
    exact ⟨h.wrote wrote, fun _ _ row _ => wrote.visible row⟩
  | insertTriple hs =>
    obtain ⟨⟨ids, srv₁⟩, encoded, done⟩ := Option.map_eq_some_iff.mp done
    cases done
    have wrote := h.encodeEach encoded
    refine ⟨(h.wrote wrote).setBackend fun _ hr => hr, ?_⟩
    intro b' r row _
    exact (wrote.visible row).setBackend fun hr => hr
  | savepoint =>
    cases done
    exact ⟨h.setBackend fun _ hr => hr, fun _ _ row _ => row.setBackend fun hr => hr⟩
  | release =>
    obtain ⟨srv₁, released, done⟩ := Option.map_eq_some_iff.mp done
    cases done
    simp only [Server.release] at released
    split at released
    · cases released
    · rename_i enclosing outer found
      cases released
      have same (r : DictRow) : r ∈ Backend.uncommitted { srv.backends b with
            current := ⟨(srv.backends b).current.rows ++ enclosing.rows,
              (srv.backends b).current.vp ++ enclosing.vp⟩
            outer := outer } ↔ r ∈ (srv.backends b).uncommitted := by
        simp [Backend.uncommitted, Backend.levels, found]
      refine ⟨h.setBackend fun r => (same r).mp, ?_⟩
      intro b' r row _
      exact row.setBackend (same r).mpr
  | abortSub =>
    obtain ⟨srv₁, aborted, done⟩ := Option.map_eq_some_iff.mp done
    cases done
    simp only [Server.abortSub] at aborted
    split at aborted
    · cases aborted
    · rename_i enclosing outer found
      cases aborted
      have split (r : DictRow) : r ∈ (srv.backends b).uncommitted ↔
          r ∈ (srv.backends b).current.rows ∨ r ∈ Backend.uncommitted { srv.backends b with
            current := enclosing, outer := outer, encodeCache := [] } := by
        simp [Backend.uncommitted, Backend.levels, found]
      refine ⟨h.setBackend fun r hr => (split r).mpr (.inr hr), ?_⟩
      intro b' r row retained
      exact row.setBackend fun hr => ((split r).mp hr).resolve_left retained
  | commit =>
    cases done
    have rows : (srv.commit b).rows = (srv.backends b).uncommitted ++ srv.rows := rfl
    refine ⟨?_, ?_⟩
    · refine h.of_rows rfl ?_
      intro o r row
      rw [Server.commit, rowOf_setBackend] at row
      split at row
      · cases row
      · cases o with
        | none =>
          cases List.mem_append.mp row with
          | inl own => exact ⟨some b, own⟩
          | inr committed => exact ⟨none, committed⟩
        | some b' => exact ⟨some b', row⟩
    · intro b' r row _
      cases row with
      | inl committed =>
        refine .inl ?_
        rw [RowOf, rows]
        exact List.mem_append_right _ committed
      | inr own =>
        by_cases hb : b' = b
        · subst hb
          refine .inl ?_
          rw [RowOf, rows]
          exact List.mem_append_left _ own
        · refine .inr ?_
          rw [RowOf, Server.commit, setBackend_of_ne hb]
          exact own
  | abort =>
    cases done
    refine ⟨?_, ?_⟩
    · refine h.of_rows rfl ?_
      intro o r row
      rw [Server.abort, rowOf_setBackend] at row
      split at row
      · cases row
      · exact ⟨o, row⟩
    · intro b' r row retained
      cases row with
      | inl committed => exact .inl committed
      | inr own =>
        by_cases hb : b' = b
        · subst hb
          exact absurd own retained
        · refine .inr ?_
          rw [RowOf, Server.abort, setBackend_of_ne hb]
          exact own

theorem numbered_initial {ready : Bool} {dbOid : BitVec 32} :
    (initial n ready dbOid).Numbered := by
  have noRow (o : Option (Fin n)) (r : DictRow) : ¬ (initial n ready dbOid).RowOf o r := by
    cases o with
    | none => exact List.not_mem_nil
    | some b => exact List.not_mem_nil
  exact ⟨fun o r row => absurd row (noRow o r), fun o _ r _ row => absurd row (noRow o r)⟩

/-- What quiet requests keep. -/
structure Kept (srv : Server n) : Prop where
  safe : srv.Safe
  numbered : srv.Numbered

theorem Kept.next (h : srv.Kept) (quiet : srv.Quiet request)
    (served : srv.serve request = some srv') :
    srv'.Kept ∧ ∀ b r, srv.Visible b r → Retains r srv request → srv'.Visible b r := by
  obtain ⟨b, request⟩ := request
  cases request with
  | call call =>
    obtain ⟨⟨answers, srv₁⟩, done, rfl⟩ := Option.map_eq_some_iff.mp served
    obtain ⟨numbered, kept⟩ := h.numbered.perform done
    exact ⟨⟨(h.safe.perform quiet done).1, numbered⟩, kept⟩
  | lookup hash128 =>
    cases served
    obtain ⟨cache, after, cached, -⟩ := h.safe.lookupRow b hash128
    rw [after]
    refine ⟨⟨h.safe.setCache cached, h.numbered.setBackend fun _ hr => hr⟩, ?_⟩
    intro b' r row _
    exact row.setBackend fun hr => hr

theorem Kept.exec {requests : List (Fin n × Request)} (h : srv.Kept)
    (quiet : Run.Along serve Quiet srv requests)
    (executed : Run.exec serve srv requests = some srv') : srv'.Kept :=
  Run.exec_invariant (fun _ _ _ h quiet served => (h.next quiet served).1) h quiet executed

/-- The row that `encode` finds or makes. -/
def encodedRow (codec : Codec) (term : Text) (kind : Kind) (id : Int) : DictRow :=
  ⟨codec.termHash (Dict.written codec term kind) kind, id⟩

/-- A term is encoded, and looked up after any requests that do not roll its row back: by the same
backend, or by any other once the row is committed. The lookup returns the id exactly if
normalisation has not changed the hash. -/
theorem lookupTerm_eq_some_iff {ready : Bool} {dbOid : BitVec 32} {codec : Codec} {term : Text}
    {kind : Kind} {before after : List (Fin n × Request)} {srv srv₁ srv₂ : Server n}
    (quiet : Run.Along serve Quiet (initial n ready dbOid) before)
    (reached : Run.exec serve (initial n ready dbOid) before = some srv)
    (clear : srv.Clear b (codec.termHash (Dict.written codec term kind) kind))
    (encoded : encode codec srv b term kind = some (id, srv₁))
    (retained : Run.Along serve (fun srv request => srv.Quiet request ∧
      Retains (encodedRow codec term kind id) srv request) srv₁ after)
    (executed : Run.exec serve srv₁ after = some srv₂)
    (sees : b' = b ∨ encodedRow codec term kind id ∈ srv₂.rows) :
    (lookupTerm codec srv₂ b' term kind).1 = some id ↔ Dict.KeepsHash codec (term, kind) := by
  have start : srv.Kept := Kept.exec ⟨safe_initial, numbered_initial⟩ quiet reached
  obtain ⟨extended, visible⟩ := start.safe.encodeInner clear encoded
  have kept : srv₁.Kept :=
    ⟨extended.safe, start.numbered.wrote (start.numbered.encodeInner encoded)⟩
  obtain ⟨final, mine⟩ : srv₂.Kept ∧ srv₂.Visible b (encodedRow codec term kind id) := by
    have keeps (srv : Server n) (e : Fin n × Request) (srv' : Server n)
        (h : srv.Kept ∧ srv.Visible b (encodedRow codec term kind id))
        (guarded : srv.Quiet e ∧ Retains (encodedRow codec term kind id) srv e)
        (served : serve srv e = some srv') :
        srv'.Kept ∧ srv'.Visible b (encodedRow codec term kind id) := by
      obtain ⟨after, stays⟩ := h.1.next guarded.1 served
      exact ⟨after, stays b _ h.2 guarded.2⟩
    exact Run.exec_invariant keeps ⟨kept, visible⟩ retained executed
  have seen : srv₂.Visible b' (encodedRow codec term kind id) := by
    cases sees with
    | inl same =>
        rw [same]
        exact mine
    | inr committed => exact .inl committed
  obtain ⟨-, -, -, answers⟩ := final.safe.lookupRow b' (codec.termHash term kind)
  rw [lookupTerm, answers]
  constructor
  · intro other
    obtain ⟨o, hr⟩ := seen.rowOf
    obtain ⟨o', hr'⟩ := other.rowOf
    exact congrArg DictRow.hash (final.numbered.unique o o' _ _ hr hr' rfl)
  · intro keeps
    have here : (⟨codec.termHash term kind, id⟩ : DictRow) = encodedRow codec term kind id :=
      congrArg (DictRow.mk · id) keeps.symm
    rw [here]
    exact seen

instance (srv : Server n) : DecidablePred srv.Quiet := fun request =>
  match request with
  | (b, .call call) => inferInstanceAs (Decidable (srv.Undisturbed (b, call)))
  | (_, .lookup _) => isTrue trivial

instance (r : DictRow) (srv : Server n) : DecidablePred (Retains r srv) := fun request =>
  match request with
  | (b, .call .abortSub) => inferInstanceAs (Decidable (r ∉ (srv.backends b).current.rows))
  | (b, .call .abort) => inferInstanceAs (Decidable (r ∉ (srv.backends b).uncommitted))
  | (_, .call (.encode _)) => isTrue trivial
  | (_, .call (.encodeBatch _)) => isTrue trivial
  | (_, .call (.insertTriple _)) => isTrue trivial
  | (_, .call .savepoint) => isTrue trivial
  | (_, .call .release) => isTrue trivial
  | (_, .call .commit) => isTrue trivial
  | (_, .lookup _) => isTrue trivial

/-- A codec that composes the letter `é`, as NFC does. -/
def composingCodec : Codec :=
  { Dict.letterCodec with
    normalize := fun term => if term = ['e', '\u0301'] then ['é'] else term }

local instance twoBackends : NeZero 2 := ⟨by decide⟩

/-- A backend commits, and gives up its next transaction. -/
def commitAndAbort : List (Fin 2 × Request) := [
  (0, .call .commit), (0, .call (.insertTriple [7, 8])), (1, .lookup 7), (0, .call .abort)]

/-- Another backend finds the term afterwards. -/
theorem lookupTerm_eq_some_iff_committed :
    ∃ srv₁ srv₂, encode composingCodec (initial 2 true 5) 0 ['a'] .iri = some (1, srv₁) ∧
      Run.exec serve srv₁ commitAndAbort = some srv₂ ∧
      (lookupTerm composingCodec srv₂ 1 ['a'] .iri).1 = some 1 := by
  have ends : (encode composingCodec (initial 2 true 5) 0 ['a'] .iri).any (fun x =>
      decide (x.1 = 1 ∧ Run.Along serve (fun srv request => srv.Quiet request ∧
        Retains (encodedRow composingCodec ['a'] .iri 1) srv request) x.2 commitAndAbort ∧
        (Run.exec serve x.2 commitAndAbort).any fun srv =>
          decide (encodedRow composingCodec ['a'] .iri 1 ∈ srv.rows))) = true := by
    decide +kernel
  obtain ⟨⟨id, srv₁⟩, encoded, final⟩ := (Option.any_eq_true _ _).mp ends
  obtain ⟨rfl, retained, committed⟩ := of_decide_eq_true final
  obtain ⟨srv₂, executed, row⟩ := (Option.any_eq_true _ _).mp committed
  refine ⟨srv₁, srv₂, encoded, executed, ?_⟩
  have keeps : Dict.KeepsHash composingCodec (['a'], .iri) := by
    rw [Dict.KeepsHash]
    rfl
  have quiet : Run.Along serve Quiet (initial 2 true 5) [] := trivial
  exact (lookupTerm_eq_some_iff quiet rfl (by decide) encoded retained executed
    (.inr (of_decide_eq_true row))).mpr keeps

/-- There is only the composed form of the term that is looked up. -/
theorem not_lookupTerm_eq_some :
    ¬ ∀ (codec : Codec) (n : Nat) (ready : Bool) (dbOid : BitVec 32) (b : Fin n) (term : Text)
      (kind : Kind) (id : Int) (srv : Server n),
      encode codec (initial n ready dbOid) b term kind = some (id, srv) →
      (lookupTerm codec srv b term kind).1 = some id := by
  intro promised
  have missed : (encode composingCodec (initial 1 true 5) 0 ['e', '\u0301'] .iri).any (fun x =>
      decide ((lookupTerm composingCodec x.2 0 ['e', '\u0301'] .iri).1 = none)) = true := by
    decide
  obtain ⟨⟨id, srv⟩, encoded, none⟩ := (Option.any_eq_true _ _).mp missed
  have found := promised composingCodec 1 true 5 0 _ .iri id srv encoded
  rw [of_decide_eq_true none] at found
  cases found

end Server

end PgRipple.Dictionary
