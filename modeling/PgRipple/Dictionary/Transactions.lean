import PgRipple.Lib.Run
import PgRipple.Dictionary.SharedCache
import Mathlib.Data.Fintype.Basic

/-!
# Encoding in transactions

Any number of backends encode terms, each in a transaction of its own with nested
subtransactions. An encode looks into the shared cache, then into the backend's own
cache, and then upserts a dictionary row, whose id it publishes in both caches. The
row belongs to the subtransaction that inserted it, but the shared cache shows it to
everybody at once.

When a transaction aborts, its backend evicts what it published; when a
subtransaction aborts, only the backend's own cache is cleared; a commit forgets what
was published.

Ids are safe as long as two situations do not arise: a backend encodes a term whose
row another transaction has published but not committed, and a subtransaction aborts
while the shared cache holds one of its rows.

An upsert that meets an uncommitted row of another transaction waits for its end; the
event is refused, and can be tried again later.
-/

namespace PgRipple.Dictionary

/-- A dictionary row. -/
structure DictRow where
  hash : Hash
  id : Int
  deriving DecidableEq, Repr

/-- What a transaction or subtransaction has written: dictionary rows, and rows of VP
tables as the ids of their terms. -/
structure Level where
  rows : List DictRow
  vp : List (List Int)
  deriving DecidableEq, Repr

/-- Nothing written. -/
def Level.empty : Level := ⟨[], []⟩

/-- The state of one backend. -/
structure Backend where
  /-- `ENCODE_CACHE`. -/
  encodeCache : List (Hash × Int)
  /-- `TX_SHMEM_INSERTS`, most recent first. -/
  txShmemInserts : List Hash
  /-- The innermost open subtransaction, or the transaction itself. -/
  current : Level
  /-- What encloses it, from the inside out. -/
  outer : List Level
  deriving DecidableEq, Repr

namespace Backend

/-- A backend that has just connected. -/
def fresh : Backend := ⟨[], [], .empty, []⟩

/-- All open levels. -/
def levels (be : Backend) : List Level := be.current :: be.outer

/-- The rows that the transaction has inserted and not committed. -/
def uncommitted (be : Backend) : List DictRow := be.levels.flatMap Level.rows

end Backend

/-- The server, with `n` backends. -/
structure Server (n : Nat) where
  /-- Committed dictionary rows. -/
  rows : List DictRow
  /-- Committed rows of VP tables. -/
  vp : List (List Int)
  /-- The next value of the identity column. -/
  nextId : Int
  shared : SharedCache
  backends : Fin n → Backend

namespace Server

variable {n : Nat}

/-- The server after start-up. -/
def initial (n : Nat) (ready : Bool) (dbOid : BitVec 32) : Server n where
  rows := []
  vp := []
  nextId := 1
  shared := .initial ready dbOid
  backends := fun _ => .fresh

/-- Replace the state of one backend. -/
def setBackend (srv : Server n) (b : Fin n) (be : Backend) : Server n :=
  { srv with backends := Function.update srv.backends b be }

/-- The caches as a backend sees them. -/
def tiers (srv : Server n) (b : Fin n) : Tiers := ⟨srv.shared, (srv.backends b).encodeCache⟩

/-- Change the caches that a backend sees. -/
def setTiers (srv : Server n) (b : Fin n) (t : Tiers) : Server n :=
  { srv with shared := t.shared }.setBackend b
    { srv.backends b with encodeCache := t.encodeCache }

/-- The caches' answer. -/
def lookup (srv : Server n) (b : Fin n) (hash128 : Hash) : Option Int × Server n :=
  let (found, t) := (srv.tiers b).lookup hash128
  (found, srv.setTiers b t)

/-- `INSERT … ON CONFLICT DO NOTHING`, and the id of the row that is there afterwards.
`none`: the statement has to wait for another transaction. -/
def upsert (srv : Server n) (b : Fin n) (hash128 : Hash) : Option (Int × Server n) :=
  let be := srv.backends b
  let drawn := srv.nextId
  let srv := { srv with nextId := srv.nextId + 1 }
  match (srv.rows ++ be.uncommitted).find? fun r => r.hash = hash128 with
  | some r => some (r.id, srv)
  | none =>
    if ∃ b', ∃ r ∈ (srv.backends b').uncommitted, r.hash = hash128 then none
    else
      let row : DictRow := ⟨hash128, drawn⟩
      let current := { be.current with rows := row :: be.current.rows }
      some (drawn, srv.setBackend b { be with current := current })

/-- Put a new id into both caches, and note that it was published. -/
def publish (srv : Server n) (b : Fin n) (hash128 : Hash) (id : Int) : Server n :=
  let srv := srv.setTiers b ((srv.tiers b).publish hash128 id)
  let be := srv.backends b
  srv.setBackend b { be with txShmemInserts := hash128 :: be.txShmemInserts }

/-- `encode_inner`, and with other columns `encode_typed_literal`, `encode_lang_literal`
and `encode_quoted_triple`. -/
def encodeInner (srv : Server n) (b : Fin n) (hash128 : Hash) : Option (Int × Server n) :=
  match srv.lookup b hash128 with
  | (some id, srv) => some (id, srv)
  | (none, srv) => do
    let (id, srv) ← srv.upsert b hash128
    return (id, srv.publish b hash128 id)

/-- The cache answers for all terms of a batch. -/
def lookupAll (b : Fin n) : List Hash → Server n → List (Hash × Option Int) × Server n
  | [], srv => ([], srv)
  | h :: hs, srv =>
    let (found, srv) := srv.lookup b h
    let (rest, srv) := lookupAll b hs srv
    ((h, found) :: rest, srv)

/-- The one statement that upserts all misses of a batch. -/
def upsertMisses (b : Fin n) :
    List (Hash × Option Int) → Server n → Option (List (Hash × Int) × Server n)
  | [], srv => some ([], srv)
  | (_, some _) :: rest, srv => upsertMisses b rest srv
  | (h, none) :: rest, srv => do
    let (id, srv) ← srv.upsert b h
    let (more, srv) ← upsertMisses b rest srv
    return ((h, id) :: more, srv)

/-- Answers in the order of the batch: from the caches, else from the statement. -/
def batchResults : List (Hash × Option Int) → List (Hash × Int) → List Int
  | [], _ => []
  | (_, some id) :: rest, misses => id :: batchResults rest misses
  | (_, none) :: _, [] => []
  | (_, none) :: rest, miss :: misses => miss.2 :: batchResults rest misses

/-- `encode_batch`. A miss whose hash is not reassembled from its halves is an error, and the
event is refused. -/
def encodeBatch (srv : Server n) (b : Fin n) (hashes : List Hash) :
    Option (List Int × Server n) :=
  let (found, srv) := lookupAll b hashes srv
  if found.all fun x => x.2.isSome || decide (Reassembles x.1) then do
    let (misses, srv) ← upsertMisses b found srv
    let srv := misses.foldl (fun srv miss => srv.publish b miss.1 miss.2) srv
    return (batchResults found misses, srv)
  else none

/-- Encode the terms of a VP row, one after the other. -/
def encodeEach (b : Fin n) : List Hash → Server n → Option (List Int × Server n)
  | [], srv => some ([], srv)
  | h :: hs, srv => do
    let (id, srv) ← srv.encodeInner b h
    let (ids, srv) ← encodeEach b hs srv
    return (id :: ids, srv)

/-- Insert a row into a VP table, in the innermost level. -/
def insertVp (srv : Server n) (b : Fin n) (ids : List Int) : Server n :=
  let be := srv.backends b
  srv.setBackend b { be with current := { be.current with vp := ids :: be.current.vp } }

/-- `SAVEPOINT`, or the start of an exception block. -/
def savepoint (srv : Server n) (b : Fin n) : Server n :=
  let be := srv.backends b
  srv.setBackend b { be with current := .empty, outer := be.current :: be.outer }

/-- `RELEASE`: the enclosing level takes over. -/
def release (srv : Server n) (b : Fin n) : Option (Server n) :=
  let be := srv.backends b
  match be.outer with
  | [] => none
  | enclosing :: outer =>
    some (srv.setBackend b { be with
      current := ⟨be.current.rows ++ enclosing.rows, be.current.vp ++ enclosing.vp⟩
      outer := outer })

/-- The abort of a subtransaction, with `invalidate_decode_cache`. `ROLLBACK TO` is this
for every level up to the savepoint, followed by a new `savepoint`. -/
def abortSub (srv : Server n) (b : Fin n) : Option (Server n) :=
  let be := srv.backends b
  match be.outer with
  | [] => none
  | enclosing :: outer =>
    some (srv.setBackend b { be with current := enclosing, outer := outer, encodeCache := [] })

/-- `COMMIT`, with `commit_cleanup`. -/
def commit (srv : Server n) (b : Fin n) : Server n :=
  let be := srv.backends b
  { srv with
    rows := be.uncommitted ++ srv.rows
    vp := be.levels.flatMap Level.vp ++ srv.vp }.setBackend b
    { be with current := .empty, outer := [], txShmemInserts := [] }

/-- The abort of a transaction, with `clear_caches`. -/
def abort (srv : Server n) (b : Fin n) : Server n :=
  let be := srv.backends b
  { srv with shared :=
    be.txShmemInserts.reverse.foldl SharedCache.evict srv.shared }.setBackend b .fresh

end Server

/-- What a backend may do. -/
inductive Call where
  | encode (hash128 : Hash)
  | encodeBatch (hashes : List Hash)
  /-- Encode the terms of a triple and insert it. -/
  | insertTriple (hashes : List Hash)
  | savepoint
  | release
  | abortSub
  | commit
  | abort
  deriving DecidableEq, Repr

namespace Server

variable {n : Nat}

/-- A call of a backend: the ids that it returns, and the server afterwards. -/
def perform (srv : Server n) (b : Fin n) : Call → Option (List (Hash × Int) × Server n)
  | .encode h => (srv.encodeInner b h).map fun (id, srv) => ([(h, id)], srv)
  | .encodeBatch hs => (srv.encodeBatch b hs).map fun (ids, srv) => (hs.zip ids, srv)
  | .insertTriple hs =>
    (encodeEach b hs srv).map fun (ids, srv) => (hs.zip ids, srv.insertVp b ids)
  | .savepoint => some ([], srv.savepoint b)
  | .release => (srv.release b).map fun srv => ([], srv)
  | .abortSub => (srv.abortSub b).map fun srv => ([], srv)
  | .commit => some ([], srv.commit b)
  | .abort => some ([], srv.abort b)

/-- One event of an interleaving. -/
def step (srv : Server n) (event : Fin n × Call) : Option (Server n) :=
  (srv.perform event.1 event.2).map Prod.snd

end Server

end PgRipple.Dictionary
