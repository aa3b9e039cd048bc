import PgRipple.Storage.Ops

/-!
# Merging delta into main

`merge_predicate` builds a fresh main table from the live main rows and `delta`,
swaps it in, empties `delta` and removes the tombstones that the build absorbed.
The phases are separate definitions, since other sessions may run between them;
`mergePredicate` is their composition when nobody does.

A tombstone counts as absorbed if its id is at most the `last_value` read at the
start, unless retention is `0`, in which case all tombstones are truncated.
-/

namespace PgRipple.Storage

namespace HtapTables

/-- `CREATE TABLE main_new AS …`, on the snapshot of that statement. -/
def buildMain (cfg : Config) (t : HtapTables) : List Row :=
  let merged := t.mainMinusTombstones ++ t.delta.rows
  if cfg.dedupOnMerge then DistinctOn.distinctOn Row.key Row.i merged else merged

/-- The rename-swap; the view is recreated over the new table, tombstone-aware. -/
def swapMain (mainNew : List Row) (t : HtapTables) : HtapTables :=
  { t with main := mainNew, view := .tombstoneAware }

/-- `TRUNCATE delta`. -/
def truncateDelta (t : HtapTables) : HtapTables :=
  { t with delta := UniqueTable.empty Row.key }

/-- The tombstones that survive the clean-up phase. -/
def survivingTombstones (cfg : Config) (maxSid : Int) (t : HtapTables) : List Tombstone :=
  if cfg.tombstoneRetentionSeconds = 0 then []
  else t.tombstones.filter fun x => ¬ x.i ≤ maxSid

/-- The clean-up phase. Once no tombstone is left the view is rebuilt in its
tombstone-skip form. -/
def clearTombstones (cfg : Config) (maxSid : Int) (t : HtapTables) : HtapTables :=
  let left := t.survivingTombstones cfg maxSid
  { t with
    tombstones := left
    view := if left.isEmpty then .tombstoneSkip else t.view }

end HtapTables

namespace Store

/-- `clearTombstones` with the reset of `tombstone_count` that goes with it. -/
def clearTombstones (cfg : Config) (maxSid : Int) (p : TermId) (st : Store) : Store :=
  let t := (st.tables p).clearTombstones cfg maxSid
  let st := st.setTables p t
  if t.tombstones.isEmpty then
    st.updatePredicate p fun r => { r with tombstoneCount := 0 }
  else st

/-- `SET triple_count = $1` at the end of a merge. -/
def setTripleCount (p : TermId) (n : Int) (st : Store) : Store :=
  st.updatePredicate p fun r => { r with tripleCount := n }

/-- `merge_predicate`: the number of rows in the new main table. -/
def mergePredicate (cfg : Config) (p : TermId) (st : Store) : Int × Store :=
  if st.isHtap p then
    let maxSid := st.seq.lastValue
    let mainNew := (st.tables p).buildMain cfg
    let st := st.setTables p ((st.tables p).swapMain mainNew)
    let st := st.setTables p (st.tables p).truncateDelta
    let st := st.clearTombstones cfg maxSid p
    (mainNew.length, st.setTripleCount p mainNew.length)
  else (0, st)

end Store

end PgRipple.Storage
