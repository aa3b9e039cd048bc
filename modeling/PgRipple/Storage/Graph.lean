import PgRipple.Storage.Ops

/-!
# Emptying a graph

`clear_graph_by_id` and `drop_graph` walk over all dedicated predicates, remove
the graph's rows from `delta` and tombstone its rows in `main`, and finally
delete from `vp_rare`. The loop body is shared up to one difference: only
`clear_graph_by_id` maintains `tombstone_count` and, with it, the form of the
view.
-/

namespace PgRipple.Storage.Store

/-- The statements both loops issue for one predicate: the number of delta rows
deleted, the number of tombstones written, and the store. -/
def removeGraphRows (session : Session) (g p : TermId) (st : Store) : Int × Int × Store :=
  let t := st.tables p
  let inDelta := (t.delta.rows.filter fun r => r.key.g = g).length
  let inMain := (t.main.filter fun r => r.key.g = g).map Row.key
  let st := st.setTables p { t with delta := t.delta.deleteWhere fun r => r.key.g = g }
  let st := st.insertTombstones session p inMain
  (inDelta, inMain.length, st.subtractTripleCount p (inDelta + inMain.length))

/-- One round of the loop in `clear_graph_by_id`. -/
def clearGraphIn (session : Session) (g : TermId) (acc : Int × Store) (p : TermId) :
    Int × Store :=
  let (dDelta, dMain, st) := removeGraphRows session g p acc.2
  (acc.1 + (dDelta + dMain), if 0 < dMain then st.addTombstoneCount p dMain else st)

/-- One round of the loop in `drop_graph`. -/
def dropGraphIn (session : Session) (g : TermId) (acc : Int × Store) (p : TermId) :
    Int × Store :=
  let (dDelta, dMain, st) := removeGraphRows session g p acc.2
  (acc.1 + (dDelta + dMain), st)

/-- `DELETE FROM vp_rare WHERE g = $1`; the catalog counters are not adjusted. -/
def removeGraphFromVpRare (g : TermId) (acc : Int × Store) : Int × Store :=
  let removed := (acc.2.rare.rows.filter fun r => r.quad.g = g).length
  (acc.1 + removed, { acc.2 with rare := acc.2.rare.deleteWhere fun r => r.quad.g = g })

/-- `clear_graph_by_id`: the number of rows deleted. -/
def clearGraphById (session : Session) (g : TermId) (st : Store) : Int × Store :=
  removeGraphFromVpRare g (st.dedicatedPredicates.foldl (clearGraphIn session g) (0, st))

/-- `drop_graph`, applied to the encoded graph. -/
def dropGraph (session : Session) (g : TermId) (st : Store) : Int × Store :=
  removeGraphFromVpRare g (st.dedicatedPredicates.foldl (dropGraphIn session g) (0, st))

end PgRipple.Storage.Store
