import PgRipple.Storage.Insert
import PgRipple.Storage.Delete
import PgRipple.Storage.GraphEffect
import PgRipple.Storage.MergeEffect

/-!
# Sequential runs

`Op` lists the storage operations with all their arguments, the settings in force
included, and `run` executes a list of them one after the other on a fresh
store. `Reachable allowed` restricts the operations that may occur.

Every operation keeps `Layout`, and every operation except `drop_graph` keeps `Inv`.
-/

namespace PgRipple.Storage

/-- A call of a storage operation. -/
inductive Op where
  | insertTriple (cfg : Config) (session : Session) (q : Quad)
  | insertEncodedTriple (session : Session) (q : Quad)
  | batchInsertEncoded (session : Session) (p : TermId) (keys : List Key)
  | deleteTriple (session : Session) (q : Quad)
  | deleteTripleByIds (session : Session) (q : Quad)
  | promotePredicate (p : TermId)
  | mergePredicate (cfg : Config) (p : TermId)
  | clearGraphById (session : Session) (g : TermId)
  | dropGraph (session : Session) (g : TermId)

/-- The store after a call. -/
def Op.apply : Op → Store → Store
  | .insertTriple cfg session q, st => (Store.insertTriple cfg session q st).2
  | .insertEncodedTriple session q, st => (Store.insertEncodedTriple session q st).2
  | .batchInsertEncoded session p keys, st => (Store.batchInsertEncoded session p keys st).2
  | .deleteTriple session q, st => (Store.deleteTriple session q st).2
  | .deleteTripleByIds session q, st => (Store.deleteTripleByIds session q st).2
  | .promotePredicate p, st => st.promotePredicate p
  | .mergePredicate cfg p, st => (Store.mergePredicate cfg p st).2
  | .clearGraphById session g, st => (Store.clearGraphById session g st).2
  | .dropGraph session g, st => (Store.dropGraph session g st).2

/-- The calls that keep the skip form of the view to predicates without tombstones. -/
def Op.NotDrop : Op → Prop
  | .dropGraph _ _ => False
  | _ => True

/-- Calls that write, delete, promote or merge, but leave graphs as a whole alone. -/
def Op.NotGraph : Op → Prop
  | .clearGraphById _ _ => False
  | .dropGraph _ _ => False
  | _ => True

theorem Op.NotGraph.notDrop {op : Op} (h : op.NotGraph) : op.NotDrop := by
  cases op with
  | dropGraph => exact h
  | _ => trivial

namespace Store

/-- Execute calls one after the other. -/
def run (ops : List Op) (st : Store) : Store := ops.foldl (fun st op => op.apply st) st

/-- Some sequence of allowed calls leads from the fresh store to `st`. -/
def Reachable (allowed : Op → Prop) (st : Store) : Prop :=
  ∃ ops : List Op, (∀ op ∈ ops, allowed op) ∧ run ops initial = st

theorem layout_initial : initial.Layout where
  predicate _ := .inr ⟨rfl, rfl, rfl⟩
  rare q hq := absurd hq (UniqueTable.not_hasKey_empty q)

/-- Nothing is visible in the fresh store. -/
theorem not_visible_initial (q : Quad) : ¬ initial.Visible q := by
  rintro (⟨dedicated, -⟩ | rare)
  · cases dedicated
  · exact UniqueTable.not_hasKey_empty q rare

theorem inv_initial : initial.Inv where
  toLayout := layout_initial
  clean _ _ := rfl

variable {st : Store}

theorem Layout.apply (h : st.Layout) (op : Op) : (op.apply st).Layout := by
  cases op with
  | insertTriple cfg session q => exact h.insertTriple
  | insertEncodedTriple session q => exact h.insertEncodedTriple
  | batchInsertEncoded session p keys => exact h.batchInsertEncoded
  | deleteTriple session q => exact h.deleteQuad
  | deleteTripleByIds session q => exact h.deleteQuad
  | promotePredicate p => exact h.promotePredicate
  | mergePredicate cfg p => exact h.mergePredicate
  | clearGraphById session g => exact h.clearGraphById
  | dropGraph session g => exact h.dropGraph

theorem Inv.apply (h : st.Inv) {op : Op} (allowed : op.NotDrop) : (op.apply st).Inv := by
  cases op with
  | insertTriple cfg session q => exact h.insertTriple
  | insertEncodedTriple session q => exact h.insertEncodedTriple
  | batchInsertEncoded session p keys => exact h.batchInsertEncoded
  | deleteTriple session q => exact h.deleteQuad
  | deleteTripleByIds session q => exact h.deleteQuad
  | promotePredicate p => exact h.promotePredicate
  | mergePredicate cfg p => exact h.mergePredicate
  | clearGraphById session g => exact h.clearGraphById
  | dropGraph session g => exact allowed.elim

theorem Reachable.mono {allowed allowed' : Op → Prop} (h : ∀ op, allowed op → allowed' op)
    (reachable : Reachable allowed st) : Reachable allowed' st := by
  obtain ⟨ops, hops, rfl⟩ := reachable
  exact ⟨ops, fun op hop => h op (hops op hop), rfl⟩

/-- Every state of every run is laid out consistently. -/
theorem Reachable.layout {allowed : Op → Prop} (h : Reachable allowed st) : st.Layout := by
  obtain ⟨ops, -, rfl⟩ := h
  exact List.foldlRecOn ops _ layout_initial fun st kept op _ => kept.apply op

/-- In every run without `drop_graph`, the skip form implies that there is nothing
to skip. -/
theorem Reachable.inv (h : Reachable Op.NotDrop st) : st.Inv := by
  obtain ⟨ops, hops, rfl⟩ := h
  exact List.foldlRecOn ops _ inv_initial fun st kept op hop => kept.apply (hops op hop)

end Store

end PgRipple.Storage
