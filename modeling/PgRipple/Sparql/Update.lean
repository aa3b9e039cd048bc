import PgRipple.Sparql.Pattern
import PgRipple.Storage.Correctness
import Mathlib.Data.List.DropRight
import Mathlib.Data.Nat.Pairing
import Mathlib.Logic.Equiv.Nat

/-!
# `DELETE`/`INSERT WHERE`

`execute_delete_insert` evaluates the pattern once and then goes through the solutions,
instantiating the templates and executing first the deletes and then the inserts of each
solution. SPARQL asks for something else: all deletes before all inserts.

What happens to a quad depends on the order of its deletes and inserts, and on where it
lies. A dedicated predicate can hold a quad twice, in `main` and in `delta`, and a delete
takes away only one of the two. Everything is therefore said for one quad at a time, with
the list of actions that concern it.
-/

namespace PgRipple.Sparql

open Storage

/-- The store, and the rows of the dictionary that templates look up. -/
structure Database where
  store : Store
  quoted : QuotedRows

section Resolve

variable (ids : TermIds) (vars : List String) (row : ResultRow)

/-- `resolve_named_node_pattern`. -/
def resolveNamedNodePattern : NamedNodePattern → Option TermId
  | .namedNode iri => some (ids.iri iri)
  | .var v => row.get? vars v

/-- `resolve_graph_name_pattern`. -/
def resolveGraphNamePattern : GraphNamePattern → Option TermId
  | .defaultGraph => some 0
  | .namedNode iri => some (ids.iri iri)
  | .var v => row.get? vars v

/-- `resolve_ground_term`, which only looks quoted triples up. -/
def resolveGroundTerm (quoted : QuotedRows) : GroundTermPattern → Option TermId
  | .namedNode iri => some (ids.iri iri)
  | .literal lit => some (ids.literal lit)
  | .var v => row.get? vars v
  | .triple s p o => do
    let s ← resolveGroundTerm quoted s
    let p ← resolveNamedNodePattern ids vars row p
    let o ← resolveGroundTerm quoted o
    if (s, p, o) ∈ quoted then some (ids.quoted s p o) else none

/-- `resolve_term_pattern`, which encodes quoted triples. What was encoded before an
unbound variable stays. -/
def resolveTermPattern : TermPattern → QuotedRows → Option TermId × QuotedRows
  | .namedNode iri, quoted => (some (ids.iri iri), quoted)
  | .literal lit, quoted => (some (ids.literal lit), quoted)
  | .blankNode label, quoted => (some (ids.blank label), quoted)
  | .var v, quoted => (row.get? vars v, quoted)
  | .triple s p o, quoted =>
    match resolveTermPattern s quoted with
    | (none, quoted) => (none, quoted)
    | (some s, quoted) =>
      match resolveNamedNodePattern ids vars row p with
      | none => (none, quoted)
      | some p =>
        match resolveTermPattern o quoted with
        | (none, quoted) => (none, quoted)
        | (some o, quoted) => (some (ids.quoted s p o), quoted.insert (s, p, o))

/-- The quad of a delete template. -/
def resolveDelete (quoted : QuotedRows) (t : QuadPattern GroundTermPattern) : Option Quad := do
  let s ← resolveGroundTerm ids vars row quoted t.subject
  let p ← resolveNamedNodePattern ids vars row t.predicate
  let o ← resolveGroundTerm ids vars row quoted t.object
  let g ← resolveGraphNamePattern ids vars row t.graphName
  some ⟨s, p, o, g⟩

/-- The quad of an insert template. All four terms are resolved, whether or not an
earlier one is unbound. -/
def resolveInsert (t : QuadPattern TermPattern) (quoted : QuotedRows) :
    Option Quad × QuotedRows :=
  let (s, quoted) := resolveTermPattern ids vars row t.subject quoted
  let p := resolveNamedNodePattern ids vars row t.predicate
  let (o, quoted) := resolveTermPattern ids vars row t.object quoted
  let g := resolveGraphNamePattern ids vars row t.graphName
  ((do some ⟨← s, ← p, ← o, ← g⟩), quoted)

end Resolve

section Execute

variable (session : Session) (ids : TermIds) (deletes : List (QuadPattern GroundTermPattern))
  (inserts : List (QuadPattern TermPattern)) (vars : List String)

/-- The deletes of one solution. -/
def executeDelete (row : ResultRow) (db : Database) (t : QuadPattern GroundTermPattern) :
    Database :=
  match resolveDelete ids vars row db.quoted t with
  | some q => { db with store := (Store.deleteTripleByIds session q db.store).2 }
  | none => db

/-- The inserts of one solution. -/
def executeInsert (row : ResultRow) (db : Database) (t : QuadPattern TermPattern) : Database :=
  match resolveInsert ids vars row t db.quoted with
  | (some q, quoted) => ⟨(Store.insertEncodedTriple session q db.store).2, quoted⟩
  | (none, quoted) => { db with quoted := quoted }

/-- One solution: its deletes, then its inserts. -/
def executeRow (db : Database) (row : ResultRow) : Database :=
  inserts.foldl (executeInsert session ids vars row)
    (deletes.foldl (executeDelete session ids vars row) db)

/-- `execute_delete_insert`, for the solutions in the order in which they come. -/
def executeDeleteInsert (rows : List ResultRow) (db : Database) : Database :=
  rows.foldl (executeRow session ids deletes inserts vars) db

end Execute

section Instantiate

variable (ids : TermIds) (vars : List String) (row : ResultRow)

/-- The term that a delete template stands for, known to the dictionary or not. -/
def GroundTermPattern.instantiate : GroundTermPattern → Option TermId
  | .namedNode iri => some (ids.iri iri)
  | .literal lit => some (ids.literal lit)
  | .var v => row.get? vars v
  | .triple s p o => do
    let s ← s.instantiate
    let p ← resolveNamedNodePattern ids vars row p
    let o ← o.instantiate
    some (ids.quoted s p o)

/-- The term that an insert template stands for. -/
def TermPattern.instantiate : TermPattern → Option TermId
  | .namedNode iri => some (ids.iri iri)
  | .literal lit => some (ids.literal lit)
  | .blankNode label => some (ids.blank label)
  | .var v => row.get? vars v
  | .triple s p o => do
    let s ← s.instantiate
    let p ← resolveNamedNodePattern ids vars row p
    let o ← o.instantiate
    some (ids.quoted s p o)

/-- The quad that a template stands for, given what its terms stand for. -/
def QuadPattern.instantiate {τ : Type} (term : τ → Option TermId) (t : QuadPattern τ) :
    Option Quad := do
  let s ← term t.subject
  let p ← resolveNamedNodePattern ids vars row t.predicate
  let o ← term t.object
  let g ← resolveGraphNamePattern ids vars row t.graphName
  some ⟨s, p, o, g⟩

/-- The quads that one solution deletes. -/
def deletedBy (deletes : List (QuadPattern GroundTermPattern)) : List Quad :=
  deletes.filterMap fun t =>
    t.instantiate ids vars row fun x => x.instantiate ids vars row

/-- The quads that one solution inserts. -/
def insertedBy (inserts : List (QuadPattern TermPattern)) : List Quad :=
  inserts.filterMap fun t =>
    t.instantiate ids vars row fun x => x.instantiate ids vars row

end Instantiate

/-- The visible quads afterwards are those of before without the deleted ones, and the
inserted ones. -/
def Snapshot (st st' : Store) (deleted inserted : List Quad) : Prop :=
  ∀ q, st'.Visible q ↔ (st.Visible q ∧ q ∉ deleted) ∨ q ∈ inserted

inductive Act where
  | delete
  | insert
  deriving DecidableEq, Repr

/-- A delete or an insert of a quad. -/
structure QuadOp where
  act : Act
  quad : Quad
  deriving DecidableEq, Repr

/-- The deletes and inserts of an update in the order of execution. -/
def quadOps (ids : TermIds) (deletes : List (QuadPattern GroundTermPattern))
    (inserts : List (QuadPattern TermPattern)) (vars : List String)
    (rows : List ResultRow) : List QuadOp :=
  rows.flatMap fun row =>
    (deletedBy ids vars row deletes).map (⟨.delete, ·⟩) ++
      (insertedBy ids vars row inserts).map (⟨.insert, ·⟩)

/-- The actions that concern one quad. -/
def actsOn (q : Quad) (ops : List QuadOp) : List Act :=
  (ops.filter fun op => op.quad = q).map QuadOp.act

/-- Every delete meets the quad in `delta` or `vp_rare`: it is there at the beginning, or
was inserted since the last delete. -/
def deletesMeetCopy : Bool → List Act → Bool
  | _, [] => true
  | _, .insert :: acts => deletesMeetCopy true acts
  | copy, .delete :: acts => copy && deletesMeetCopy false acts

/-- The actions up to the last insert. -/
def uptoLastInsert (acts : List Act) : List Act := acts.rdropWhile fun a => a = .delete

/-- The number of deletes after the last insert. -/
def deletesAfter (acts : List Act) : Nat := acts.length - (uptoLastInsert acts).length

/-- The actions on a quad leave it as they should. `main` says that the quad is visible in
the main table, `copy` that it is in `delta` or `vp_rare`. -/
def Settles (main copy : Bool) (acts : List Act) : Prop :=
  if .insert ∈ acts then
    deletesAfter acts = 0 ∨
      (deletesAfter acts = 1 ∧ main = true ∧ deletesMeetCopy copy (uptoLastInsert acts) = true)
  else acts.length ≠ 1 ∨ (main && copy) = false

instance (main copy : Bool) (acts : List Act) : Decidable (Settles main copy acts) :=
  inferInstanceAs (Decidable (ite _ _ _))

/-- What an action makes of the two places of a quad. -/
def Act.places : Bool × Bool → Act → Bool × Bool
  | (main, _), .insert => (main, true)
  | (main, copy), .delete => (main && copy, false)

section Places

variable {main copy : Bool} {acts : List Act}

theorem places_replicate_delete (n : Nat) :
    (List.replicate (n + 2) Act.delete).foldl Act.places (main, copy) = (false, false) := by
  induction n generalizing main copy with
  | zero => simp [List.replicate, Act.places]
  | succ n ih =>
    rw [List.replicate_succ, List.foldl_cons]
    exact ih

/-- Deletes leave the main table alone as long as they meet another copy. -/
theorem main_places :
    (acts.foldl Act.places (main, copy)).1 = (main && deletesMeetCopy copy acts) := by
  induction acts generalizing main copy with
  | nil => simp [deletesMeetCopy]
  | cons a acts ih =>
    cases a with
    | insert => exact ih
    | delete =>
      rw [List.foldl_cons, Act.places, ih, deletesMeetCopy, Bool.and_assoc]

/-- Actions are those up to the last insert and some deletes. -/
theorem acts_eq_append_replicate (acts : List Act) :
    acts = uptoLastInsert acts ++ List.replicate (deletesAfter acts) .delete := by
  have split : uptoLastInsert acts ++ acts.rtakeWhile (fun a => a = .delete) = acts :=
    List.rdropWhile_append_rtakeWhile
  have onlyDeletes : acts.rtakeWhile (fun a => a = .delete) =
      List.replicate (acts.rtakeWhile (fun a => a = .delete)).length .delete := by
    refine List.eq_replicate_of_mem fun a ha => ?_
    simpa using List.mem_rtakeWhile_imp ha
  have count : (acts.rtakeWhile (fun a => a = .delete)).length = deletesAfter acts := by
    have lengths := congrArg List.length split
    rw [List.length_append] at lengths
    rw [deletesAfter]
    omega
  rw [count] at onlyDeletes
  rw [← onlyDeletes]
  exact split.symm

theorem uptoLastInsert_eq_nil_iff : uptoLastInsert acts = [] ↔ .insert ∉ acts := by
  rw [uptoLastInsert, List.rdropWhile_eq_nil_iff]
  constructor
  · intro h inserted
    simpa using h _ inserted
  · intro h a ha
    cases a with
    | delete => rfl
    | insert => exact absurd ha h

/-- If there is an insert, the actions up to the last one end with it. -/
theorem exists_uptoLastInsert (inserted : .insert ∈ acts) :
    ∃ before, uptoLastInsert acts = before ++ [.insert] := by
  have nonempty : uptoLastInsert acts ≠ [] := fun h => uptoLastInsert_eq_nil_iff.mp h inserted
  refine ⟨(uptoLastInsert acts).dropLast, ?_⟩
  have last : (uptoLastInsert acts).getLast nonempty = .insert := by
    have stops := List.rdropWhile_last_not (fun a => decide (a = Act.delete)) acts nonempty
    cases found : (uptoLastInsert acts).getLast nonempty with
    | insert => rfl
    | delete =>
      exfalso
      apply stops
      rw [decide_eq_true_eq]
      exact found
  rw [← last]
  exact (List.dropLast_append_getLast nonempty).symm

theorem deletesMeetCopy_append_insert :
    deletesMeetCopy copy (acts ++ [.insert]) = deletesMeetCopy copy acts := by
  induction acts generalizing copy with
  | nil => rfl
  | cons a acts ih =>
    cases a with
    | insert => exact ih
    | delete => rw [List.cons_append, deletesMeetCopy, deletesMeetCopy, ih]

/-- The quad is visible in the end exactly if it should be, if and only if its actions
settle it. -/
theorem visible_places_iff :
    (((acts.foldl Act.places (main, copy)).1 || (acts.foldl Act.places (main, copy)).2) = true ↔
      ((main || copy) = true ∧ .delete ∉ acts) ∨ .insert ∈ acts) ↔
    Settles main copy acts := by
  rw [Settles]
  split
  · rename_i inserted
    obtain ⟨before, upto⟩ := exists_uptoLastInsert inserted
    have afterInsert : (uptoLastInsert acts).foldl Act.places (main, copy) =
        (main && deletesMeetCopy copy (uptoLastInsert acts), true) := by
      rw [upto, List.foldl_append, deletesMeetCopy_append_insert, ← main_places]
      rfl
    have final : acts.foldl Act.places (main, copy) =
        (List.replicate (deletesAfter acts) .delete).foldl Act.places
          (main && deletesMeetCopy copy (uptoLastInsert acts), true) := by
      conv_lhs => rw [acts_eq_append_replicate acts]
      rw [List.foldl_append, afterInsert]
    rw [final]
    simp only [inserted, or_true, iff_true]
    match deletesAfter acts with
    | 0 => simp
    | 1 => simp [Act.places]
    | n + 2 =>
      rw [places_replicate_delete]
      simp
  · rename_i notInserted
    have onlyDeletes : acts = List.replicate acts.length .delete := by
      refine List.eq_replicate_of_mem fun a ha => ?_
      cases a with
      | delete => rfl
      | insert => exact absurd ha notInserted
    simp only [notInserted, or_false]
    match h : acts.length with
    | 0 =>
      cases List.eq_nil_of_length_eq_zero h
      simp
    | 1 =>
      rw [h] at onlyDeletes
      rw [onlyDeletes]
      cases main <;> cases copy <;> simp [Act.places]
    | n + 2 =>
      rw [h] at onlyDeletes
      rw [onlyDeletes, places_replicate_delete]
      simp

end Places

/-- A visible row of the main table. -/
def MainCopy (st : Store) (q : Quad) : Prop :=
  (st.tables q.p).InMain q.key ∧ ¬ (st.tables q.p).InTombstones q.key

/-- A row of `delta` or `vp_rare`. -/
def OtherCopy (st : Store) (q : Quad) : Prop :=
  (st.tables q.p).InDelta q.key ∨ st.rare.HasKey q

instance (st : Store) (q : Quad) : Decidable (MainCopy st q) :=
  inferInstanceAs (Decidable (_ ∧ _))

instance (st : Store) (q : Quad) : Decidable (OtherCopy st q) :=
  inferInstanceAs (Decidable (_ ∨ _))

/-- The two places of a quad. -/
def placesOf (st : Store) (q : Quad) : Bool × Bool :=
  (decide (MainCopy st q), decide (OtherCopy st q))

section Storage

variable {st : Store} {session : Session} {q q' : Quad}

theorem otherCopy_iff_inDelta (h : st.Layout) (hp : st.isDedicated q.p = true) :
    OtherCopy st q ↔ (st.tables q.p).InDelta q.key := by
  refine or_iff_left fun hq => ?_
  have := h.rare q hq
  simp [hp] at this

theorem otherCopy_iff_rare (h : st.Layout) (hp : st.isDedicated q.p = false) :
    OtherCopy st q ↔ st.rare.HasKey q := by
  refine or_iff_right ?_
  rw [(h.unusedAt hp).tables]
  exact HtapTables.not_inDelta_fresh _

theorem not_mainCopy (h : st.Layout) (hp : st.isDedicated q.p = false) : ¬ MainCopy st q := by
  rw [MainCopy, (h.unusedAt hp).tables]
  exact fun main => HtapTables.not_inMain_fresh _ main.1

theorem visible_iff_placesOf (h : st.Inv) :
    st.Visible q ↔ ((placesOf st q).1 || (placesOf st q).2) = true := by
  simp only [placesOf, Bool.or_eq_true, decide_eq_true_eq]
  cases hp : st.isDedicated q.p with
  | true =>
    rw [otherCopy_iff_inDelta h.toLayout hp]
    exact h.visible_iff hp rfl
  | false =>
    rw [otherCopy_iff_rare h.toLayout hp, Store.Visible, hp]
    simp [not_mainCopy h.toLayout hp]

theorem mainCopy_deleteQuad (h : st.Layout) :
    MainCopy (Store.deleteQuad session q st).2 q' ↔
      MainCopy st q' ∧ (q' = q → OtherCopy st q) := by
  by_cases same : q'.p = q.p
  · have named : q'.key = q.key ↔ q' = q := ⟨Quad.ext_key same, congrArg Quad.key⟩
    cases hp : st.isDedicated q.p with
    | true =>
      rw [MainCopy, MainCopy, same, Store.tables_deleteQuad_of_dedicated hp,
        otherCopy_iff_inDelta h hp]
      by_cases present : (st.tables q.p).InDelta q.key
      · rw [Store.tables_deleteFromDedicated_of_inDelta present]
        simp only [present, implies_true, and_true]
        exact Iff.rfl
      · rw [(h.dedicatedAt hp).tables_deleteFromDedicated present]
        have tombstones :
            ((st.insertTombstones session q.p [q.key]).tables q.p).InTombstones q'.key ↔
              (st.tables q.p).InTombstones q'.key ∨ q'.key = q.key := by
          rw [Store.inTombstones_insertTombstones, List.mem_singleton]
        simp only [present, imp_false, ← named]
        rw [Store.tables_insertTombstones] at tombstones ⊢
        refine Iff.trans (and_congr Iff.rfl ((not_congr tombstones).trans not_or)) ?_
        exact and_assoc.symm
    | false =>
      have before : ¬ MainCopy st q' := not_mainCopy h (same ▸ hp)
      have after : ¬ MainCopy (Store.deleteQuad session q st).2 q' := by
        refine not_mainCopy h.deleteQuad ?_
        rw [same]
        exact (h.unusedAt hp).deleteQuad.dedicated
      simp [before, after]
  · have other : q' ≠ q := fun h => same (congrArg Quad.p h)
    rw [MainCopy, Store.onlyAt_deleteQuad.tables q'.p same]
    simp [other, MainCopy]

theorem otherCopy_deleteQuad (h : st.Layout) :
    OtherCopy (Store.deleteQuad session q st).2 q' ↔ OtherCopy st q' ∧ q' ≠ q := by
  rw [OtherCopy, OtherCopy, Store.rare_deleteQuad, or_and_right]
  refine or_congr ?_ Iff.rfl
  by_cases same : q'.p = q.p
  · have named : q'.key = q.key ↔ q' = q := ⟨Quad.ext_key same, congrArg Quad.key⟩
    rw [same]
    cases hp : st.isDedicated q.p with
    | true =>
      rw [Store.tables_deleteQuad_of_dedicated hp]
      by_cases present : (st.tables q.p).InDelta q.key
      · rw [Store.tables_deleteFromDedicated_of_inDelta present, ne_eq, ← named]
        have deleted := UniqueTable.hasKey_deleteWhere (t := (st.tables q.p).delta) (k := q'.key)
          fun x => decide (x = q.key)
        simpa [HtapTables.InDelta] using deleted
      · rw [(h.dedicatedAt hp).tables_deleteFromDedicated present, Store.tables_insertTombstones]
        refine (and_iff_left_of_imp ?_).symm
        rintro found rfl
        exact present found
    | false =>
      rw [(h.unusedAt hp).tables, (h.unusedAt hp).deleteQuad.tables]
      simp
  · have other : q' ≠ q := fun h => same (congrArg Quad.p h)
    rw [Store.onlyAt_deleteQuad.tables q'.p same]
    simp [other]

theorem mainCopy_insertEncodedTriple (h : st.Layout) :
    MainCopy (Store.insertEncodedTriple session q st).2 q' ↔ MainCopy st q' := by
  by_cases same : q'.p = q.p
  · cases hp : st.isDedicated q.p with
    | true =>
      rw [MainCopy, MainCopy, same]
      simp only [Store.insertEncodedTriple, hp, if_true, Store.tables_insertIntoDelta]
      exact Iff.rfl
    | false =>
      have before : ¬ MainCopy st q' := not_mainCopy h (same ▸ hp)
      have after : ¬ MainCopy (Store.insertEncodedTriple session q st).2 q' := by
        refine not_mainCopy h.insertEncodedTriple ?_
        rw [same, Store.insertEncodedTriple, hp]
        exact (h.unusedAt hp).insertIntoVpRare.dedicated
      exact iff_of_false after before
  · rw [MainCopy, Store.onlyAt_insertEncodedTriple.tables q'.p same]
    exact Iff.rfl

theorem otherCopy_insertEncodedTriple (h : st.Layout) :
    OtherCopy (Store.insertEncodedTriple session q st).2 q' ↔ OtherCopy st q' ∨ q' = q := by
  by_cases same : q'.p = q.p
  · have named : q'.key = q.key ↔ q' = q := ⟨Quad.ext_key same, congrArg Quad.key⟩
    cases hp : st.isDedicated q.p with
    | true =>
      have delta : ((Store.insertEncodedTriple session q st).2.tables q.p).InDelta q'.key ↔
          (st.tables q.p).InDelta q'.key ∨ q' = q := by
        simp only [Store.insertEncodedTriple, hp, if_true, Store.tables_insertIntoDelta,
          HtapTables.InDelta, UniqueTable.hasKey_upsert, named]
      have rare : (Store.insertEncodedTriple session q st).2.rare = st.rare := by
        simp only [Store.insertEncodedTriple, hp, if_true]
        rfl
      rw [OtherCopy, OtherCopy, same, delta, rare, or_right_comm]
    | false =>
      have after : (Store.insertEncodedTriple session q st).2.isDedicated q'.p = false := by
        rw [same, Store.insertEncodedTriple, hp]
        exact (h.unusedAt hp).insertIntoVpRare.dedicated
      rw [otherCopy_iff_rare h.insertEncodedTriple after, otherCopy_iff_rare h (same ▸ hp),
        Store.insertEncodedTriple, hp]
      exact Store.rare_insertIntoVpRare
  · have other : q' ≠ q := fun h => same (congrArg Quad.p h)
    have rare : (Store.insertEncodedTriple session q st).2.rare.HasKey q' ↔ st.rare.HasKey q' := by
      simp only [Store.insertEncodedTriple]
      split
      · exact Iff.rfl
      · rw [Store.rare_insertIntoVpRare]
        simp [other]
    rw [OtherCopy, OtherCopy, Store.onlyAt_insertEncodedTriple.tables q'.p same, rare]
    simp [other]

end Storage

/-- Execute one delete or insert. -/
def QuadOp.apply (session : Session) (st : Store) (op : QuadOp) : Store :=
  match op.act with
  | .delete => (Store.deleteTripleByIds session op.quad st).2
  | .insert => (Store.insertEncodedTriple session op.quad st).2

section Apply

variable {st : Store} {session : Session} {op : QuadOp} {q : Quad}

theorem QuadOp.inv_apply (h : st.Inv) : (op.apply session st).Inv := by
  rw [QuadOp.apply]
  split
  · exact h.deleteQuad
  · exact h.insertEncodedTriple

/-- An operation acts on the places of its own quad and on no others. -/
theorem QuadOp.placesOf_apply (h : st.Layout) :
    placesOf (op.apply session st) q =
      if op.quad = q then op.act.places (placesOf st q) else placesOf st q := by
  rw [QuadOp.apply]
  cases op.act with
  | delete =>
    simp only [placesOf, Store.deleteTripleByIds, mainCopy_deleteQuad h, otherCopy_deleteQuad h]
    by_cases same : op.quad = q
    · simp [same, Act.places]
    · have other : q ≠ op.quad := fun h => same h.symm
      simp [same, other]
  | insert =>
    simp only [placesOf, mainCopy_insertEncodedTriple h, otherCopy_insertEncodedTriple h]
    by_cases same : op.quad = q
    · simp [same, Act.places]
    · have other : q ≠ op.quad := fun h => same h.symm
      simp [same, other]

end Apply

/-- Only ids that the dictionary has handed out are stored, and they are the ids of
quoted triples only if these have rows. -/
structure Grounded (ids : TermIds) (db : Database) : Prop where
  stored : ∀ q, db.store.Visible q → ids.Known db.quoted q.s ∧ ids.Known db.quoted q.o
  closed : ∀ s p o, (s, p, o) ∈ db.quoted → ids.Known db.quoted s ∧ ids.Known db.quoted o

/-- The same for the values of a solution. -/
def RowKnown (ids : TermIds) (quoted : QuotedRows) (row : ResultRow) : Prop :=
  ∀ id, some id ∈ row → ids.Known quoted id

section Templates

variable {ids : TermIds} {vars : List String} {row : ResultRow} {quoted quoted' : QuotedRows}
  {id : TermId}

theorem RowKnown.get? (h : RowKnown ids quoted row) {v : String}
    (found : row.get? vars v = some id) : ids.Known quoted id := by
  obtain ⟨i, -, found⟩ := Option.bind_eq_some_iff.mp found
  obtain ⟨cell, at?, rfl⟩ := Option.bind_eq_some_iff.mp found
  exact h id (List.mem_of_getElem? at?)

/-- Resolving a delete template finds what the template stands for, unless that is
unknown to the dictionary. -/
theorem resolveGroundTerm_cases (vars : List String) (row : ResultRow)
    (closed : ∀ s p o, (s, p, o) ∈ quoted → ids.Known quoted s ∧ ids.Known quoted o)
    (t : GroundTermPattern) :
    resolveGroundTerm ids vars row quoted t = t.instantiate ids vars row ∨
      (resolveGroundTerm ids vars row quoted t = none ∧
        ∀ id, t.instantiate ids vars row = some id → ¬ ids.Known quoted id) := by
  induction t with
  | namedNode iri => exact .inl rfl
  | literal lit => exact .inl rfl
  | var v => exact .inl rfl
  | triple s p o ihS ihO =>
    simp only [resolveGroundTerm, GroundTermPattern.instantiate]
    cases ihS with
    | inr unknown =>
      refine .inr ⟨by simp [unknown.1], ?_⟩
      intro id found known
      obtain ⟨sId, hs, found⟩ := Option.bind_eq_some_iff.mp found
      obtain ⟨pId, -, found⟩ := Option.bind_eq_some_iff.mp found
      obtain ⟨oId, -, found⟩ := Option.bind_eq_some_iff.mp found
      have row := known sId pId oId (Option.some.inj found)
      exact unknown.2 sId hs (closed _ _ _ row).1
    | inl resolvedS =>
      rw [resolvedS]
      cases ihO with
      | inr unknown =>
        refine .inr ⟨by simp [unknown.1], ?_⟩
        intro id found known
        obtain ⟨sId, -, found⟩ := Option.bind_eq_some_iff.mp found
        obtain ⟨pId, -, found⟩ := Option.bind_eq_some_iff.mp found
        obtain ⟨oId, ho, found⟩ := Option.bind_eq_some_iff.mp found
        have row := known sId pId oId (Option.some.inj found)
        exact unknown.2 oId ho (closed _ _ _ row).2
      | inl resolvedO =>
        rw [resolvedO]
        cases s.instantiate ids vars row with
        | none => exact .inl rfl
        | some sId =>
          cases resolveNamedNodePattern ids vars row p with
          | none => exact .inl rfl
          | some pId =>
            cases o.instantiate ids vars row with
            | none => exact .inl rfl
            | some oId =>
              by_cases row : (sId, pId, oId) ∈ quoted
              · exact .inl (by simp [row])
              · refine .inr ⟨by simp [row], ?_⟩
                intro id found known
                exact row (known sId pId oId (Option.some.inj found))

/-- What encoding a template may do to the dictionary. -/
structure Extends (ids : TermIds) (quoted quoted' : QuotedRows) : Prop where
  more : quoted ⊆ quoted'
  closed : ∀ s p o, (s, p, o) ∈ quoted' → ids.Known quoted' s ∧ ids.Known quoted' o

theorem Extends.trans {quoted'' : QuotedRows} (h : Extends ids quoted quoted')
    (h' : Extends ids quoted' quoted'') : Extends ids quoted quoted'' :=
  ⟨fun _ hx => h'.more (h.more hx), h'.closed⟩

theorem RowKnown.mono (h : RowKnown ids quoted row) (more : quoted ⊆ quoted') :
    RowKnown ids quoted' row := by
  intro id hid
  exact (h id hid).mono more

/-- A row for a quoted triple of known components. -/
theorem Extends.insert (closed : ∀ s p o, (s, p, o) ∈ quoted →
      ids.Known quoted s ∧ ids.Known quoted o) {s p o : TermId} (hs : ids.Known quoted s)
    (ho : ids.Known quoted o) : Extends ids quoted (quoted.insert (s, p, o)) := by
  have more : quoted ⊆ quoted.insert (s, p, o) := fun _ hx => List.mem_insert_of_mem hx
  refine ⟨more, ?_⟩
  intro s' p' o' mem
  cases List.mem_insert_iff.mp mem with
  | inl new =>
    cases new
    exact ⟨hs.mono more, ho.mono more⟩
  | inr old => exact ⟨(closed _ _ _ old).1.mono more, (closed _ _ _ old).2.mono more⟩

/-- Encoding a template gives what it stands for, and the dictionary knows it then. -/
theorem resolveTermPattern_spec (vars : List String) (t : TermPattern) :
    ∀ {quoted : QuotedRows}, RowKnown ids quoted row →
      (∀ s p o, (s, p, o) ∈ quoted → ids.Known quoted s ∧ ids.Known quoted o) →
      (resolveTermPattern ids vars row t quoted).1 = t.instantiate ids vars row ∧
      Extends ids quoted (resolveTermPattern ids vars row t quoted).2 ∧
      ∀ id, t.instantiate ids vars row = some id →
        ids.Known (resolveTermPattern ids vars row t quoted).2 id := by
  induction t with
  | namedNode iri =>
    intro quoted _ closed
    refine ⟨rfl, ⟨fun _ hx => hx, closed⟩, ?_⟩
    rintro id found s p o rfl
    exact absurd (Option.some.inj found) (ids.iri_ne_quoted iri s p o)
  | blankNode label =>
    intro quoted _ closed
    refine ⟨rfl, ⟨fun _ hx => hx, closed⟩, ?_⟩
    rintro id found s p o rfl
    exact absurd (Option.some.inj found) (ids.blank_ne_quoted label s p o)
  | literal lit =>
    intro quoted _ closed
    refine ⟨rfl, ⟨fun _ hx => hx, closed⟩, ?_⟩
    rintro id found s p o rfl
    exact absurd (Option.some.inj found) (ids.literal_ne_quoted lit s p o)
  | var v =>
    intro quoted known closed
    exact ⟨rfl, ⟨fun _ hx => hx, closed⟩, fun id found => known.get? found⟩
  | triple s p o ihS ihO =>
    intro quoted known closed
    obtain ⟨resultS, extendsS, knownS⟩ := ihS known closed
    rcases encodedS : resolveTermPattern ids vars row s quoted with ⟨sId?, quotedS⟩
    rw [encodedS] at resultS extendsS knownS
    simp only [resolveTermPattern, TermPattern.instantiate, encodedS]
    cases sId? with
    | none =>
      have unbound : s.instantiate ids vars row = none := resultS.symm
      simp [unbound, extendsS]
    | some sId =>
      have boundS : s.instantiate ids vars row = some sId := resultS.symm
      cases resolveNamedNodePattern ids vars row p with
      | none => simp [boundS, extendsS]
      | some pId =>
        obtain ⟨resultO, extendsO, knownO⟩ := ihO (known.mono extendsS.more) extendsS.closed
        rcases encodedO : resolveTermPattern ids vars row o quotedS with ⟨oId?, quotedO⟩
        rw [encodedO] at resultO extendsO knownO
        simp only [encodedO]
        cases oId? with
        | none =>
          have unbound : o.instantiate ids vars row = none := resultO.symm
          simp [boundS, unbound, extendsS.trans extendsO]
        | some oId =>
          have boundO : o.instantiate ids vars row = some oId := resultO.symm
          have grown : Extends ids quotedO (quotedO.insert (sId, pId, oId)) :=
            Extends.insert extendsO.closed ((knownS sId boundS).mono extendsO.more)
              (knownO oId boundO)
          refine ⟨by simp [boundS, boundO], (extendsS.trans extendsO).trans grown, ?_⟩
          intro id found s' p' o' same
          have here : ids.quoted sId pId oId = id := by simpa [boundS, boundO] using found
          obtain ⟨rfl, rfl, rfl⟩ := ids.quoted_inj (same.trans here.symm)
          exact List.mem_insert_self

/-- The same for a whole delete template. -/
theorem resolveDelete_cases (vars : List String) (row : ResultRow)
    (closed : ∀ s p o, (s, p, o) ∈ quoted → ids.Known quoted s ∧ ids.Known quoted o)
    (t : QuadPattern GroundTermPattern) :
    resolveDelete ids vars row quoted t =
        t.instantiate ids vars row (fun x => x.instantiate ids vars row) ∨
      (resolveDelete ids vars row quoted t = none ∧
        ∀ q, t.instantiate ids vars row (fun x => x.instantiate ids vars row) = some q →
          ¬ (ids.Known quoted q.s ∧ ids.Known quoted q.o)) := by
  simp only [resolveDelete, QuadPattern.instantiate]
  cases resolveGroundTerm_cases vars row closed t.subject with
  | inr unknown =>
    refine .inr ⟨by simp [unknown.1], ?_⟩
    intro q found known
    obtain ⟨s, hs, found⟩ := Option.bind_eq_some_iff.mp found
    obtain ⟨p, -, found⟩ := Option.bind_eq_some_iff.mp found
    obtain ⟨o, -, found⟩ := Option.bind_eq_some_iff.mp found
    obtain ⟨g, -, found⟩ := Option.bind_eq_some_iff.mp found
    cases found
    exact unknown.2 s hs known.1
  | inl resolvedS =>
    cases resolveGroundTerm_cases vars row closed t.object with
    | inr unknown =>
      refine .inr ⟨by simp [unknown.1], ?_⟩
      intro q found known
      obtain ⟨s, -, found⟩ := Option.bind_eq_some_iff.mp found
      obtain ⟨p, -, found⟩ := Option.bind_eq_some_iff.mp found
      obtain ⟨o, ho, found⟩ := Option.bind_eq_some_iff.mp found
      obtain ⟨g, -, found⟩ := Option.bind_eq_some_iff.mp found
      cases found
      exact unknown.2 o ho known.2
    | inl resolvedO =>
      rw [resolvedS, resolvedO]
      exact .inl rfl

/-- The same for a whole insert template. -/
theorem resolveInsert_spec (vars : List String) (known : RowKnown ids quoted row)
    (closed : ∀ s p o, (s, p, o) ∈ quoted → ids.Known quoted s ∧ ids.Known quoted o)
    (t : QuadPattern TermPattern) :
    (resolveInsert ids vars row t quoted).1 =
        t.instantiate ids vars row (fun x => x.instantiate ids vars row) ∧
      Extends ids quoted (resolveInsert ids vars row t quoted).2 ∧
      ∀ q, t.instantiate ids vars row (fun x => x.instantiate ids vars row) = some q →
        ids.Known (resolveInsert ids vars row t quoted).2 q.s ∧
          ids.Known (resolveInsert ids vars row t quoted).2 q.o := by
  obtain ⟨resultS, extendsS, knownS⟩ :=
    resolveTermPattern_spec vars t.subject known closed
  obtain ⟨resultO, extendsO, knownO⟩ := resolveTermPattern_spec vars t.object
    (known.mono extendsS.more) extendsS.closed
  refine ⟨?_, extendsS.trans extendsO, ?_⟩
  · simp only [resolveInsert, QuadPattern.instantiate, resultS, resultO]
  · intro q found
    obtain ⟨s, hs, found⟩ := Option.bind_eq_some_iff.mp found
    obtain ⟨p, -, found⟩ := Option.bind_eq_some_iff.mp found
    obtain ⟨o, ho, found⟩ := Option.bind_eq_some_iff.mp found
    obtain ⟨g, -, found⟩ := Option.bind_eq_some_iff.mp found
    cases found
    exact ⟨(knownS s hs).mono extendsO.more, knownO o ho⟩

end Templates

section Update

variable {session : Session} {ids : TermIds} {deletes : List (QuadPattern GroundTermPattern)}
  {inserts : List (QuadPattern TermPattern)} {vars : List String} {rows : List ResultRow}
  {row : ResultRow} {start db : Database} {ops : List QuadOp} {q : Quad}

/-- The database is where the operations lead from the one at the start. -/
structure Follows (ids : TermIds) (start : Database) (ops : List QuadOp) (db : Database) :
    Prop where
  inv : db.store.Inv
  grounded : Grounded ids db
  more : start.quoted ⊆ db.quoted
  places : ∀ q, placesOf db.store q = (actsOn q ops).foldl Act.places (placesOf start.store q)

theorem actsOn_append (ops' : List QuadOp) :
    actsOn q (ops ++ ops') = actsOn q ops ++ actsOn q ops' := by
  rw [actsOn, List.filter_append, List.map_append]
  rfl

theorem Follows.apply (h : Follows ids start ops db) (op : QuadOp) (q : Quad) :
    placesOf (op.apply session db.store) q =
      (actsOn q (ops ++ [op])).foldl Act.places (placesOf start.store q) := by
  rw [QuadOp.placesOf_apply h.inv.toLayout, h.places, actsOn_append, List.foldl_append]
  by_cases same : op.quad = q
  · simp [actsOn, same]
  · simp [actsOn, same]

/-- A delete of an unknown quad, which is skipped, would not change anything. -/
theorem Follows.skip (h : Follows ids start ops db) {q : Quad}
    (unknown : ¬ (ids.Known db.quoted q.s ∧ ids.Known db.quoted q.o)) :
    Follows ids start (ops ++ [⟨.delete, q⟩]) db := by
  refine ⟨h.inv, h.grounded, h.more, ?_⟩
  intro q'
  rw [actsOn_append, List.foldl_append, ← h.places]
  by_cases same : q = q'
  · subst same
    have hidden : ¬ ((placesOf db.store q).1 || (placesOf db.store q).2) = true := by
      rw [← visible_iff_placesOf h.inv]
      exact fun visible => unknown (h.grounded.stored q visible)
    rw [Bool.not_eq_true, Bool.or_eq_false_iff] at hidden
    have nowhere : placesOf db.store q = (false, false) := Prod.ext hidden.1 hidden.2
    rw [nowhere]
    simp [actsOn, Act.places]
  · simp [actsOn, same]

theorem Follows.executeDelete (h : Follows ids start ops db)
    (t : QuadPattern GroundTermPattern) :
    Follows ids start (ops ++ (deletedBy ids vars row [t]).map (⟨.delete, ·⟩))
      (executeDelete session ids vars row db t) := by
  rw [Sparql.executeDelete, deletedBy]
  cases resolveDelete_cases vars row h.grounded.closed t with
  | inl resolved =>
    rw [resolved]
    cases found : t.instantiate ids vars row (fun x => x.instantiate ids vars row) with
    | none => simpa [found] using h
    | some q =>
      simp only [List.filterMap_cons, found, List.filterMap_nil, List.map_cons, List.map_nil]
      refine ⟨h.inv.deleteQuad, ⟨?_, h.grounded.closed⟩, h.more, h.apply ⟨.delete, q⟩⟩
      intro q' shown
      have visible : ((⟨.delete, q⟩ : QuadOp).apply session db.store).Visible q' := shown
      refine h.grounded.stored q' ?_
      rw [visible_iff_placesOf h.inv]
      rw [visible_iff_placesOf (QuadOp.inv_apply h.inv),
        QuadOp.placesOf_apply h.inv.toLayout] at visible
      by_cases same : q = q'
      · simp only [same, if_true, Act.places, Bool.or_false, Bool.and_eq_true] at visible
        simp [visible.1]
      · simpa [same] using visible
  | inr skipped =>
    rw [skipped.1]
    cases found : t.instantiate ids vars row (fun x => x.instantiate ids vars row) with
    | none => simpa [found] using h
    | some q => simpa [found] using h.skip (skipped.2 q found)

theorem Follows.executeInsert (h : Follows ids start ops db)
    (known : RowKnown ids start.quoted row) (t : QuadPattern TermPattern) :
    Follows ids start (ops ++ (insertedBy ids vars row [t]).map (⟨.insert, ·⟩))
      (executeInsert session ids vars row db t) := by
  rw [Sparql.executeInsert, insertedBy]
  obtain ⟨result, grown, knownQuad⟩ :=
    resolveInsert_spec vars (known.mono h.more) h.grounded.closed t
  rcases resolved : resolveInsert ids vars row t db.quoted with ⟨q?, quoted⟩
  rw [resolved] at result grown knownQuad
  have stored (q' : Quad) (visible : db.store.Visible q') :
      ids.Known quoted q'.s ∧ ids.Known quoted q'.o :=
    ⟨(h.grounded.stored q' visible).1.mono grown.more,
      (h.grounded.stored q' visible).2.mono grown.more⟩
  cases q? with
  | none =>
    have unbound : t.instantiate ids vars row (fun x => x.instantiate ids vars row) = none :=
      result.symm
    simp only [List.filterMap_cons, unbound, List.filterMap_nil, List.map_nil, List.append_nil]
    exact ⟨h.inv, ⟨stored, grown.closed⟩, fun _ hx => grown.more (h.more hx), h.places⟩
  | some q =>
    have bound : t.instantiate ids vars row (fun x => x.instantiate ids vars row) = some q :=
      result.symm
    simp only [List.filterMap_cons, bound, List.filterMap_nil, List.map_cons, List.map_nil]
    refine ⟨h.inv.insertEncodedTriple, ⟨?_, grown.closed⟩, fun _ hx => grown.more (h.more hx),
      h.apply ⟨.insert, q⟩⟩
    intro q' shown
    have visible : ((⟨.insert, q⟩ : QuadOp).apply session db.store).Visible q' := shown
    by_cases same : q = q'
    · subst same
      exact knownQuad q bound
    · refine stored q' ?_
      rw [visible_iff_placesOf h.inv]
      rw [visible_iff_placesOf (QuadOp.inv_apply h.inv),
        QuadOp.placesOf_apply h.inv.toLayout] at visible
      simpa [same] using visible

theorem Follows.executeRow (h : Follows ids start ops db)
    (known : RowKnown ids start.quoted row) :
    Follows ids start (ops ++ quadOps ids deletes inserts vars [row])
      (executeRow session ids deletes inserts vars db row) := by
  have deleted : Follows ids start (ops ++ (deletedBy ids vars row deletes).map (⟨.delete, ·⟩))
      (deletes.foldl (Sparql.executeDelete session ids vars row) db) := by
    induction deletes generalizing ops db with
    | nil => simpa [deletedBy] using h
    | cons t deletes ih =>
      have first : Follows ids start (ops ++ (deletedBy ids vars row [t]).map (⟨.delete, ·⟩))
          (Sparql.executeDelete session ids vars row db t) := h.executeDelete t
      have rest := ih first
      rw [List.append_assoc, ← List.map_append, deletedBy, deletedBy, ← List.filterMap_append]
        at rest
      exact rest
  have inserted (ops : List QuadOp) (db : Database) (h : Follows ids start ops db) :
      Follows ids start (ops ++ (insertedBy ids vars row inserts).map (⟨.insert, ·⟩))
        (inserts.foldl (Sparql.executeInsert session ids vars row) db) := by
    clear deleted
    induction inserts generalizing ops db with
    | nil => simpa [insertedBy] using h
    | cons t inserts ih =>
      have first : Follows ids start (ops ++ (insertedBy ids vars row [t]).map (⟨.insert, ·⟩))
          (Sparql.executeInsert session ids vars row db t) := h.executeInsert known t
      have rest := ih _ _ first
      rw [List.append_assoc, ← List.map_append, insertedBy, insertedBy, ← List.filterMap_append]
        at rest
      exact rest
  have both := inserted _ _ deleted
  rw [List.append_assoc] at both
  simpa [quadOps, Sparql.executeRow] using both

theorem Follows.executeDeleteInsert (h : Follows ids start ops db)
    (known : ∀ row ∈ rows, RowKnown ids start.quoted row) :
    Follows ids start (ops ++ quadOps ids deletes inserts vars rows)
      (executeDeleteInsert session ids deletes inserts vars rows db) := by
  induction rows generalizing ops db with
  | nil => simpa [quadOps, Sparql.executeDeleteInsert] using h
  | cons row rows ih =>
    have first : Follows ids start (ops ++ quadOps ids deletes inserts vars [row])
        (Sparql.executeRow session ids deletes inserts vars db row) :=
      h.executeRow (known row List.mem_cons_self)
    have rest := ih first fun row' hrow' => known row' (List.mem_cons_of_mem row hrow')
    rw [List.append_assoc] at rest
    simpa [quadOps, Sparql.executeDeleteInsert] using rest

@[simp] theorem mem_actsOn {a : Act} : a ∈ actsOn q ops ↔ ⟨a, q⟩ ∈ ops := by
  rw [actsOn, List.mem_map]
  constructor
  · rintro ⟨⟨a', q'⟩, hop, rfl⟩
    obtain ⟨mem, same⟩ := List.mem_filter.mp hop
    cases of_decide_eq_true same
    exact mem
  · intro hop
    exact ⟨⟨a, q⟩, List.mem_filter.mpr ⟨hop, decide_eq_true rfl⟩, rfl⟩

theorem delete_mem_quadOps :
    ⟨.delete, q⟩ ∈ quadOps ids deletes inserts vars rows ↔
      q ∈ rows.flatMap fun row => deletedBy ids vars row deletes := by
  simp [quadOps]

theorem insert_mem_quadOps :
    ⟨.insert, q⟩ ∈ quadOps ids deletes inserts vars rows ↔
      q ∈ rows.flatMap fun row => insertedBy ids vars row inserts := by
  simp [quadOps]

/-- On every store that some run reaches and whose views in the skip form have no
tombstones, an update has snapshot semantics exactly if its actions settle every quad
that they touch. -/
theorem executeDeleteInsert_snapshot_iff {allowed : Op → Prop}
    (reachable : Store.Reachable allowed db.store)
    (clean : ∀ p, (db.store.tables p).view = .tombstoneSkip → (db.store.tables p).tombstones = [])
    (grounded : Grounded ids db) (known : ∀ row ∈ rows, RowKnown ids db.quoted row) :
    Snapshot db.store (executeDeleteInsert session ids deletes inserts vars rows db).store
        (rows.flatMap fun row => deletedBy ids vars row deletes)
        (rows.flatMap fun row => insertedBy ids vars row inserts) ↔
      ∀ op ∈ quadOps ids deletes inserts vars rows,
        Settles (MainCopy db.store op.quad) (OtherCopy db.store op.quad)
          (actsOn op.quad (quadOps ids deletes inserts vars rows)) := by
  have inv : db.store.Inv := ⟨reachable.layout, clean⟩
  have begins : Follows ids db [] db := ⟨inv, grounded, fun _ hx => hx, fun _ => rfl⟩
  have ends : Follows ids db (quadOps ids deletes inserts vars rows)
      (executeDeleteInsert session ids deletes inserts vars rows db) :=
    begins.executeDeleteInsert known
  have each (q : Quad) :
      ((executeDeleteInsert session ids deletes inserts vars rows db).store.Visible q ↔
        (db.store.Visible q ∧ q ∉ rows.flatMap fun row => deletedBy ids vars row deletes) ∨
          q ∈ rows.flatMap fun row => insertedBy ids vars row inserts) ↔
      Settles (MainCopy db.store q) (OtherCopy db.store q)
        (actsOn q (quadOps ids deletes inserts vars rows)) := by
    rw [← delete_mem_quadOps, ← insert_mem_quadOps, ← mem_actsOn, ← mem_actsOn,
      visible_iff_placesOf ends.inv, visible_iff_placesOf inv, ends.places q]
    exact visible_places_iff
  constructor
  · intro snapshot op _
    exact (each op.quad).mp (snapshot op.quad)
  · intro settles q
    refine (each q).mpr ?_
    by_cases touched : ∃ op ∈ quadOps ids deletes inserts vars rows, op.quad = q
    · obtain ⟨op, hop, rfl⟩ := touched
      exact settles op hop
    · have none : actsOn q (quadOps ids deletes inserts vars rows) = [] := by
        rw [actsOn, List.map_eq_nil_iff, List.filter_eq_nil_iff]
        intro op hop same
        exact touched ⟨op, hop, of_decide_eq_true same⟩
      rw [none, Settles]
      simp

end Update

theorem idsByLength_known {quoted : QuotedRows} {id : TermId} (h : 0 ≤ id) :
    idsByLength.Known quoted id := by
  intro s p o same
  have negative : Int.negSucc (tripleCode s p o) = id := same
  exact absurd (negative ▸ h) (Int.not_le.mpr (Int.negSucc_lt_zero _))

theorem idsByLength_rowKnown {quoted : QuotedRows} {rows : List ResultRow}
    (h : (rows.all fun row => row.all fun cell => cell.all fun id => decide (0 ≤ id)) = true) :
    ∀ row ∈ rows, RowKnown idsByLength quoted row := by
  intro row hrow id hid
  have cells := List.all_eq_true.mp (List.all_eq_true.mp h row hrow) _ hid
  exact idsByLength_known (of_decide_eq_true cells)

/-- The chain `11 – 12 – 13 – 14` over predicate `1`. -/
def chain : Database where
  store := Store.run [.insertEncodedTriple 0 ⟨11, 1, 12, 0⟩, .insertEncodedTriple 0 ⟨12, 1, 13, 0⟩,
    .insertEncodedTriple 0 ⟨13, 1, 14, 0⟩] Store.initial
  quoted := []

theorem chain_grounded : Grounded idsByLength chain := by
  refine ⟨?_, fun _ _ _ h => nomatch h⟩
  intro q visible
  have none : chain.store.dedicatedPredicates = [] := by decide
  rw [Store.visible_iff_mem_rare none] at visible
  have ids : (chain.store.rare.rows.map RareRow.quad).all
      (fun q => decide (0 ≤ q.s) && decide (0 ≤ q.o)) = true := by decide
  have positive := List.all_eq_true.mp ids q visible
  simp only [Bool.and_eq_true, decide_eq_true_eq] at positive
  exact ⟨idsByLength_known positive.1, idsByLength_known positive.2⟩

theorem chain_reachable : Store.Reachable Op.NotDrop chain.store :=
  ⟨_, by simp [Op.NotDrop], rfl⟩

/-- `DELETE { ?a <p> ?b } INSERT { ?b <p> ?c }`, for the solutions of
`?a <p> ?b . ?b <p> ?c` in the given order. -/
def shiftChain (rows : List ResultRow) : Store :=
  (executeDeleteInsert 0 idsByLength [⟨.var "a", .namedNode "p", .var "b", .defaultGraph⟩]
    [⟨.var "b", .namedNode "p", .var "c", .defaultGraph⟩] ["a", "b", "c"] rows chain).store

/-- With the later link first, no inserted quad is deleted afterwards. -/
theorem executeDeleteInsert_snapshot_shiftChain :
    Snapshot chain.store (shiftChain [[some 12, some 13, some 14], [some 11, some 12, some 13]])
      [⟨12, 1, 13, 0⟩, ⟨11, 1, 12, 0⟩] [⟨13, 1, 14, 0⟩, ⟨12, 1, 13, 0⟩] := by
  have clean := chain_reachable.inv.clean
  refine (executeDeleteInsert_snapshot_iff chain_reachable clean chain_grounded ?_).mpr ?_
  · exact idsByLength_rowKnown (by decide)
  · decide

/-- With the earlier link first, the link that it inserts is deleted again. -/
theorem not_executeDeleteInsert_snapshot :
    ¬ ∀ (session : Session) (ids : TermIds) (deletes : List (QuadPattern GroundTermPattern))
      (inserts : List (QuadPattern TermPattern)) (vars : List String) (rows : List ResultRow)
      (db : Database), Store.Reachable Op.NotDrop db.store → Grounded ids db →
      (∀ row ∈ rows, RowKnown ids db.quoted row) →
      Snapshot db.store (executeDeleteInsert session ids deletes inserts vars rows db).store
        (rows.flatMap fun row => deletedBy ids vars row deletes)
        (rows.flatMap fun row => insertedBy ids vars row inserts) := by
  intro promised
  have snapshot := promised 0 idsByLength [⟨.var "a", .namedNode "p", .var "b", .defaultGraph⟩]
    [⟨.var "b", .namedNode "p", .var "c", .defaultGraph⟩] ["a", "b", "c"]
    [[some 11, some 12, some 13], [some 12, some 13, some 14]] chain chain_reachable
    chain_grounded (idsByLength_rowKnown (by decide)) ⟨12, 1, 13, 0⟩
  have inserted : (⟨12, 1, 13, 0⟩ : Quad) ∈
      [[some 11, some 12, some 13], [some 12, some 13, some 14]].flatMap fun row =>
        insertedBy idsByLength ["a", "b", "c"] row
          [⟨.var "b", .namedNode "p", .var "c", .defaultGraph⟩] := by decide
  have gone : ¬ (shiftChain [[some 11, some 12, some 13], [some 12, some 13, some 14]]).Visible
      ⟨12, 1, 13, 0⟩ := by decide +kernel
  exact gone (snapshot.mpr (.inr inserted))

end PgRipple.Sparql
