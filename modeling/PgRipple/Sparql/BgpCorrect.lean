import PgRipple.Sparql.Bgp
import Mathlib.Data.List.Perm.Basic

/-!
# Basic graph patterns return their solutions

The rows of a translated basic graph pattern are compared with its solution mappings. A
solution assigns an id to every variable and every blank node, so that each pattern
becomes a triple of the data.

The order in which patterns are placed and the repetitions that are dropped do not
matter, since only the set of patterns does. What matters is that different variables and
blank nodes are bound under different names: the name of a blank node keeps only letters,
digits and underscores of its label.
-/

namespace PgRipple.Sparql

open Storage

/-- A variable or a blank node. -/
inductive Slot where
  | var (v : String)
  | blank (label : String)
  deriving DecidableEq, Repr

/-- The name under which it is bound. -/
def Slot.name (env : Env) : Slot → String
  | .var v => v
  | .blank label => env.blankName label

def TermPattern.slot? : TermPattern → Option Slot
  | .var v => some (.var v)
  | .blankNode label => some (.blank label)
  | _ => none

def NamedNodePattern.slot? : NamedNodePattern → Option Slot
  | .var v => some (.var v)
  | .namedNode _ => none

def TriplePattern.slots (tp : TriplePattern) : List Slot :=
  tp.subject.slot?.toList ++ tp.predicate.slot?.toList ++ tp.object.slot?.toList

/-- The variables and blank nodes of a basic graph pattern. -/
def slotsOf (patterns : List TriplePattern) : List Slot :=
  (patterns.flatMap TriplePattern.slots).dedup

/-- The id that a term stands for; a constant that is not in the dictionary has none. -/
def TermPattern.denote (env : Env) (μ : Slot → TermId) : TermPattern → Option TermId
  | .var v => some (μ (.var v))
  | .blankNode label => some (μ (.blank label))
  | t => groundTermId env t

def NamedNodePattern.denote (env : Env) (μ : Slot → TermId) : NamedNodePattern → Option TermId
  | .var v => some (μ (.var v))
  | .namedNode iri => env.lookupIri iri

/-- The data has this triple in a graph that is asked for. -/
def HasTriple (env : Env) (st : Store) (graphFilter : Option TermId) (s p o : TermId) : Prop :=
  ∃ g, graphCondition graphFilter (env.serviceExcl graphFilter) g = true ∧ st.Visible ⟨s, p, o, g⟩

/-- The assignment turns every pattern into a triple of the data. -/
def Solution (env : Env) (st : Store) (graphFilter : Option TermId)
    (patterns : List TriplePattern) (μ : Slot → TermId) : Prop :=
  ∀ tp ∈ patterns, ∃ s p o, tp.subject.denote env μ = some s ∧
    tp.predicate.denote env μ = some p ∧ tp.object.denote env μ = some o ∧
    HasTriple env st graphFilter s p o

/-- The rows of a fragment, as values of the variables and blank nodes. -/
def slotValues (env : Env) (db : Db) (frag : Fragment) (patterns : List TriplePattern) :
    List (List Value) :=
  (frag.joined db).map fun j => (slotsOf patterns).map fun x => frag.value db j (x.name env)

/-- The rows are the solutions, each of them once. -/
structure ReturnsSolutions (env : Env) (db : Db) (graphFilter : Option TermId)
    (patterns : List TriplePattern) (frag : Fragment) : Prop where
  once : (slotValues env db frag patterns).Nodup
  solutions : ∀ values, values ∈ slotValues env db frag patterns ↔
    ∃ μ, values = (slotsOf patterns).map (fun x => some (μ x)) ∧
      Solution env db.store graphFilter patterns μ

/-- Neither the subject nor the object is a quoted triple. -/
def TriplePattern.Plain (tp : TriplePattern) : Prop :=
  (∀ s p o, tp.subject ≠ .triple s p o) ∧ ∀ s p o, tp.object ≠ .triple s p o

/-- `vp_source`, as the catalog has it. -/
def catalogSource (st : Store) (p : TermId) : VpSource :=
  match st.tableOid p with
  | some true => .dedicated p
  | some false => .rare p
  | none => .empty

/-- The triples of each predicate lie where the catalog says, and the translator sees the
catalog as it is. -/
structure CatalogRight (env : Env) (st : Store) : Prop where
  source : ∀ p, env.vpSource p = catalogSource st p
  union : ∀ preds, env.unionPredicates = some preds → preds = st.dedicatedPredicates
  rare : ∀ q, st.rare.HasKey q → st.tableOid q.p = some false

/-- All triples that are asked for lie in one graph. -/
def SingleGraph (env : Env) (st : Store) (graphFilter : Option TermId) : Prop :=
  ∀ q q', st.Visible q → st.Visible q' →
    graphCondition graphFilter (env.serviceExcl graphFilter) q.g = true →
    graphCondition graphFilter (env.serviceExcl graphFilter) q'.g = true → q.g = q'.g

section Sources

variable {env : Env} {db : Db} {graphFilter : Option TermId} {svcExcl : List TermId}

theorem nodup_viewKeys (st : Store) (p : TermId) : (viewKeys st p).Nodup :=
  DistinctOn.nodup_map_key_distinctOn _

theorem nodup_rareKeys (st : Store) (p : TermId) : (rareKeys st p).Nodup := by
  have quads : ((st.rare.rows.filter fun r => r.quad.p = p).map RareRow.quad).Nodup :=
    st.rare.unique.sublist (List.filter_sublist.map _)
  have keys : rareKeys st p =
      ((st.rare.rows.filter fun r => r.quad.p = p).map RareRow.quad).map Quad.key := by
    rw [List.map_map]
    rfl
  rw [keys]
  refine quads.map_on ?_
  intro q hq q' hq' same
  obtain ⟨r, hr, rfl⟩ := List.mem_map.mp hq
  obtain ⟨r', hr', rfl⟩ := List.mem_map.mp hq'
  have hp : r.quad.p = p := of_decide_eq_true (List.mem_filter.mp hr).2
  have hp' : r'.quad.p = p := of_decide_eq_true (List.mem_filter.mp hr').2
  exact Quad.ext_key (hp.trans hp'.symm) same

theorem tripleRow_injective : Function.Injective tripleRow := by
  intro k k' same
  cases k
  cases k'
  simpa [tripleRow] using same

theorem quadRow_injective : Function.Injective quadRow := by
  intro q q' same
  cases q
  cases q'
  simp only [quadRow, List.cons.injEq, Prod.mk.injEq, Option.some.injEq, true_and, and_true]
    at same
  obtain ⟨rfl, rfl, rfl, rfl⟩ := same
  rfl

/-- A predicate's source has exactly its visible triples. -/
theorem mem_tableExpr (right : CatalogRight env db.store) {p : TermId} {k : Key} :
    k ∈ tableExpr db.store (env.vpSource p) graphFilter svcExcl ↔
      graphCondition graphFilter svcExcl k.g = true ∧ db.store.Visible (k.quad p) := by
  rw [right.source, catalogSource, Store.Visible, Key.quad_p, Key.quad_key,
    Store.isDedicated_iff_tableOid]
  cases oid : db.store.tableOid p with
  | none =>
    have absent : ¬ db.store.rare.HasKey (k.quad p) := by
      intro hq
      have := right.rare _ hq
      rw [Key.quad_p, oid] at this
      cases this
    simp [tableExpr, absent]
  | some has =>
    cases has with
    | true =>
      have absent : ¬ db.store.rare.HasKey (k.quad p) := by
        intro hq
        have := right.rare _ hq
        rw [Key.quad_p, oid] at this
        cases this
      simp only [tableExpr, List.mem_filter, absent, or_false, true_and]
      exact and_comm
    | false =>
      simp only [tableExpr, List.mem_filter, mem_rareKeys, Option.some.injEq, Bool.false_eq_true,
        false_and, false_or]
      exact and_comm

theorem nodup_tableExpr {src : VpSource} :
    (tableExpr db.store src graphFilter svcExcl).Nodup := by
  cases src with
  | dedicated p => exact (nodup_viewKeys _ _).filter _
  | rare p => exact (nodup_rareKeys _ _).filter _
  | empty => exact List.nodup_nil

/-- The union has exactly the visible quads. -/
theorem mem_unionQuads (right : CatalogRight env db.store) {preds : List TermId}
    (found : env.unionPredicates = some preds) {q : Quad} :
    q ∈ unionQuads preds db.store graphFilter svcExcl ↔
      graphCondition graphFilter svcExcl q.g = true ∧ db.store.Visible q := by
  rw [right.union preds found, unionQuads, List.mem_filter, List.mem_append, List.mem_flatMap,
    and_comm, Store.Visible]
  refine and_congr_right fun _ => or_congr ?_ Iff.rfl
  constructor
  · rintro ⟨p, hp, mem⟩
    obtain ⟨k, hk, rfl⟩ := List.mem_map.mp mem
    exact ⟨Store.mem_dedicatedPredicates.mp hp, hk⟩
  · rintro ⟨dedicated, shown⟩
    exact ⟨q.p, Store.mem_dedicatedPredicates.mpr dedicated,
      List.mem_map.mpr ⟨q.key, shown, q.key_quad⟩⟩

theorem nodup_unionQuads (right : CatalogRight env db.store) {preds : List TermId}
    (found : env.unionPredicates = some preds) :
    (unionQuads preds db.store graphFilter svcExcl).Nodup := by
  rw [right.union preds found, unionQuads]
  refine List.Nodup.filter _ (List.nodup_append.mpr ⟨?_, db.store.rare.unique, ?_⟩)
  · refine List.nodup_flatMap.mpr ⟨?_, ?_⟩
    · intro p _
      refine (nodup_viewKeys _ _).map ?_
      intro k k' same
      exact congrArg Quad.key same
    · refine (db.store.nodup_dedicatedPredicates).imp ?_
      intro p p' different q hq hq'
      obtain ⟨k, _, rfl⟩ := List.mem_map.mp hq
      obtain ⟨k', _, same⟩ := List.mem_map.mp hq'
      exact different (congrArg Quad.p same).symm
  · rintro q hq q' hq' rfl
    obtain ⟨p, hp, mem⟩ := List.mem_flatMap.mp hq
    obtain ⟨k, _, rfl⟩ := List.mem_map.mp mem
    have rare := right.rare _ hq'
    have dedicated := Store.isDedicated_iff_tableOid.mp (Store.mem_dedicatedPredicates.mp hp)
    rw [Key.quad_p, dedicated] at rare
    cases rare

end Sources

/-- A term at a column of a `FROM` item. -/
structure Occurrence where
  n : Alias
  c : Col
  t : TermPattern

/-- The column has the value of the term. -/
def Occurrence.Fits (env : Env) (μ : Slot → TermId) (j : Joined) (x : Occurrence) : Prop :=
  ∃ id, j.col x.n x.c = some id ∧ x.t.denote env μ = some id

/-- What a joined row assigns to the variables and blank nodes. -/
def assigned (env : Env) (bindings : List (String × ColExpr)) (db : Db) (j : Joined) (x : Slot) :
    TermId :=
  ((bindings.lookup (x.name env)).bind fun e => e db j).getD 0

/-- The bindings and conditions say that some terms are at some columns. -/
structure Binds.Says (env : Env) (xs : List Occurrence) (b : Binds) : Prop where
  bound : ∀ name, (b.bindings.lookup name).isSome = true →
    ∃ x ∈ xs, x.t.slot?.map (Slot.name env) = some name
  slots : ∀ x ∈ xs, ∀ y, x.t.slot? = some y → (b.bindings.lookup (y.name env)).isSome = true
  sound : ∀ db j, (∀ x ∈ xs, (j.col x.n x.c).isSome = true) →
    (∀ c ∈ b.conditions, c db j = true) →
    ∀ x ∈ xs, x.Fits env (assigned env b.bindings db j) j
  complete : (∀ x ∈ xs, ∀ x' ∈ xs, ∀ y y', x.t.slot? = some y → x'.t.slot? = some y' →
      y.name env = y'.name env → y = y') →
    ∀ db j μ, (∀ x ∈ xs, x.Fits env μ j) → (∀ c ∈ b.conditions, c db j = true) ∧
      ∀ x ∈ xs, ∀ y, x.t.slot? = some y →
        ((b.bindings.lookup (y.name env)).bind fun e => e db j) = some (μ y)

namespace Binds

variable {env : Env} {xs : List Occurrence} {b : Binds}

theorem Says.nil : Says env [] ⟨[], []⟩ where
  bound _ h := nomatch h
  slots _ h := nomatch h
  sound _ _ _ _ _ h := nomatch h
  complete _ _ _ _ _ := by
    refine ⟨?_, ?_⟩
    · intro _ h
      cases h
    · intro _ h
      cases h

theorem lookup_append_new {bindings : List (String × ColExpr)} {name name' : String} {e : ColExpr}
    (new : bindings.lookup name = none) :
    (bindings ++ [(name, e)]).lookup name' =
      if name' = name then some e else bindings.lookup name' := by
  rw [List.lookup_append]
  by_cases same : name' = name
  · simp [same, new]
  · have other : (name' == name) = false := by simpa using same
    simp [same, List.lookup_cons, other]

/-- A term that is bound to nothing only adds a condition. -/
theorem Says.require (h : Says env xs b) {x : Occurrence} (ground : x.t.slot? = none) {c : Cond}
    (means : ∀ db j μ, c db j = true ↔ x.Fits env μ j) :
    Says env (xs ++ [x]) (b.require c) where
  bound name hname := by
    obtain ⟨y, hy, named⟩ := h.bound name hname
    exact ⟨y, List.mem_append_left _ hy, named⟩
  slots y hy z hz := by
    obtain old | new := List.mem_append.mp hy
    · exact h.slots y old z hz
    · cases List.mem_singleton.mp new
      rw [ground] at hz
      cases hz
  sound db j columns holds y hy := by
    obtain old | new := List.mem_append.mp hy
    · refine h.sound db j (fun x hx => columns x (List.mem_append_left _ hx)) ?_ y old
      exact fun c hc => holds c (List.mem_append_left _ hc)
    · cases List.mem_singleton.mp new
      exact (means db j _).mp (holds c (List.mem_append_right _ (List.mem_singleton_self c)))
  complete names db j μ fits := by
    obtain ⟨conditions, values⟩ := h.complete
      (fun x hx x' hx' => names x (List.mem_append_left _ hx) x' (List.mem_append_left _ hx'))
      db j μ (fun x hx => fits x (List.mem_append_left _ hx))
    refine ⟨?_, ?_⟩
    · intro c' hc'
      obtain old | new := List.mem_append.mp hc'
      · exact conditions c' old
      · cases List.mem_singleton.mp new
        exact (means db j μ).mpr (fits x (List.mem_append_right _ (List.mem_singleton_self x)))
    · intro y hy z hz
      obtain old | new := List.mem_append.mp hy
      · exact values y old z hz
      · cases List.mem_singleton.mp new
        rw [ground] at hz
        cases hz

/-- A variable or a blank node, at its first occurrence or at a later one. -/
theorem Says.bindName (h : Says env xs b) {x : Occurrence} {y : Slot} (slot : x.t.slot? = some y)
    (denotes : ∀ μ, x.t.denote env μ = some (μ y)) :
    Says env (xs ++ [x]) (b.bindName (y.name env) (column x.n x.c)) := by
  have last : x ∈ xs ++ [x] := List.mem_append_right _ (List.mem_singleton_self x)
  rw [Binds.bindName]
  cases found : b.bindings.lookup (y.name env) with
  | some existing =>
    refine ⟨?_, ?_, ?_, ?_⟩
    · intro name hname
      obtain ⟨z, hz, named⟩ := h.bound name hname
      exact ⟨z, List.mem_append_left _ hz, named⟩
    · intro z hz w hw
      obtain old | new := List.mem_append.mp hz
      · exact h.slots z old w hw
      · cases List.mem_singleton.mp new
        cases slot.symm.trans hw
        exact Option.isSome_iff_exists.mpr ⟨existing, found⟩
    · intro db j columns holds z hz
      have equation := holds _ (List.mem_append_right _ (List.mem_singleton_self _))
      obtain old | new := List.mem_append.mp hz
      · refine h.sound db j (fun x hx => columns x (List.mem_append_left _ hx)) ?_ z old
        exact fun c hc => holds c (List.mem_append_left _ hc)
      · cases List.mem_singleton.mp new
        obtain ⟨id, value, bound⟩ := Cond.eq_iff.mp equation
        refine ⟨id, value, ?_⟩
        rw [denotes, assigned]
        simp only [Binds.require, found, Option.bind_some, bound, Option.getD_some]
    · intro names db j μ fits
      obtain ⟨conditions, values⟩ := h.complete
        (fun x hx x' hx' => names x (List.mem_append_left _ hx) x' (List.mem_append_left _ hx'))
        db j μ (fun x hx => fits x (List.mem_append_left _ hx))
      -- the name belongs to an earlier occurrence, of the same slot
      have value : existing db j = some (μ y) := by
        obtain ⟨z, hz, named⟩ := h.bound (y.name env) (Option.isSome_iff_exists.mpr ⟨_, found⟩)
        obtain ⟨w, hw, same⟩ := Option.map_eq_some_iff.mp named
        have equal := names z (List.mem_append_left _ hz) x last w y hw slot same
        have known := values z hz w hw
        rw [equal, found] at known
        exact known
      refine ⟨?_, ?_⟩
      · intro c hc
        obtain old | new := List.mem_append.mp hc
        · exact conditions c old
        · cases List.mem_singleton.mp new
          obtain ⟨id, here, same⟩ := fits x last
          rw [denotes] at same
          exact Cond.eq_iff.mpr ⟨id, here, value.trans same⟩
      · intro z hz w hw
        obtain old | new := List.mem_append.mp hz
        · exact values z old w hw
        · cases List.mem_singleton.mp new
          cases slot.symm.trans hw
          simp only [Binds.require, found, Option.bind_some, value]
  | none =>
    refine ⟨?_, ?_, ?_, ?_⟩
    · intro name hname
      rw [lookup_append_new found] at hname
      split at hname
      · rename_i same
        refine ⟨x, last, ?_⟩
        rw [slot, Option.map_some, same]
      · obtain ⟨z, hz, named⟩ := h.bound name hname
        exact ⟨z, List.mem_append_left _ hz, named⟩
    · intro z hz w hw
      rw [lookup_append_new found]
      split
      · rfl
      · obtain old | new := List.mem_append.mp hz
        · exact h.slots z old w hw
        · cases List.mem_singleton.mp new
          cases slot.symm.trans hw
          contradiction
    · intro db j columns holds z hz
      obtain old | new := List.mem_append.mp hz
      · obtain ⟨id, here, same⟩ := h.sound db j
          (fun x hx => columns x (List.mem_append_left _ hx)) holds z old
        refine ⟨id, here, ?_⟩
        rw [← same]
        -- the bindings of earlier occurrences are still there
        have kept (w : Slot) (hw : z.t.slot? = some w) :
            assigned env (b.bindings ++ [(y.name env, column x.n x.c)]) db j w =
              assigned env b.bindings db j w := by
          have old := h.slots z old w hw
          have other : w.name env ≠ y.name env := by
            intro equal
            rw [equal, found] at old
            cases old
          rw [assigned, lookup_append_new found, if_neg other]
          rfl
        cases ht : z.t with
        | var v => simp only [TermPattern.denote, kept (.var v) (by rw [ht]; rfl)]
        | blankNode label =>
          simp only [TermPattern.denote, kept (.blank label) (by rw [ht]; rfl)]
        | namedNode iri => rfl
        | literal lit => rfl
        | triple s p o => rfl
      · cases List.mem_singleton.mp new
        obtain ⟨id, value⟩ := Option.isSome_iff_exists.mp (columns x last)
        refine ⟨id, value, ?_⟩
        rw [denotes, assigned, lookup_append_new found, if_pos rfl]
        simp only [Option.bind_some, column, value, Option.getD_some]
    · intro names db j μ fits
      obtain ⟨conditions, values⟩ := h.complete
        (fun x hx x' hx' => names x (List.mem_append_left _ hx) x' (List.mem_append_left _ hx'))
        db j μ (fun x hx => fits x (List.mem_append_left _ hx))
      refine ⟨conditions, ?_⟩
      intro z hz w hw
      rw [lookup_append_new found]
      split
      · rename_i same
        have equal := names z hz x last w y hw slot same
        obtain ⟨id, here, value⟩ := fits x last
        rw [denotes] at value
        simp only [Option.bind_some, column, here, ← value, equal]
      · obtain old | new := List.mem_append.mp hz
        · exact values z old w hw
        · cases List.mem_singleton.mp new
          cases slot.symm.trans hw
          contradiction

end Binds

theorem Binds.Says.bindTerm {env : Env} {xs : List Occurrence} {b : Binds} (h : b.Says env xs)
    {n : Alias} {c : Col} {t : TermPattern} (plain : ∀ s p o, t ≠ .triple s p o) :
    (bindTerm env n c t b).Says env (xs ++ [⟨n, c, t⟩]) := by
  cases t with
  | var v => exact h.bindName (y := .var v) rfl fun _ => rfl
  | blankNode label => exact h.bindName (y := .blank label) rfl fun _ => rfl
  | namedNode iri =>
    rw [Sparql.bindTerm]
    cases found : env.lookupIri iri with
    | some id =>
      refine h.require rfl fun db j μ => ?_
      rw [Cond.eqId_iff, Occurrence.Fits]
      simp only [TermPattern.denote, groundTermId, found]
      constructor
      · intro value
        exact ⟨id, value, rfl⟩
      · rintro ⟨_, value, same⟩
        cases same
        exact value
    | none =>
      refine h.require rfl fun db j μ => ?_
      simp [Occurrence.Fits, TermPattern.denote, groundTermId, found]
  | literal lit =>
    refine h.require rfl fun db j μ => ?_
    rw [Cond.eqId_iff, Occurrence.Fits]
    simp only [TermPattern.denote, groundTermId]
    constructor
    · intro value
      exact ⟨_, value, rfl⟩
    · rintro ⟨_, value, same⟩
      cases same
      exact value
  | triple s p o => exact absurd rfl (plain s p o)

/-- The source that a pattern reads. -/
def patternSource (env : Env) (graphFilter : Option TermId) (tp : TriplePattern) : Source :=
  match tp.predicate with
  | .namedNode iri =>
    tableSource (predicateSource env iri) graphFilter (env.serviceExcl graphFilter)
  | .var _ =>
    unionSource (env.unionPredicates.getD []) graphFilter (env.serviceExcl graphFilter)

/-- The terms of a pattern under an alias. -/
def occurrences (x : Alias × TriplePattern) : List Occurrence :=
  (match x.2.predicate with
    | .namedNode _ => []
    | .var v => [⟨x.1, .p, .var v⟩]) ++
    [⟨x.1, .s, x.2.subject⟩, ⟨x.1, .o, x.2.object⟩]

/-- The fragment is the join of the placed patterns, with aliases below `n`. -/
structure Translates (env : Env) (graphFilter : Option TermId)
    (placed : List (Alias × TriplePattern)) (n : Nat) (frag : Fragment) : Prop where
  items : frag.fromItems = placed.map fun x => (x.1, patternSource env graphFilter x.2)
  binds : Binds.Says env (placed.flatMap occurrences) ⟨frag.bindings, frag.conditions⟩
  below : ∀ x ∈ placed, ∃ k < n, x.1 = .counted k
  distinct : (placed.map Prod.fst).Nodup
  union : ∀ x ∈ placed, ∀ v, x.2.predicate = .var v → env.unionPredicates ≠ none

section Loop

variable {env : Env} {graphFilter : Option TermId} {placed : List (Alias × TriplePattern)}
  {n n' : Nat} {frag frag' : Fragment} {tp : TriplePattern} {tps seen : List TriplePattern}

theorem Translates.empty : Translates env graphFilter [] n .empty where
  items := rfl
  binds := .nil
  below _ h := nomatch h
  distinct := List.nodup_nil
  union _ h := nomatch h

theorem Translates.translateTriple (h : Translates env graphFilter placed n frag)
    (plain : tp.Plain) (translated : translateTriple env graphFilter n tp frag = some frag') :
    Translates env graphFilter (placed ++ [(Alias.counted n, tp)]) (n + 1) frag' := by
  have below : ∀ x ∈ placed ++ [(Alias.counted n, tp)], ∃ k < n + 1, x.1 = .counted k := by
    intro x hx
    obtain old | new := List.mem_append.mp hx
    · obtain ⟨k, lt, same⟩ := h.below x old
      exact ⟨k, Nat.lt_succ_of_lt lt, same⟩
    · cases List.mem_singleton.mp new
      exact ⟨n, Nat.lt_succ_self n, rfl⟩
  have distinct : ((placed ++ [(Alias.counted n, tp)]).map Prod.fst).Nodup := by
    rw [List.map_append, List.nodup_append]
    refine ⟨h.distinct, List.nodup_singleton _, ?_⟩
    rintro m hm m' hm' rfl
    obtain ⟨x, hx, here⟩ := List.mem_map.mp hm
    obtain ⟨k, lt, same⟩ := h.below x hx
    cases List.mem_singleton.mp hm'
    cases here.symm.trans same
    exact absurd lt (Nat.lt_irrefl _)
  rw [Sparql.translateTriple] at translated
  cases hp : tp.predicate with
  | namedNode iri =>
    rw [hp] at translated
    cases translated
    refine ⟨?_, ?_, below, distinct, ?_⟩
    · simp only [h.items, List.map_append, List.map_cons, List.map_nil, patternSource, hp]
    · have both := (h.binds.bindTerm (n := n) (c := .s) plain.1).bindTerm (n := n) (c := .o) plain.2
      rw [List.append_assoc] at both
      rw [List.flatMap_append, List.flatMap_singleton, occurrences, hp]
      exact both
    · intro x hx v hv
      obtain old | new := List.mem_append.mp hx
      · exact h.union x old v hv
      · cases List.mem_singleton.mp new
        rw [hp] at hv
        cases hv
  | var v =>
    rw [hp] at translated
    cases found : env.unionPredicates with
    | none =>
      simp only [found] at translated
      cases translated
    | some preds =>
      simp only [found] at translated
      cases translated
      refine ⟨?_, ?_, below, distinct, ?_⟩
      · simp only [h.items, List.map_append, List.map_cons, List.map_nil, patternSource, hp, found,
          Option.getD_some]
      · have first := h.binds.bindName (x := ⟨n, .p, .var v⟩) (y := .var v) rfl fun _ => rfl
        have all := (first.bindTerm (n := n) (c := .s) plain.1).bindTerm (n := n) (c := .o) plain.2
        rw [List.append_assoc, List.append_assoc] at all
        rw [List.flatMap_append, List.flatMap_singleton, occurrences, hp]
        exact all
      · intro x _ w _
        rw [found]
        exact Option.some_ne_none preds

/-- All patterns are placed, each of them once. -/
theorem Translates.translateTriples (h : Translates env graphFilter placed n frag)
    (same : ∀ tp, tp ∈ seen ↔ tp ∈ placed.map Prod.snd) (plain : ∀ tp ∈ tps, tp.Plain)
    (translated : translateTriples env graphFilter tps seen n frag = some (frag', n')) :
    ∃ placed', Translates env graphFilter placed' n' frag' ∧
      ∀ tp, tp ∈ placed'.map Prod.snd ↔ tp ∈ tps ∨ tp ∈ placed.map Prod.snd := by
  induction tps generalizing placed n frag seen with
  | nil =>
    cases translated
    exact ⟨placed, h, fun tp => by simp⟩
  | cons tp tps ih =>
    have rest : ∀ tp ∈ tps, tp.Plain := fun tp' htp' => plain tp' (List.mem_cons_of_mem tp htp')
    rw [Sparql.translateTriples] at translated
    split at translated
    · rename_i repeated
      obtain ⟨placed', translates, covers⟩ := ih h same rest translated
      refine ⟨placed', translates, fun tp' => ?_⟩
      rw [covers, List.mem_cons, or_assoc]
      constructor
      · exact .inr
      · rintro (rfl | other)
        · exact .inr ((same _).mp repeated)
        · exact other
    · obtain ⟨mid, one, translated⟩ := Option.bind_eq_some_iff.mp translated
      have next := h.translateTriple (plain tp List.mem_cons_self) one
      have same' : ∀ tp', tp' ∈ tp :: seen ↔
          tp' ∈ (placed ++ [(Alias.counted n, tp)]).map Prod.snd := by
        intro tp'
        rw [List.mem_cons, same, List.map_append, List.mem_append, or_comm]
        simp
      obtain ⟨placed', translates, covers⟩ := ih next same' rest translated
      refine ⟨placed', translates, fun tp' => ?_⟩
      rw [covers, ← same', List.mem_cons, List.mem_cons, same, or_left_comm, or_assoc]

end Loop

section Order

variable {κ : Type} [LT κ] [DecidableLT κ] {env : Env} {estimate : PatternCost κ}

theorem bestIndex_go_lt (cost : TriplePattern → κ) (tps : List TriplePattern) (i best : Nat)
    (bestCost : κ) (h : best < i) :
    bestIndex.go cost tps i best bestCost < i + tps.length := by
  induction tps generalizing i best bestCost with
  | nil => exact h
  | cons tp tps ih =>
    rw [bestIndex.go, List.length_cons]
    split
    · have := ih (i + 1) i (cost tp) (Nat.lt_succ_self i)
      omega
    · have := ih (i + 1) best bestCost (by omega)
      omega

theorem bestIndex_lt (cost : TriplePattern → κ) {tps : List TriplePattern} (h : tps ≠ []) :
    bestIndex cost tps < tps.length := by
  cases tps with
  | nil => exact absurd rfl h
  | cons tp tps =>
    rw [bestIndex, List.length_cons]
    have := bestIndex_go_lt cost tps 1 0 (cost tp) Nat.zero_lt_one
    omega

/-- The greedy loop places every pattern. -/
theorem perm_placePatterns (n : Nat) (bound : List String) (remaining : List TriplePattern)
    (all : remaining.length = n) :
    (placePatterns env estimate n bound remaining).Perm remaining := by
  induction n generalizing bound remaining with
  | zero =>
    cases List.eq_nil_of_length_eq_zero all
    exact List.Perm.refl _
  | succ n ih =>
    have nonempty : remaining ≠ [] := by
      rintro rfl
      cases all
    have inRange := bestIndex_lt (TriplePattern.cost env estimate bound) nonempty
    rw [placePatterns]
    simp only [List.getElem?_eq_getElem inRange]
    have rest := ih (bound ++ remaining[bestIndex (TriplePattern.cost env estimate bound)
      remaining].binds) (remaining.eraseIdx (bestIndex (TriplePattern.cost env estimate bound)
      remaining)) (by rw [List.length_eraseIdx_of_lt inRange]; omega)
    exact (rest.cons _).trans (List.getElem_cons_eraseIdx_perm inRange)

theorem mem_reorderBgp {bgpReorder : Bool} {patterns : List TriplePattern} {tp : TriplePattern} :
    tp ∈ reorderBgp env bgpReorder estimate patterns ↔ tp ∈ patterns := by
  rw [reorderBgp]
  split
  · exact Iff.rfl
  · exact (perm_placePatterns _ _ _ rfl).mem_iff

end Order

/-- A row of the source of a pattern has the values of its terms. -/
structure RowFits (env : Env) (μ : Slot → TermId) (tp : TriplePattern) (r : SqlRow) : Prop where
  subject : ∃ id, r.get .s = some id ∧ tp.subject.denote env μ = some id
  object : ∃ id, r.get .o = some id ∧ tp.object.denote env μ = some id
  predicate : ∀ v, tp.predicate = .var v → r.get .p = some (μ (.var v))

section PatternRows

variable {env : Env} {db : Db} {graphFilter : Option TermId} {tp : TriplePattern} {r r' : SqlRow}
  {μ : Slot → TermId}

/-- The rows of a pattern's source are the visible triples of its predicate. -/
theorem mem_patternSource (right : CatalogRight env db.store)
    (union : ∀ v, tp.predicate = .var v → env.unionPredicates ≠ none) :
    r ∈ (patternSource env graphFilter tp).rows db ↔
      ∃ q : Quad, graphCondition graphFilter (env.serviceExcl graphFilter) q.g = true ∧
        db.store.Visible q ∧
        match tp.predicate with
        | .namedNode iri => env.lookupIri iri = some q.p ∧ r = tripleRow q.key
        | .var _ => r = quadRow q := by
  rw [patternSource]
  cases hp : tp.predicate with
  | namedNode iri =>
    simp only [tableSource, predicateSource, List.mem_map]
    cases found : env.lookupIri iri with
    | none => simp [tableExpr]
    | some p =>
      simp only [mem_tableExpr right, Option.some.injEq]
      constructor
      · rintro ⟨k, ⟨asked, visible⟩, rfl⟩
        exact ⟨k.quad p, asked, visible, rfl, rfl⟩
      · rintro ⟨q, asked, visible, rfl, rfl⟩
        exact ⟨q.key, ⟨asked, visible⟩, rfl⟩
  | var v =>
    cases found : env.unionPredicates with
    | none => exact absurd found (union v hp)
    | some preds =>
      simp only [unionSource, List.mem_map, Option.getD_some, mem_unionQuads right found]
      constructor
      · rintro ⟨q, ⟨asked, visible⟩, rfl⟩
        exact ⟨q, asked, visible, rfl⟩
      · rintro ⟨q, asked, visible, rfl⟩
        exact ⟨q, ⟨asked, visible⟩, rfl⟩

theorem nodup_patternSource (right : CatalogRight env db.store)
    (union : ∀ v, tp.predicate = .var v → env.unionPredicates ≠ none) :
    ((patternSource env graphFilter tp).rows db).Nodup := by
  rw [patternSource]
  cases hp : tp.predicate with
  | namedNode iri => exact nodup_tableExpr.map tripleRow_injective
  | var v =>
    cases found : env.unionPredicates with
    | none => exact absurd found (union v hp)
    | some preds => exact (nodup_unionQuads right found).map quadRow_injective

/-- The columns that a pattern's terms are bound to are never `NULL`. -/
theorem isSome_patternSource (right : CatalogRight env db.store)
    (union : ∀ v, tp.predicate = .var v → env.unionPredicates ≠ none)
    (hr : r ∈ (patternSource env graphFilter tp).rows db) :
    (r.get .s).isSome = true ∧ (r.get .o).isSome = true ∧
      ∀ v, tp.predicate = .var v → (r.get .p).isSome = true := by
  obtain ⟨q, -, -, row⟩ := (mem_patternSource right union).mp hr
  cases hp : tp.predicate with
  | namedNode iri =>
    rw [hp] at row
    rw [row.2]
    exact ⟨rfl, rfl, fun v hv => nomatch hv⟩
  | var v =>
    rw [hp] at row
    rw [row]
    exact ⟨rfl, rfl, fun _ _ => rfl⟩

/-- A row stands for a triple of the data. -/
theorem hasTriple_of_mem_patternSource (right : CatalogRight env db.store)
    (union : ∀ v, tp.predicate = .var v → env.unionPredicates ≠ none)
    (hr : r ∈ (patternSource env graphFilter tp).rows db)
    (pred : ∀ v, tp.predicate = .var v → r.get .p = some (μ (.var v))) :
    ∃ s p o, r.get .s = some s ∧ r.get .o = some o ∧ tp.predicate.denote env μ = some p ∧
      HasTriple env db.store graphFilter s p o := by
  obtain ⟨q, asked, visible, row⟩ := (mem_patternSource right union).mp hr
  cases hp : tp.predicate with
  | namedNode iri =>
    rw [hp] at row
    obtain ⟨known, rfl⟩ := row
    exact ⟨q.s, q.p, q.o, rfl, rfl, known, q.g, asked, visible⟩
  | var v =>
    have value := pred v hp
    rw [hp] at row
    subst row
    have same : q.p = μ (.var v) := Option.some.inj value
    exact ⟨q.s, q.p, q.o, rfl, rfl, congrArg some same.symm, q.g, asked, visible⟩

theorem exists_mem_patternSource (right : CatalogRight env db.store)
    (union : ∀ v, tp.predicate = .var v → env.unionPredicates ≠ none) {s p o : TermId}
    (predicate : tp.predicate.denote env μ = some p)
    (triple : HasTriple env db.store graphFilter s p o) :
    ∃ r ∈ (patternSource env graphFilter tp).rows db, r.get .s = some s ∧ r.get .o = some o ∧
      ∀ v, tp.predicate = .var v → r.get .p = some (μ (.var v)) := by
  obtain ⟨g, asked, visible⟩ := triple
  cases hp : tp.predicate with
  | namedNode iri =>
    refine ⟨tripleRow ⟨s, o, g⟩,
      (mem_patternSource right union).mpr ⟨⟨s, p, o, g⟩, asked, visible, ?_⟩, rfl, rfl, ?_⟩
    · rw [hp]
      rw [hp] at predicate
      exact ⟨predicate, rfl⟩
    · intro v hv
      cases hv
  | var v =>
    refine ⟨quadRow ⟨s, p, o, g⟩,
      (mem_patternSource right union).mpr ⟨⟨s, p, o, g⟩, asked, visible, ?_⟩, rfl, rfl, ?_⟩
    · rw [hp]
    · intro w hw
      cases hw
      rw [hp] at predicate
      exact predicate.symm

/-- A row that fits stands for a triple of the data. -/
theorem RowFits.hasTriple (h : RowFits env μ tp r) (right : CatalogRight env db.store)
    (union : ∀ v, tp.predicate = .var v → env.unionPredicates ≠ none)
    (hr : r ∈ (patternSource env graphFilter tp).rows db) :
    ∃ s p o, tp.subject.denote env μ = some s ∧ tp.predicate.denote env μ = some p ∧
      tp.object.denote env μ = some o ∧ HasTriple env db.store graphFilter s p o := by
  obtain ⟨s, p, o, subject, object, known, triple⟩ :=
    hasTriple_of_mem_patternSource right union hr h.predicate
  obtain ⟨s', hs, denotesS⟩ := h.subject
  obtain ⟨o', ho, denotesO⟩ := h.object
  cases subject.symm.trans hs
  cases object.symm.trans ho
  exact ⟨s, p, o, denotesS, known, denotesO, triple⟩

/-- A triple of the data has a row that fits. -/
theorem exists_rowFits (right : CatalogRight env db.store)
    (union : ∀ v, tp.predicate = .var v → env.unionPredicates ≠ none)
    (h : ∃ s p o, tp.subject.denote env μ = some s ∧ tp.predicate.denote env μ = some p ∧
      tp.object.denote env μ = some o ∧ HasTriple env db.store graphFilter s p o) :
    ∃ r ∈ (patternSource env graphFilter tp).rows db, RowFits env μ tp r := by
  obtain ⟨s, p, o, subject, predicate, object, triple⟩ := h
  obtain ⟨r, hr, hs, ho, hp⟩ := exists_mem_patternSource right union predicate triple
  exact ⟨r, hr, ⟨s, hs, subject⟩, ⟨o, ho, object⟩, hp⟩

/-- No triple of the predicate lies in two of the graphs that are asked for. -/
def InOneGraph (env : Env) (st : Store) (graphFilter : Option TermId) (p : TermId) : Prop :=
  ∀ s o g g', graphCondition graphFilter (env.serviceExcl graphFilter) g = true →
    graphCondition graphFilter (env.serviceExcl graphFilter) g' = true →
    st.Visible ⟨s, p, o, g⟩ → st.Visible ⟨s, p, o, g'⟩ → g = g'

theorem SingleGraph.inOneGraph {st : Store} (h : SingleGraph env st graphFilter) (p : TermId) :
    InOneGraph env st graphFilter p :=
  fun _ _ _ _ asked asked' visible visible' => h _ _ visible visible' asked asked'

/-- If no triple lies in two graphs, only one row fits. -/
theorem RowFits.unique (h : RowFits env μ tp r) (h' : RowFits env μ tp r')
    (right : CatalogRight env db.store)
    (once : ∀ p, tp.predicate.denote env μ = some p → InOneGraph env db.store graphFilter p)
    (union : ∀ v, tp.predicate = .var v → env.unionPredicates ≠ none)
    (hr : r ∈ (patternSource env graphFilter tp).rows db)
    (hr' : r' ∈ (patternSource env graphFilter tp).rows db) : r = r' := by
  obtain ⟨q, asked, visible, row⟩ := (mem_patternSource right union).mp hr
  obtain ⟨q', asked', visible', row'⟩ := (mem_patternSource right union).mp hr'
  obtain ⟨s, hs, subject⟩ := h.subject
  obtain ⟨s', hs', subject'⟩ := h'.subject
  cases subject.symm.trans subject'
  obtain ⟨o, ho, object⟩ := h.object
  obtain ⟨o', ho', object'⟩ := h'.object
  cases object.symm.trans object'
  have same (sameS : q.s = q'.s) (sameP : q.p = q'.p) (sameO : q.o = q'.o)
      (denoted : tp.predicate.denote env μ = some q.p) : q = q' := by
    obtain ⟨s, p, o, g⟩ := q
    obtain ⟨s', p', o', g'⟩ := q'
    cases sameS
    cases sameP
    cases sameO
    have graph : g = g' := once p denoted s o g g' asked asked' visible visible'
    rw [graph]
  cases hp : tp.predicate with
  | namedNode iri =>
    rw [hp] at row row'
    obtain ⟨known, rfl⟩ := row
    obtain ⟨known', rfl⟩ := row'
    rw [same (Option.some.inj (hs.trans hs'.symm)) (Option.some.inj (known.symm.trans known'))
      (Option.some.inj (ho.trans ho'.symm)) (by rw [hp]; exact known)]
  | var v =>
    have pred := h.predicate v hp
    have sameP : r.get .p = r'.get .p := pred.trans (h'.predicate v hp).symm
    rw [hp] at row row'
    subst row
    subst row'
    rw [same (Option.some.inj (hs.trans hs'.symm)) (Option.some.inj sameP)
      (Option.some.inj (ho.trans ho'.symm)) (by rw [hp]; exact pred.symm)]

theorem fits_occurrences {j : Joined} {n : Alias} (here : j.lookup n = some r) :
    (∀ x ∈ occurrences (n, tp), x.Fits env μ j) ↔ RowFits env μ tp r := by
  have col (c : Col) : j.col n c = r.get c := by rw [Joined.col, here, Option.bind_some]
  have ends : (∀ x ∈ [(⟨n, .s, tp.subject⟩ : Occurrence), ⟨n, .o, tp.object⟩], x.Fits env μ j) ↔
      (∃ id, r.get .s = some id ∧ tp.subject.denote env μ = some id) ∧
        ∃ id, r.get .o = some id ∧ tp.object.denote env μ = some id := by
    simp only [List.forall_mem_cons, Occurrence.Fits, col]
    simp
  rw [occurrences, List.forall_mem_append, ends]
  cases hp : tp.predicate with
  | namedNode iri =>
    constructor
    · rintro ⟨-, subject, object⟩
      exact ⟨subject, object, fun v hv => by rw [hp] at hv; cases hv⟩
    · intro h
      exact ⟨List.forall_mem_nil _, h.subject, h.object⟩
  | var v =>
    simp only [List.forall_mem_singleton, Occurrence.Fits, col, TermPattern.denote]
    constructor
    · rintro ⟨⟨id, value, same⟩, subject, object⟩
      refine ⟨subject, object, fun w hw => ?_⟩
      rw [hp] at hw
      cases hw
      exact value.trans same.symm
    · intro h
      exact ⟨⟨_, h.predicate v hp, rfl⟩, h.subject, h.object⟩

end PatternRows

section JoinedRows

variable {j j' : Joined} {n : Alias} {r : SqlRow}

theorem lookup_of_mem (nodup : (j.map Prod.fst).Nodup) (mem : (n, r) ∈ j) :
    j.lookup n = some r := by
  induction j with
  | nil => cases mem
  | cons x j ih =>
    obtain ⟨fresh, nodup⟩ := List.nodup_cons.mp nodup
    obtain rfl | later := List.mem_cons.mp mem
    · exact List.lookup_cons_self
    · have other : (n == x.1) = false := by
        rw [beq_eq_false_iff_ne]
        rintro rfl
        exact fresh (List.mem_map.mpr ⟨_, later, rfl⟩)
      rw [List.lookup_cons, other]
      exact ih nodup later

theorem lookup_eq_none (fresh : n ∉ j.map Prod.fst) : j.lookup n = none := by
  rw [List.lookup_eq_none_iff]
  intro x hx
  rw [bne_iff_ne]
  rintro rfl
  exact fresh (List.mem_map.mpr ⟨x, hx, rfl⟩)

/-- Joined rows of the same items are equal if their rows are. -/
theorem joined_ext (items : j.map Prod.fst = j'.map Prod.fst) (nodup : (j.map Prod.fst).Nodup)
    (same : ∀ m, j.lookup m = j'.lookup m) : j = j' := by
  induction j generalizing j' with
  | nil => exact (List.map_eq_nil_iff.mp items.symm).symm
  | cons x j ih =>
    cases j' with
    | nil => cases items
    | cons x' j' =>
      obtain ⟨n, r⟩ := x
      obtain ⟨n', r'⟩ := x'
      obtain ⟨fresh, nodup⟩ := List.nodup_cons.mp nodup
      simp only [List.map_cons, List.cons.injEq] at items
      obtain ⟨rfl, items⟩ := items
      have rows : r = r' := by
        have here := same n
        rw [List.lookup_cons_self, List.lookup_cons_self] at here
        exact Option.some.inj here
      have rest : j = j' := by
        refine ih items nodup fun m => ?_
        by_cases hm : m = n
        · rw [hm, lookup_eq_none fresh, lookup_eq_none (items ▸ fresh)]
        · have other : (m == n) = false := by rwa [beq_eq_false_iff_ne]
          have there := same m
          rwa [List.lookup_cons, List.lookup_cons, other] at there
      rw [rows, rest]

end JoinedRows

theorem nodup_sections {α : Type} {ls : List (List α)} (h : ∀ l ∈ ls, l.Nodup) :
    ls.sections.Nodup := by
  induction ls with
  | nil => exact List.nodup_singleton _
  | cons l ls ih =>
    obtain ⟨first, rest⟩ := List.forall_mem_cons.mp h
    rw [List.sections, List.nodup_flatMap]
    refine ⟨?_, (ih rest).imp ?_⟩
    · intro tail _
      refine first.map ?_
      intro x y same
      exact (List.cons.inj same).1
    · intro tail tail' different row hrow hrow'
      obtain ⟨x, _, rfl⟩ := List.mem_map.mp hrow
      obtain ⟨y, _, same⟩ := List.mem_map.mp hrow'
      exact different (List.cons.inj same).2.symm

section Rows

variable {env : Env} {db : Db} {graphFilter : Option TermId}
  {placed : List (Alias × TriplePattern)} {n : Nat} {frag : Fragment} {j j' : Joined}
  {μ : Slot → TermId} {patterns : List TriplePattern}

/-- A row for each placed pattern, under its alias. -/
def RowOf (env : Env) (db : Db) (graphFilter : Option TermId)
    (placed : List (Alias × TriplePattern)) (j : Joined) : Prop :=
  List.Forall₂ (fun x y => x.1 = y.1 ∧ x.2 ∈ (patternSource env graphFilter y.2).rows db) j placed

/-- The joined rows have a row for each item and meet the conditions. -/
theorem mem_joined_iff (items : frag.fromItems = placed.map fun x =>
      (x.1, patternSource env graphFilter x.2)) :
    j ∈ frag.joined db ↔
      RowOf env db graphFilter placed j ∧ ∀ c ∈ frag.conditions, c db j = true := by
  rw [Fragment.joined, List.mem_filter, List.all_eq_true, items, List.mem_sections, List.map_map,
    List.forall₂_map_right_iff, RowOf]
  refine and_congr_left fun _ => ?_
  have same (x : Alias × SqlRow) (y : Alias × TriplePattern) :
      x ∈ ((patternSource env graphFilter y.2).rows db).map (fun r => (y.1, r)) ↔
        x.1 = y.1 ∧ x.2 ∈ (patternSource env graphFilter y.2).rows db := by
    rw [List.mem_map]
    constructor
    · rintro ⟨r, hr, rfl⟩
      exact ⟨rfl, hr⟩
    · rintro ⟨item, hr⟩
      exact ⟨x.2, hr, Prod.ext item.symm rfl⟩
  constructor
  · exact List.Forall₂.imp fun x y hxy => (same x y).mp hxy
  · exact List.Forall₂.imp fun x y hxy => (same x y).mpr hxy

theorem Translates.mem_joined (h : Translates env graphFilter placed n frag) :
    j ∈ frag.joined db ↔
      RowOf env db graphFilter placed j ∧ ∀ c ∈ frag.conditions, c db j = true :=
  mem_joined_iff h.items

theorem RowOf.items (h : RowOf env db graphFilter placed j) :
    j.map Prod.fst = placed.map Prod.fst := by
  induction h with
  | nil => rfl
  | cons here _ ih => rw [List.map_cons, List.map_cons, here.1, ih]

theorem RowOf.lookup (h : RowOf env db graphFilter placed j)
    (distinct : (placed.map Prod.fst).Nodup) {x : Alias × TriplePattern} (hx : x ∈ placed) :
    ∃ r ∈ (patternSource env graphFilter x.2).rows db, j.lookup x.1 = some r := by
  have found : ∃ r ∈ (patternSource env graphFilter x.2).rows db, (x.1, r) ∈ j := by
    clear distinct
    induction h with
    | nil => cases hx
    | cons here _ ih =>
      obtain rfl | later := List.mem_cons.mp hx
      · refine ⟨_, here.2, ?_⟩
        rw [← here.1]
        exact List.mem_cons_self
      · obtain ⟨r, hr, mem⟩ := ih later
        exact ⟨r, hr, List.mem_cons_of_mem _ mem⟩
  obtain ⟨r, hr, mem⟩ := found
  exact ⟨r, hr, lookup_of_mem (h.items ▸ distinct) mem⟩

/-- Rows that are picked one by one are joined. -/
theorem exists_rowOf {P : Alias × TriplePattern → SqlRow → Prop}
    (distinct : (placed.map Prod.fst).Nodup)
    (rows : ∀ x ∈ placed, ∃ r ∈ (patternSource env graphFilter x.2).rows db, P x r) :
    ∃ j, RowOf env db graphFilter placed j ∧ ∀ x ∈ placed, ∃ r, j.lookup x.1 = some r ∧ P x r := by
  choose! pick picked fits using rows
  have row : RowOf env db graphFilter placed (placed.map fun x => (x.1, pick x)) := by
    rw [RowOf, List.forall₂_map_left_iff, List.forall₂_same]
    intro x hx
    exact ⟨rfl, picked x hx⟩
  refine ⟨_, row, fun x hx => ⟨pick x, ?_, fits x hx⟩⟩
  exact lookup_of_mem (row.items ▸ distinct) (List.mem_map.mpr ⟨x, hx, rfl⟩)

/-- Only the values of the pattern's own variables and blank nodes matter. -/
theorem RowFits.congr {tp : TriplePattern} {r : SqlRow} {μ' : Slot → TermId}
    (h : RowFits env μ tp r) (same : ∀ y ∈ tp.slots, μ y = μ' y) : RowFits env μ' tp r := by
  have denote (t : TermPattern) (slots : ∀ y, t.slot? = some y → y ∈ tp.slots) :
      t.denote env μ' = t.denote env μ := by
    cases t with
    | var v => exact congrArg some (same _ (slots _ rfl)).symm
    | blankNode label => exact congrArg some (same _ (slots _ rfl)).symm
    | namedNode iri => rfl
    | literal lit => rfl
    | triple s p o => rfl
  refine ⟨?_, ?_, ?_⟩
  · obtain ⟨id, value, named⟩ := h.subject
    refine ⟨id, value, ?_⟩
    rw [denote tp.subject fun y hy => by simp [TriplePattern.slots, hy]]
    exact named
  · obtain ⟨id, value, named⟩ := h.object
    refine ⟨id, value, ?_⟩
    rw [denote tp.object fun y hy => by simp [TriplePattern.slots, hy]]
    exact named
  · intro v hv
    rw [h.predicate v hv, same (.var v) (by simp [TriplePattern.slots, hv, NamedNodePattern.slot?])]

theorem mem_slots_iff_occurrences {tp : TriplePattern} {m : Alias} {y : Slot} :
    y ∈ tp.slots ↔ ∃ x ∈ occurrences (m, tp), x.t.slot? = some y := by
  rw [TriplePattern.slots, occurrences]
  cases tp.predicate with
  | namedNode iri => simp [NamedNodePattern.slot?]
  | var v =>
    have own : (⟨m, .p, .var v⟩ : Occurrence).t.slot? = some y ↔ y = .var v := by
      rw [TermPattern.slot?, Option.some.injEq, eq_comm]
    simp only [NamedNodePattern.slot?, Option.toList_some, List.mem_append, List.mem_singleton,
      Option.mem_toList, List.singleton_append, List.exists_mem_cons_iff, own, exists_eq_left]
    rw [or_comm (a := tp.subject.slot? = some y), or_assoc]

/-- Names of variables and blank nodes are not confused. -/
def NamesDistinct (env : Env) (patterns : List TriplePattern) : Prop :=
  ∀ y ∈ slotsOf patterns, ∀ y' ∈ slotsOf patterns, y.name env = y'.name env → y = y'

section Placed

variable (h : Translates env graphFilter placed n frag)
  (covers : ∀ tp, tp ∈ placed.map Prod.snd ↔ tp ∈ patterns)

include covers in
theorem mem_slotsOf_iff {y : Slot} :
    y ∈ slotsOf patterns ↔ ∃ x ∈ placed.flatMap occurrences, x.t.slot? = some y := by
  rw [slotsOf, List.mem_dedup, List.mem_flatMap]
  constructor
  · rintro ⟨tp, htp, hy⟩
    obtain ⟨⟨m, tp⟩, hx, rfl⟩ := List.mem_map.mp ((covers tp).mpr htp)
    obtain ⟨o, ho, slot⟩ := mem_slots_iff_occurrences.mp hy
    exact ⟨o, List.mem_flatMap.mpr ⟨(m, tp), hx, ho⟩, slot⟩
  · rintro ⟨o, ho, slot⟩
    obtain ⟨⟨m, tp⟩, hx, ho⟩ := List.mem_flatMap.mp ho
    exact ⟨tp, (covers tp).mp (List.mem_map.mpr ⟨_, hx, rfl⟩),
      mem_slots_iff_occurrences.mpr ⟨o, ho, slot⟩⟩

include h covers in
/-- Rows that fit make the conditions true, and the values are those of the assignment. -/
theorem Translates.complete (names : NamesDistinct env patterns)
    (fits : ∀ x ∈ placed, ∃ r, j.lookup x.1 = some r ∧ RowFits env μ x.2 r) :
    (∀ c ∈ frag.conditions, c db j = true) ∧
      ∀ y ∈ slotsOf patterns, frag.value db j (y.name env) = some (μ y) := by
  have all : ∀ o ∈ placed.flatMap occurrences, o.Fits env μ j := by
    intro o ho
    obtain ⟨x, hx, ho⟩ := List.mem_flatMap.mp ho
    obtain ⟨r, here, fit⟩ := fits x hx
    exact (fits_occurrences here).mpr fit o ho
  have distinct : ∀ x ∈ placed.flatMap occurrences, ∀ x' ∈ placed.flatMap occurrences, ∀ y y',
      x.t.slot? = some y → x'.t.slot? = some y' → y.name env = y'.name env → y = y' := by
    intro x hx x' hx' y y' hy hy' same
    exact names y ((mem_slotsOf_iff covers).mpr ⟨x, hx, hy⟩) y'
      ((mem_slotsOf_iff covers).mpr ⟨x', hx', hy'⟩) same
  obtain ⟨conditions, values⟩ := h.binds.complete distinct db j μ all
  refine ⟨conditions, ?_⟩
  intro y hy
  obtain ⟨o, ho, slot⟩ := (mem_slotsOf_iff covers).mp hy
  exact values o ho y slot

include h in
/-- The values of a row make all its rows fit. -/
theorem Translates.sound (right : CatalogRight env db.store) (row : j ∈ frag.joined db) :
    ∀ x ∈ placed, ∃ r ∈ (patternSource env graphFilter x.2).rows db, j.lookup x.1 = some r ∧
      RowFits env (assigned env frag.bindings db j) x.2 r := by
  obtain ⟨rowOf, conditions⟩ := h.mem_joined.mp row
  have columns : ∀ o ∈ placed.flatMap occurrences, (j.col o.n o.c).isSome = true := by
    intro o ho
    obtain ⟨⟨m, tp⟩, hx, ho⟩ := List.mem_flatMap.mp ho
    obtain ⟨r, hr, here⟩ := rowOf.lookup h.distinct hx
    obtain ⟨hs, ho', hp⟩ := isSome_patternSource right (h.union _ hx) hr
    have col (c : Col) : j.col m c = r.get c := by rw [Joined.col, here, Option.bind_some]
    obtain predicate | ends := List.mem_append.mp ho
    · cases pred : tp.predicate with
      | namedNode iri => simp [pred] at predicate
      | var v =>
        simp only [pred, List.mem_singleton] at predicate
        subst predicate
        rw [col]
        exact hp v pred
    · simp only [List.mem_cons, List.not_mem_nil, or_false] at ends
      obtain rfl | rfl := ends
      · rw [col]
        exact hs
      · rw [col]
        exact ho'
  have fits := h.binds.sound db j columns conditions
  intro x hx
  obtain ⟨r, hr, here⟩ := rowOf.lookup h.distinct hx
  refine ⟨r, hr, here, (fits_occurrences here).mp ?_⟩
  intro o ho
  exact fits o (List.mem_flatMap.mpr ⟨x, hx, ho⟩)

include h covers in
/-- Every variable and every blank node has a value. -/
theorem Translates.value_eq (right : CatalogRight env db.store) (names : NamesDistinct env patterns)
    (row : j ∈ frag.joined db) {y : Slot} (hy : y ∈ slotsOf patterns) :
    frag.value db j (y.name env) = some (assigned env frag.bindings db j y) := by
  have fits : ∀ x ∈ placed, ∃ r, j.lookup x.1 = some r ∧
      RowFits env (assigned env frag.bindings db j) x.2 r := by
    intro x hx
    obtain ⟨r, -, here, fit⟩ := h.sound right row x hx
    exact ⟨r, here, fit⟩
  exact (h.complete covers names fits).2 y hy

include h in
theorem Translates.nodup_joined (right : CatalogRight env db.store) : (frag.joined db).Nodup := by
  refine List.Nodup.filter _ (nodup_sections ?_)
  intro l hl
  rw [h.items, List.map_map] at hl
  obtain ⟨x, hx, rfl⟩ := List.mem_map.mp hl
  refine (nodup_patternSource right (h.union x hx)).map ?_
  intro r r' same
  exact (Prod.mk.inj same).2

include h covers in
/-- The values determine the row, if they determine the graph of each triple. -/
theorem Translates.nodup_slotValues (right : CatalogRight env db.store)
    (once : ∀ tp ∈ patterns, ∀ μ p, tp.predicate.denote env μ = some p →
      InOneGraph env db.store graphFilter p)
    (names : NamesDistinct env patterns) : (slotValues env db frag patterns).Nodup := by
  refine (h.nodup_joined right).map_on ?_
  intro j hj j' hj' same
  have agree : ∀ y ∈ slotsOf patterns,
      assigned env frag.bindings db j' y = assigned env frag.bindings db j y := by
    intro y hy
    have here := List.map_inj_left.mp same y hy
    rw [h.value_eq covers right names hj hy, h.value_eq covers right names hj' hy] at here
    exact (Option.some.inj here).symm
  obtain ⟨rowOf, -⟩ := h.mem_joined.mp hj
  obtain ⟨rowOf', -⟩ := h.mem_joined.mp hj'
  refine joined_ext (rowOf.items.trans rowOf'.items.symm) (rowOf.items ▸ h.distinct) ?_
  intro m
  by_cases used : m ∈ placed.map Prod.fst
  · obtain ⟨x, hx, rfl⟩ := List.mem_map.mp used
    have asked : x.2 ∈ patterns := (covers x.2).mp (List.mem_map.mpr ⟨x, hx, rfl⟩)
    obtain ⟨r, hr, here, fit⟩ := h.sound right hj x hx
    obtain ⟨r', hr', here', fit'⟩ := h.sound right hj' x hx
    have moved : RowFits env (assigned env frag.bindings db j) x.2 r' := by
      refine fit'.congr fun y hy => agree y ?_
      rw [slotsOf, List.mem_dedup, List.mem_flatMap]
      exact ⟨x.2, asked, hy⟩
    rw [here, here', fit.unique moved right (once x.2 asked _) (h.union x hx) hr hr']
  · rw [lookup_eq_none (rowOf.items ▸ used), lookup_eq_none (rowOf'.items ▸ used)]

include h covers in
/-- The values of the rows are the solutions. -/
theorem Translates.mem_slotValues (right : CatalogRight env db.store)
    (names : NamesDistinct env patterns) {vs : List Value} :
    vs ∈ slotValues env db frag patterns ↔
      ∃ μ, vs = (slotsOf patterns).map (fun x => some (μ x)) ∧
        Solution env db.store graphFilter patterns μ := by
  rw [slotValues, List.mem_map]
  constructor
  · rintro ⟨j, hj, rfl⟩
    refine ⟨assigned env frag.bindings db j, ?_, ?_⟩
    · exact List.map_congr_left fun y hy => h.value_eq covers right names hj hy
    · intro tp htp
      obtain ⟨x, hx, rfl⟩ := List.mem_map.mp ((covers tp).mpr htp)
      obtain ⟨r, hr, -, fit⟩ := h.sound right hj x hx
      exact fit.hasTriple right (h.union x hx) hr
  · rintro ⟨μ, rfl, solution⟩
    have rows : ∀ x ∈ placed, ∃ r ∈ (patternSource env graphFilter x.2).rows db,
        RowFits env μ x.2 r := by
      intro x hx
      exact exists_rowFits right (h.union x hx)
        (solution x.2 ((covers x.2).mp (List.mem_map.mpr ⟨x, hx, rfl⟩)))
    obtain ⟨j, rowOf, fits⟩ := exists_rowOf h.distinct rows
    obtain ⟨conditions, values⟩ := h.complete covers names fits
    refine ⟨j, h.mem_joined.mpr ⟨rowOf, conditions⟩, ?_⟩
    exact List.map_congr_left fun y hy => values y hy

end Placed

end Rows

/-- Blank nodes get the same names. -/
def Env.SameNames (env naming : Env) : Prop :=
  env.bnScopePrefix = naming.bnScopePrefix ∧ env.isAlphanumeric = naming.isAlphanumeric

/-- Some pattern has a variable predicate. -/
def AsksAllPredicates (patterns : List TriplePattern) : Prop :=
  ∃ tp ∈ patterns, ∃ v, tp.predicate = .var v

/-- For all data in one graph and all estimates, the translated pattern returns its
solutions. A variable predicate is refused when there are too many predicates. -/
def BgpCorrect (naming : Env) (patterns : List TriplePattern) : Prop :=
  ∀ (env : Env) (db : Db) (κ : Type) [LT κ] [DecidableLT κ] (bgpReorder : Bool)
    (estimate : PatternCost κ) (graphFilter : Option TermId) (n : Nat),
    env.SameNames naming → CatalogRight env db.store → SingleGraph env db.store graphFilter →
    (AsksAllPredicates patterns → env.unionPredicates ≠ none) →
    ∃ frag n', translateBgp env bgpReorder estimate graphFilter n patterns = some (frag, n') ∧
      ReturnsSolutions env db graphFilter patterns frag

section Translation

variable {env naming : Env} {graphFilter : Option TermId} {patterns : List TriplePattern}

theorem Env.SameNames.name (h : env.SameNames naming) (x : Slot) : x.name env = x.name naming := by
  cases x with
  | var v => rfl
  | blank label =>
    simp only [Slot.name, Env.blankName, Env.sanitizeSqlIdent]
    rw [h.1, h.2]

theorem exists_translateTriple (n : Nat) {tp : TriplePattern} (frag : Fragment)
    (union : ∀ v, tp.predicate = .var v → env.unionPredicates ≠ none) :
    ∃ frag', translateTriple env graphFilter n tp frag = some frag' := by
  rw [translateTriple]
  cases hp : tp.predicate with
  | namedNode iri => exact ⟨_, rfl⟩
  | var v =>
    cases found : env.unionPredicates with
    | none => exact absurd found (union v hp)
    | some preds => exact ⟨_, rfl⟩

theorem exists_translateTriples (tps seen : List TriplePattern) (n : Nat) (frag : Fragment)
    (union : AsksAllPredicates tps → env.unionPredicates ≠ none) :
    ∃ frag' n', translateTriples env graphFilter tps seen n frag = some (frag', n') := by
  induction tps generalizing seen n frag with
  | nil => exact ⟨frag, n, rfl⟩
  | cons tp tps ih =>
    have rest : AsksAllPredicates tps → env.unionPredicates ≠ none := by
      rintro ⟨tp', htp', asks⟩
      exact union ⟨tp', List.mem_cons_of_mem tp htp', asks⟩
    rw [translateTriples]
    split
    · exact ih seen n frag rest
    · have one : ∃ mid, translateTriple env graphFilter n tp frag = some mid :=
        exists_translateTriple n frag fun v hv => union ⟨tp, List.mem_cons_self, v, hv⟩
      obtain ⟨mid, one⟩ := one
      obtain ⟨frag', n', rest⟩ := ih (tp :: seen) (n + 1) mid rest
      exact ⟨frag', n', Option.bind_eq_some_iff.mpr ⟨mid, one, rest⟩⟩

/-- A translation joins the patterns, in some order. -/
theorem translates_of_translateBgp {κ : Type} [LT κ] [DecidableLT κ] {bgpReorder : Bool}
    {estimate : PatternCost κ} {n n' : Nat} {frag : Fragment}
    (plain : ∀ tp ∈ patterns, tp.Plain)
    (translated : translateBgp env bgpReorder estimate graphFilter n patterns = some (frag, n')) :
    ∃ placed, Translates env graphFilter placed n' frag ∧
      ∀ tp, tp ∈ placed.map Prod.snd ↔ tp ∈ patterns := by
  have start : Translates env graphFilter [] n .empty := Translates.empty
  obtain ⟨placed, translates, covers⟩ := start.translateTriples (fun tp => by simp)
    (fun tp htp => plain tp (mem_reorderBgp.mp htp)) translated
  refine ⟨placed, translates, ?_⟩
  intro tp
  rw [covers, mem_reorderBgp]
  simp

/-- There is a translation unless there are too many predicates. -/
theorem exists_translateBgp {κ : Type} [LT κ] [DecidableLT κ] (env : Env) (bgpReorder : Bool)
    (estimate : PatternCost κ) (graphFilter : Option TermId) (n : Nat)
    (plain : ∀ tp ∈ patterns, tp.Plain)
    (union : AsksAllPredicates patterns → env.unionPredicates ≠ none) :
    ∃ frag n' placed,
      translateBgp env bgpReorder estimate graphFilter n patterns = some (frag, n') ∧
      Translates env graphFilter placed n' frag ∧
      ∀ tp, tp ∈ placed.map Prod.snd ↔ tp ∈ patterns := by
  have union : AsksAllPredicates (reorderBgp env bgpReorder estimate patterns) →
      env.unionPredicates ≠ none := by
    rintro ⟨tp, htp, asks⟩
    exact union ⟨tp, mem_reorderBgp.mp htp, asks⟩
  obtain ⟨frag, n', translated⟩ := exists_translateTriples
    (reorderBgp env bgpReorder estimate patterns) [] n Fragment.empty union
  obtain ⟨placed, joins⟩ := translates_of_translateBgp plain translated
  exact ⟨frag, n', placed, translated, joins⟩

/-- With different names for different variables and blank nodes, the rows are the
solutions. -/
theorem bgpCorrect_of_namesDistinct (plain : ∀ tp ∈ patterns, tp.Plain)
    (names : NamesDistinct naming patterns) : BgpCorrect naming patterns := by
  intro env db κ _ _ bgpReorder estimate graphFilter n same right single union
  have names : NamesDistinct env patterns := by
    intro y hy y' hy' equal
    rw [same.name, same.name] at equal
    exact names y hy y' hy' equal
  obtain ⟨frag, n', placed, translated, translates, covers⟩ :=
    exists_translateBgp env bgpReorder estimate graphFilter n plain union
  refine ⟨frag, n', translated, ?_, fun values => translates.mem_slotValues covers right names⟩
  exact translates.nodup_slotValues covers right (fun _ _ _ p _ => single.inOneGraph p) names

/-- Every triple over the ids 1 and 2 is in `vp_rare`, in the default graph. -/
def allTriples : List Quad :=
  [1, 2].flatMap fun s => [1, 2].flatMap fun p => [1, 2].map fun o => ⟨s, p, o, 0⟩

def allTriplesStore : Store where
  predicates := ⟨[⟨1, false, 4, false, 0⟩, ⟨2, false, 4, false, 0⟩], by decide⟩
  tables := fun _ => HtapTables.fresh
  rare := ⟨allTriples.map fun q => ⟨q, 1, 0⟩, by decide⟩
  seq := Sequence.initial

/-- Every constant is the term 1. -/
def allTriplesEnv (naming : Env) : Env where
  lookupIri _ := some 1
  literalId _ := 1
  lookupQuotedTriple _ _ _ := none
  vpSource := catalogSource allTriplesStore
  unionPredicates := some allTriplesStore.dedicatedPredicates
  serviceGraphs := []
  bnScopePrefix := naming.bnScopePrefix
  isAlphanumeric := naming.isAlphanumeric

theorem visible_allTriplesStore {q : Quad} : allTriplesStore.Visible q ↔ q ∈ allTriples := by
  have rare : ¬ allTriplesStore.isDedicated q.p = true := by
    rw [← Store.mem_dedicatedPredicates]
    exact List.not_mem_nil
  have keys : allTriplesStore.rare.HasKey q ↔ q ∈ allTriples := by
    rw [UniqueTable.HasKey]
    simp [allTriplesStore]
  rw [Store.Visible, keys]
  simp [rare]

theorem catalogRight_allTriples : CatalogRight (allTriplesEnv naming) allTriplesStore where
  source _ := rfl
  union _ h := (Option.some.inj h).symm
  rare q hq := by
    have listed : ∀ q ∈ allTriples, allTriplesStore.tableOid q.p = some false := by decide
    refine listed q ?_
    simpa [UniqueTable.HasKey, allTriplesStore] using hq

theorem singleGraph_allTriples : SingleGraph (allTriplesEnv naming) allTriplesStore none := by
  have zero : ∀ q ∈ allTriples, q.g = 0 := by decide
  intro q q' visible visible' _ _
  rw [zero q (visible_allTriplesStore.mp visible), zero q' (visible_allTriplesStore.mp visible')]

/-- Any assignment of the ids 1 and 2 is a solution. -/
theorem solution_allTriples (plain : ∀ tp ∈ patterns, tp.Plain) {μ : Slot → TermId}
    (ids : ∀ x, μ x ∈ [(1 : TermId), 2]) :
    Solution (allTriplesEnv naming) allTriplesStore none patterns μ := by
  have term (t : TermPattern) (plain : ∀ s p o, t ≠ .triple s p o) :
      ∃ id ∈ [(1 : TermId), 2], t.denote (allTriplesEnv naming) μ = some id := by
    cases t with
    | var v => exact ⟨_, ids _, rfl⟩
    | blankNode label => exact ⟨_, ids _, rfl⟩
    | namedNode iri => exact ⟨1, List.mem_cons_self, rfl⟩
    | literal lit => exact ⟨1, List.mem_cons_self, rfl⟩
    | triple s p o => exact absurd rfl (plain s p o)
  intro tp htp
  obtain ⟨s, hs, subject⟩ := term tp.subject (plain tp htp).1
  obtain ⟨o, ho, object⟩ := term tp.object (plain tp htp).2
  have predicate : ∃ id ∈ [(1 : TermId), 2],
      tp.predicate.denote (allTriplesEnv naming) μ = some id := by
    cases tp.predicate with
    | var v => exact ⟨_, ids _, rfl⟩
    | namedNode iri => exact ⟨1, List.mem_cons_self, rfl⟩
  obtain ⟨p, hp, predicate⟩ := predicate
  refine ⟨s, p, o, subject, predicate, object, 0, rfl, visible_allTriplesStore.mpr ?_⟩
  have all : ∀ s ∈ [(1 : TermId), 2], ∀ p ∈ [(1 : TermId), 2], ∀ o ∈ [(1 : TermId), 2],
      (⟨s, p, o, 0⟩ : Quad) ∈ allTriples := by decide
  exact all s hs p hp o ho

/-- Two of them under one name always have the same value. -/
theorem not_bgpCorrect (plain : ∀ tp ∈ patterns, tp.Plain) {y y' : Slot}
    (hy : y ∈ slotsOf patterns) (hy' : y' ∈ slotsOf patterns)
    (same : y.name naming = y'.name naming) (different : y ≠ y') :
    ¬ BgpCorrect naming patterns := by
  intro correct
  let μ : Slot → TermId := fun x => if x = y then 2 else 1
  have ids : ∀ x, μ x ∈ [(1 : TermId), 2] := by
    intro x
    simp only [μ]
    split <;> decide
  have sameNames : (allTriplesEnv naming).SameNames naming := ⟨rfl, rfl⟩
  obtain ⟨frag, n', -, returns⟩ := correct (allTriplesEnv naming) ⟨allTriplesStore, []⟩ Nat false
    (fun _ _ _ => 0) none 0 sameNames catalogRight_allTriples singleGraph_allTriples
    (fun _ => Option.some_ne_none _)
  have row := (returns.solutions _).mpr ⟨μ, rfl, solution_allTriples plain ids⟩
  obtain ⟨j, -, values⟩ := List.mem_map.mp row
  have two := List.map_inj_left.mp values y hy
  have one := List.map_inj_left.mp values y' hy'
  rw [sameNames.name] at two one
  rw [same, one] at two
  simp [μ, different.symm] at two

end Translation

/-- A basic graph pattern is translated correctly just if different variables and blank
nodes have different names. -/
theorem bgpCorrect_iff_namesDistinct (naming : Env) (patterns : List TriplePattern)
    (plain : ∀ tp ∈ patterns, tp.Plain) :
    BgpCorrect naming patterns ↔ NamesDistinct naming patterns := by
  constructor
  · intro correct y hy y' hy' same
    by_contra different
    exact not_bgpCorrect plain hy hy' same different correct
  · exact bgpCorrect_of_namesDistinct plain

/-- The settings of one query; only the names matter here. -/
def firstQuery : Env where
  lookupIri _ := none
  literalId _ := 0
  lookupQuotedTriple _ _ _ := none
  vpSource _ := .empty
  unionPredicates := some []
  serviceGraphs := []
  bnScopePrefix := "0"
  isAlphanumeric := Char.isAlphanum

/-- `?x <p> _:a . _:a ?q ?x`. -/
theorem bgpCorrect_loop :
    BgpCorrect firstQuery [⟨.var "x", .namedNode "p", .blankNode "a"⟩,
      ⟨.blankNode "a", .var "q", .var "x"⟩] := by
  refine (bgpCorrect_iff_namesDistinct _ _ ?_).mpr ?_
  · intro tp htp
    simp only [List.mem_cons, List.not_mem_nil, or_false] at htp
    obtain rfl | rfl := htp <;> exact ⟨nofun, nofun⟩
  · rw [NamesDistinct]
    decide

/-- `_:a-b <p> _:a_b`: both labels become `_bn_0___a_b`. -/
theorem not_bgpCorrect_blankLabels :
    ¬ ∀ (naming : Env) (patterns : List TriplePattern), (∀ tp ∈ patterns, tp.Plain) →
      BgpCorrect naming patterns := by
  intro promised
  have plain : ∀ tp ∈ [(⟨.blankNode "a-b", .namedNode "p", .blankNode "a_b"⟩ : TriplePattern)],
      tp.Plain := by
    intro tp htp
    cases List.mem_singleton.mp htp
    exact ⟨nofun, nofun⟩
  have same : (Slot.blank "a-b").name firstQuery = (Slot.blank "a_b").name firstQuery := by
    decide
  refine not_bgpCorrect plain ?_ ?_ same ?_ (promised firstQuery _ plain)
  · decide
  · decide
  · decide

end PgRipple.Sparql
