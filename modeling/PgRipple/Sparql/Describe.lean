import PgRipple.Dictionary.Rows
import PgRipple.Lib.DepthFirst
import PgRipple.Storage.Export
import Mathlib.Data.List.Pairwise

/-!
# `DESCRIBE`

`describe_cbd` collects the triples of a node, of the blank nodes that they lead to, and so on;
in its symmetric form it also follows arcs backwards. It keeps the nodes to come on a stack,
each with a depth that is fixed when the node is pushed.

The stack is a depth-first search that tries the arcs of a node from the last one to the first.
The depth that is compared with the limit is the depth in the tree of this search, not the
distance from the start.
-/

namespace PgRipple

namespace Storage

namespace Store

/-- `triples_for_subject`: predicates and objects, from the views and from `vp_rare`. -/
def triplesForSubject (st : Store) (s : TermId) : List (TermId × TermId) :=
  (st.dedicatedPredicates.flatMap fun p =>
    ((st.tables p).htapView.filter fun r => r.key.s = s).map fun r => (p, r.key.o)) ++
  (st.rare.rows.filter fun r => r.quad.s = s).map fun r => (r.quad.p, r.quad.o)

/-- `triples_for_object`: subjects and predicates. -/
def triplesForObject (st : Store) (o : TermId) : List (TermId × TermId) :=
  (st.dedicatedPredicates.flatMap fun p =>
    ((st.tables p).htapView.filter fun r => r.key.o = o).map fun r => (r.key.s, p)) ++
  (st.rare.rows.filter fun r => r.quad.o = o).map fun r => (r.quad.s, r.quad.p)

/-- The quads of all relations, as they are scanned. -/
def scannedQuads (st : Store) : List Quad :=
  viewQuads none st st.dedicatedPredicates ++ (st.rareRows none).map RareRow.quad

variable {st : Store} {q : Quad}

@[simp] theorem mem_scannedQuads : q ∈ st.scannedQuads ↔ st.Visible q := by
  rw [scannedQuads, List.mem_append, mem_viewQuads, mem_rareQuads, mem_dedicatedPredicates, Visible]
  simp [inGraph]

/-- A predicate has its triples in one place. -/
theorem Layout.nodup_scannedQuads (h : st.Layout) : st.scannedQuads.Nodup := by
  refine (nodup_viewQuads st none st.nodup_dedicatedPredicates).append (nodup_rareQuads st none) ?_
  intro q view rare
  have dedicated := mem_dedicatedPredicates.mp (mem_viewQuads.mp view).1
  rw [h.rare q (mem_rareQuads.mp rare).2] at dedicated
  cases dedicated

theorem viewRows_none (st : Store) (p : TermId) : st.viewRows none p = (st.tables p).htapView :=
  List.filter_eq_self.mpr fun _ _ => rfl

theorem rareRows_none (st : Store) : st.rareRows none = st.rare.rows :=
  List.filter_eq_self.mpr fun _ _ => rfl

theorem triplesForSubject_eq (st : Store) (s : TermId) :
    st.triplesForSubject s = (st.scannedQuads.filter fun q => q.s = s).map fun q => (q.p, q.o) := by
  simp only [triplesForSubject, scannedQuads, viewQuads, viewRows_none, rareRows_none,
    List.filter_append, List.map_append, List.filter_flatMap, List.map_flatMap, List.filter_map,
    List.map_map]
  rfl

theorem triplesForObject_eq (st : Store) (o : TermId) :
    st.triplesForObject o = (st.scannedQuads.filter fun q => q.o = o).map fun q => (q.s, q.p) := by
  simp only [triplesForObject, scannedQuads, viewQuads, viewRows_none, rareRows_none,
    List.filter_append, List.map_append, List.filter_flatMap, List.map_flatMap, List.filter_map,
    List.map_map]
  rfl

end Store

end Storage

namespace Sparql

namespace Describe

open Storage Dictionary

/-- `is_blank_node`. -/
def isBlankNode (d : Dict) (id : Int) : Bool :=
  if isInline id then false else (d.decodeFull id).map TermInfo.kind = some .blank

/-- What the traversal ends with. -/
inductive Outcome where
  | triples (ts : List (TermId × TermId × TermId))
  | depthLimit
  deriving DecidableEq

section Model

variable (d : Dict) (st : Store) (symmetric : Bool) (maxDepth : Nat)

/-- Push the blank nodes that have not been visited. -/
def pushBlanks (visited : List TermId) (depth : Nat) (ids : List TermId)
    (queue : List (TermId × Nat)) : List (TermId × Nat) :=
  ids.foldl
    (fun queue id =>
      if isBlankNode d id = true ∧ id ∉ visited then (id, depth + 1) :: queue else queue) queue

/-- The loop over the stack. -/
def describeLoop : (fuel : Nat) → (queue : List (TermId × Nat)) → (visited : List TermId) →
    (triples : List (TermId × TermId × TermId)) → Option Outcome
  | 0, _, _, _ => none
  | _ + 1, [], _, triples => some (.triples triples)
  | fuel + 1, (s, depth) :: queue, visited, triples =>
    if s ∈ visited then describeLoop fuel queue visited triples
    else
      let visited := s :: visited
      if maxDepth < depth then some .depthLimit
      else
        let outgoing := st.triplesForSubject s
        let triples := triples ++ outgoing.map fun x => (s, x.1, x.2)
        let queue := pushBlanks d visited depth (outgoing.map Prod.snd) queue
        if symmetric then
          let incoming := st.triplesForObject s
          let triples := triples ++ incoming.map fun x => (x.1, x.2, s)
          describeLoop fuel (pushBlanks d visited depth (incoming.map Prod.fst) queue)
            visited triples
        else describeLoop fuel queue visited triples

/-- `describe_cbd`. -/
def describeCbd (fuel : Nat) (subject : TermId) : Option Outcome :=
  describeLoop d st symmetric maxDepth fuel [(subject, 0)] [] []

/-- The traversal ends, and with this outcome. -/
def Returns (subject : TermId) (outcome : Outcome) : Prop :=
  ∃ n, ∀ fuel, describeCbd d st symmetric maxDepth (n + fuel) subject = some outcome

end Model

section Spec

variable (d : Dict) (st : Store) (symmetric : Bool) (start : TermId)

/-- The triple is in the graph. -/
def Holds (t : TermId × TermId × TermId) : Prop := ∃ g, st.Visible ⟨t.1, t.2.1, t.2.2, g⟩

/-- An arc leads to a blank node. -/
def BlankStep (x y : TermId) : Prop :=
  isBlankNode d y = true ∧
    ((∃ p, Holds st (x, p, y)) ∨ (symmetric = true ∧ ∃ p, Holds st (y, p, x)))

/-- The start, and the blank nodes of its description. -/
def Reached : TermId → Prop := Relation.ReflTransGen (BlankStep d st symmetric) start

/-- The (symmetric) concise bounded description. -/
def Described (t : TermId × TermId × TermId) : Prop :=
  Holds st t ∧ (Reached d st symmetric start t.1 ∨
    (symmetric = true ∧ Reached d st symmetric start t.2.2))

/-- What can be reached in some number of steps at most. -/
def Within : Nat → TermId → Prop
  | 0, x => x = start
  | n + 1, x => Within n x ∨ ∃ y, Within n y ∧ BlankStep d st symmetric y x

/-- The traversal ends, and unless a blank node is too far away it returns each triple of the
description exactly once. -/
structure DescribesRight (maxDepth : Nat) : Prop where
  ends : ∃ outcome, Returns d st symmetric maxDepth start outcome
  exact_ : (∀ x, Reached d st symmetric start x → Within d st symmetric start maxDepth x) →
    ∃ ts, Returns d st symmetric maxDepth start (.triples ts) ∧ ts.Nodup ∧
      ∀ t, t ∈ ts ↔ Described d st symmetric start t

/-- The blank nodes at the arcs of a node, from the last arc to the first. -/
def lastFirst (x : TermId) : List TermId :=
  ((((st.triplesForSubject x).map Prod.snd) ++
    if symmetric then (st.triplesForObject x).map Prod.fst else []).filter
      (isBlankNode d ·)).reverse

end Spec

section Arcs

variable {d : Dict} {st : Store} {symmetric : Bool} {t : TermId × TermId × TermId} {x y : TermId}

/-- The triples that are pushed for a node. -/
def arcs (st : Store) (symmetric : Bool) (x : TermId) : List (TermId × TermId × TermId) :=
  ((st.triplesForSubject x).map fun e => (x, e.1, e.2)) ++
    if symmetric then (st.triplesForObject x).map fun e => (e.1, e.2, x) else []

/-- The triple of a quad. -/
def triple (q : Quad) : TermId × TermId × TermId := (q.s, q.p, q.o)

theorem holds_iff : Holds st t ↔ ∃ q ∈ st.scannedQuads, triple q = t := by
  constructor
  · rintro ⟨g, visible⟩
    exact ⟨_, Store.mem_scannedQuads.mpr visible, rfl⟩
  · rintro ⟨q, hq, rfl⟩
    exact ⟨q.g, Store.mem_scannedQuads.mp hq⟩

theorem outgoing_eq (st : Store) (x : TermId) :
    ((st.triplesForSubject x).map fun e => (x, e.1, e.2)) =
      (st.scannedQuads.filter fun q => q.s = x).map triple := by
  rw [Store.triplesForSubject_eq, List.map_map]
  refine List.map_congr_left ?_
  intro q hq
  have here : q.s = x := of_decide_eq_true (List.mem_filter.mp hq).2
  rw [← here]
  rfl

theorem incoming_eq (st : Store) (x : TermId) :
    ((st.triplesForObject x).map fun e => (e.1, e.2, x)) =
      (st.scannedQuads.filter fun q => q.o = x).map triple := by
  rw [Store.triplesForObject_eq, List.map_map]
  refine List.map_congr_left ?_
  intro q hq
  have here : q.o = x := of_decide_eq_true (List.mem_filter.mp hq).2
  rw [← here]
  rfl

theorem mem_triples (keep : TermId × TermId × TermId → Bool) :
    t ∈ (st.scannedQuads.filter fun q => keep (triple q)).map triple ↔
      Holds st t ∧ keep t = true := by
  rw [holds_iff, List.mem_map]
  constructor
  · rintro ⟨q, hq, rfl⟩
    obtain ⟨hq, here⟩ := List.mem_filter.mp hq
    exact ⟨⟨q, hq, rfl⟩, here⟩
  · rintro ⟨⟨q, hq, rfl⟩, here⟩
    exact ⟨q, List.mem_filter.mpr ⟨hq, here⟩, rfl⟩

theorem mem_outgoing :
    t ∈ (st.scannedQuads.filter fun q => q.s = x).map triple ↔ Holds st t ∧ t.1 = x :=
  (mem_triples fun t => t.1 = x).trans (and_congr_right fun _ => decide_eq_true_iff)

theorem mem_incoming :
    t ∈ (st.scannedQuads.filter fun q => q.o = x).map triple ↔ Holds st t ∧ t.2.2 = x :=
  (mem_triples fun t => t.2.2 = x).trans (and_congr_right fun _ => decide_eq_true_iff)

theorem arcs_eq (st : Store) (symmetric : Bool) (x : TermId) : arcs st symmetric x =
    (st.scannedQuads.filter fun q => q.s = x).map triple ++
      if symmetric then (st.scannedQuads.filter fun q => q.o = x).map triple else [] := by
  rw [arcs, outgoing_eq, incoming_eq]

theorem mem_arcs :
    t ∈ arcs st symmetric x ↔ Holds st t ∧ (t.1 = x ∨ (symmetric = true ∧ t.2.2 = x)) := by
  rw [arcs_eq, List.mem_append, mem_outgoing]
  cases symmetric with
  | false => simp
  | true =>
    rw [if_pos rfl, mem_incoming, ← and_or_left]
    simp

/-- The blank nodes of the arcs of a node. -/
theorem mem_lastFirst : y ∈ lastFirst d st symmetric x ↔ BlankStep d st symmetric x y := by
  have outgoing : y ∈ (st.triplesForSubject x).map Prod.snd ↔ ∃ p, Holds st (x, p, y) := by
    rw [Store.triplesForSubject_eq, List.map_map, List.mem_map]
    constructor
    · rintro ⟨q, hq, rfl⟩
      obtain ⟨hq, here⟩ := List.mem_filter.mp hq
      have here : q.s = x := of_decide_eq_true here
      exact ⟨q.p, holds_iff.mpr ⟨q, hq, by rw [← here]; rfl⟩⟩
    · rintro ⟨p, g, visible⟩
      exact ⟨_, List.mem_filter.mpr
        ⟨Store.mem_scannedQuads.mpr visible, decide_eq_true rfl⟩, rfl⟩
  have incoming : y ∈ (st.triplesForObject x).map Prod.fst ↔ ∃ p, Holds st (y, p, x) := by
    rw [Store.triplesForObject_eq, List.map_map, List.mem_map]
    constructor
    · rintro ⟨q, hq, rfl⟩
      obtain ⟨hq, here⟩ := List.mem_filter.mp hq
      have here : q.o = x := of_decide_eq_true here
      exact ⟨q.p, holds_iff.mpr ⟨q, hq, by rw [← here]; rfl⟩⟩
    · rintro ⟨p, g, visible⟩
      exact ⟨_, List.mem_filter.mpr
        ⟨Store.mem_scannedQuads.mpr visible, decide_eq_true rfl⟩, rfl⟩
  rw [lastFirst, List.mem_reverse, List.mem_filter, List.mem_append, outgoing, BlankStep]
  cases symmetric with
  | false => simp [and_comm]
  | true => simp [incoming, and_comm]

end Arcs

section Loop

variable {d : Dict} {st : Store} {symmetric : Bool} {maxDepth depth : Nat}
  {visited V W xs ids : List TermId} {order : List (TermId × Nat)} {x : TermId}

theorem pushBlanks_eq (d : Dict) (visited : List TermId) (depth : Nat) (ids : List TermId)
    (queue : List (TermId × Nat)) : pushBlanks d visited depth ids queue =
      ((ids.filter (isBlankNode d ·)).reverse.filter (· ∉ visited)).map (·, depth + 1) ++
        queue := by
  induction ids generalizing queue with
  | nil => rfl
  | cons id ids ih =>
    have step : pushBlanks d visited depth (id :: ids) queue = pushBlanks d visited depth ids
        (if isBlankNode d id = true ∧ id ∉ visited then (id, depth + 1) :: queue else queue) := rfl
    rw [step, ih]
    by_cases blank : isBlankNode d id = true
    · by_cases old : id ∈ visited
      · simp [blank, old]
      · simp [blank, old]
    · simp [blank]

/-- What is on the stack of nodes that were pushed when `W` had been visited. -/
def stacked (W : List TermId) (depth : Nat) (xs : List TermId) : List (TermId × Nat) :=
  (xs.filter (· ∉ W)).map (·, depth)

theorem stacked_cons_of_mem (hx : x ∈ W) : stacked W depth (x :: xs) = stacked W depth xs := by
  simp [stacked, hx]

theorem stacked_cons (hx : x ∉ W) :
    stacked W depth (x :: xs) = (x, depth) :: stacked W depth xs := by
  simp [stacked, hx]

theorem loop_seen (fuel : Nat) (queue : List (TermId × Nat))
    (acc : List (TermId × TermId × TermId)) (seen : x ∈ V) :
    describeLoop d st symmetric maxDepth (fuel + 1) ((x, depth) :: queue) V acc =
      describeLoop d st symmetric maxDepth fuel queue V acc := by
  rw [describeLoop, if_pos seen]

theorem loop_deep (fuel : Nat) (queue : List (TermId × Nat))
    (acc : List (TermId × TermId × TermId)) (fresh : x ∉ V) (deep : maxDepth < depth) :
    describeLoop d st symmetric maxDepth (fuel + 1) ((x, depth) :: queue) V acc =
      some .depthLimit := by
  rw [describeLoop, if_neg fresh, if_pos deep]

/-- A visit pushes the blank nodes of the arcs, so that the last one is on top. -/
theorem loop_visit (fuel : Nat) (queue : List (TermId × Nat))
    (acc : List (TermId × TermId × TermId)) (fresh : x ∉ V) (shallow : ¬maxDepth < depth) :
    describeLoop d st symmetric maxDepth (fuel + 1) ((x, depth) :: queue) V acc =
      describeLoop d st symmetric maxDepth fuel
        (stacked (x :: V) (depth + 1) (lastFirst d st symmetric x) ++ queue) (x :: V)
        (acc ++ arcs st symmetric x) := by
  rw [describeLoop, if_neg fresh, if_neg shallow]
  cases symmetric with
  | false => simp [pushBlanks_eq, stacked, lastFirst, arcs]
  | true => simp [pushBlanks_eq, stacked, lastFirst, arcs]

/-- If no node is too deep in the search, the loop takes it off the stack and collects the arcs
of its nodes. -/
theorem loop_search (h : DepthFirst (lastFirst d st symmetric) depth V xs order)
    (shallow : ∀ v ∈ order, v.2 ≤ maxDepth) (subset : W ⊆ V) (queue : List (TermId × Nat))
    (acc : List (TermId × TermId × TermId)) : ∃ n, ∀ fuel,
      describeLoop d st symmetric maxDepth (n + fuel) (stacked W depth xs ++ queue) V acc =
        describeLoop d st symmetric maxDepth fuel queue ((order.map Prod.fst).reverse ++ V)
          (acc ++ order.flatMap fun v => arcs st symmetric v.1) := by
  induction h generalizing W queue acc with
  | nil =>
    refine ⟨0, ?_⟩
    intro fuel
    simp [stacked]
  | @skip depth V xs x order seen rest ih =>
    obtain ⟨n, run⟩ := ih shallow subset queue acc
    by_cases old : x ∈ W
    · refine ⟨n, ?_⟩
      intro fuel
      rw [stacked_cons_of_mem old, run]
    · refine ⟨n + 1, ?_⟩
      intro fuel
      rw [stacked_cons old, List.cons_append, Nat.add_right_comm, loop_seen _ _ _ seen, run]
  | @visit depth V xs x below later fresh inside rest ihI ihR =>
    have shallowX : ¬maxDepth < depth := Nat.not_lt.mpr (shallow (x, depth) (by simp))
    obtain ⟨n, runI⟩ := ihI (fun v hv => shallow v (by simp [hv])) (List.Subset.refl (x :: V))
      (stacked W depth xs ++ queue) (acc ++ arcs st symmetric x)
    have subset' : W ⊆ (below.map Prod.fst).reverse ++ x :: V := fun w hw =>
      List.mem_append_right _ (List.mem_cons_of_mem x (subset hw))
    obtain ⟨m, runR⟩ := ihR (fun v hv => shallow v (by simp [hv])) subset' queue
      (acc ++ arcs st symmetric x ++ below.flatMap fun v => arcs st symmetric v.1)
    refine ⟨n + m + 1, ?_⟩
    intro fuel
    have old : x ∉ W := fun hx => fresh (subset hx)
    rw [stacked_cons old, List.cons_append, show n + m + 1 + fuel = n + (m + fuel) + 1 by omega,
      loop_visit _ _ _ fresh shallowX, runI, runR]
    simp

/-- If some node is too deep, the loop stops at the first one. -/
theorem loop_search_deep (h : DepthFirst (lastFirst d st symmetric) depth V xs order)
    (deep : ∃ v ∈ order, maxDepth < v.2) (subset : W ⊆ V) (queue : List (TermId × Nat))
    (acc : List (TermId × TermId × TermId)) : ∃ n, ∀ fuel,
      describeLoop d st symmetric maxDepth (n + fuel) (stacked W depth xs ++ queue) V acc =
        some .depthLimit := by
  induction h generalizing W queue acc with
  | nil =>
    obtain ⟨v, hv, -⟩ := deep
    cases hv
  | @skip depth V xs x order seen rest ih =>
    obtain ⟨n, run⟩ := ih deep subset queue acc
    by_cases old : x ∈ W
    · refine ⟨n, ?_⟩
      intro fuel
      rw [stacked_cons_of_mem old, run]
    · refine ⟨n + 1, ?_⟩
      intro fuel
      rw [stacked_cons old, List.cons_append, Nat.add_right_comm, loop_seen _ _ _ seen, run]
  | @visit depth V xs x below later fresh inside rest ihI ihR =>
    have old : x ∉ W := fun hx => fresh (subset hx)
    rw [stacked_cons old]
    by_cases deepX : maxDepth < depth
    · refine ⟨1, ?_⟩
      intro fuel
      rw [List.cons_append, Nat.add_comm, loop_deep _ _ _ fresh deepX]
    by_cases deepI : ∃ v ∈ below, maxDepth < v.2
    · obtain ⟨n, run⟩ := ihI deepI (List.Subset.refl (x :: V)) (stacked W depth xs ++ queue)
        (acc ++ arcs st symmetric x)
      refine ⟨n + 1, ?_⟩
      intro fuel
      rw [List.cons_append, Nat.add_right_comm, loop_visit _ _ _ fresh deepX, run]
    · have shallowI (v : TermId × Nat) (hv : v ∈ below) : v.2 ≤ maxDepth :=
        Nat.not_lt.mp fun hlt => deepI ⟨v, hv, hlt⟩
      obtain ⟨n, runI⟩ := loop_search inside shallowI (List.Subset.refl (x :: V))
        (stacked W depth xs ++ queue) (acc ++ arcs st symmetric x)
      have deepR : ∃ v ∈ later, maxDepth < v.2 := by
        obtain ⟨v, hv, hlt⟩ := deep
        obtain hv | hv := List.mem_append.mp hv
        · obtain rfl | hv := List.mem_cons.mp hv
          · exact absurd hlt deepX
          · exact absurd ⟨v, hv, hlt⟩ deepI
        · exact ⟨v, hv, hlt⟩
      have subset' : W ⊆ (below.map Prod.fst).reverse ++ x :: V := fun w hw =>
        List.mem_append_right _ (List.mem_cons_of_mem x (subset hw))
      obtain ⟨m, runR⟩ := ihR deepR subset' queue
        (acc ++ arcs st symmetric x ++ below.flatMap fun v => arcs st symmetric v.1)
      refine ⟨n + m + 1, ?_⟩
      intro fuel
      rw [List.cons_append, show n + m + 1 + fuel = n + (m + fuel) + 1 by omega,
        loop_visit _ _ _ fresh deepX, runI, runR]

end Loop

section Outcomes

variable {d : Dict} {st : Store} {symmetric : Bool} {maxDepth : Nat} {start : TermId}
  {order : List (TermId × Nat)} {y : TermId}

theorem Returns.unique {a b : Outcome} (ha : Returns d st symmetric maxDepth start a)
    (hb : Returns d st symmetric maxDepth start b) : a = b := by
  obtain ⟨n, runA⟩ := ha
  obtain ⟨m, runB⟩ := hb
  refine Option.some_inj.mp ?_
  rw [← runA m, ← runB n, Nat.add_comm]

/-- The ids of a store are finitely many, so the search ends. -/
theorem exists_search (d : Dict) (st : Store) (symmetric : Bool) (start : TermId) :
    ∃ order, DepthFirst (lastFirst d st symmetric) 0 [] [start] order := by
  let ends : Finset TermId := (st.scannedQuads.flatMap fun q => [q.s, q.o]).toFinset
  have known {s p o : TermId} (holds : Holds st (s, p, o)) : s ∈ ends ∧ o ∈ ends := by
    obtain ⟨q, hq, same⟩ := holds_iff.mp holds
    cases same
    simp only [ends, List.mem_toFinset, List.mem_flatMap]
    exact ⟨⟨q, hq, by simp⟩, ⟨q, hq, by simp⟩⟩
  refine DepthFirst.exists_depthFirst (insert start ends) ?_ 0 [] [start] ?_
  · intro x _ y hy
    refine Finset.mem_insert_of_mem ?_
    obtain ⟨-, ⟨p, holds⟩ | ⟨-, p, holds⟩⟩ := mem_lastFirst.mp hy
    · exact (known holds).2
    · exact (known holds).1
  · intro x hx
    rw [List.mem_singleton.mp hx]
    exact Finset.mem_insert_self start ends

theorem mem_search (h : DepthFirst (lastFirst d st symmetric) 0 [] [start] order) :
    y ∈ order.map Prod.fst ↔ Reached d st symmetric start y := by
  have same : (fun x y => y ∈ lastFirst d st symmetric x ∧ y ∉ { v | v ∈ ([] : List TermId) }) =
      BlankStep d st symmetric := by
    funext x y
    simp [mem_lastFirst]
  rw [h.explored.mem_iff, Kosaraju.Path, same]
  simp [Reached]

theorem returns_triples (h : DepthFirst (lastFirst d st symmetric) 0 [] [start] order)
    (shallow : ∀ v ∈ order, v.2 ≤ maxDepth) : Returns d st symmetric maxDepth start
      (.triples (order.flatMap fun v => arcs st symmetric v.1)) := by
  obtain ⟨n, run⟩ := loop_search h shallow (List.Subset.refl []) [] []
  refine ⟨n + 1, ?_⟩
  intro fuel
  rw [Nat.add_assoc]
  refine (run (1 + fuel)).trans ?_
  rw [Nat.add_comm 1 fuel, describeLoop, List.nil_append]

theorem returns_depthLimit (h : DepthFirst (lastFirst d st symmetric) 0 [] [start] order)
    (deep : ∃ v ∈ order, maxDepth < v.2) : Returns d st symmetric maxDepth start .depthLimit :=
  loop_search_deep h deep (List.Subset.refl []) [] []

/-- A triple is in the description if its arc is pushed for some node. -/
theorem mem_flatMap_arcs (h : DepthFirst (lastFirst d st symmetric) 0 [] [start] order)
    (t : TermId × TermId × TermId) :
    t ∈ order.flatMap (fun v => arcs st symmetric v.1) ↔ Described d st symmetric start t := by
  have nodes : t ∈ order.flatMap (fun v => arcs st symmetric v.1) ↔
      ∃ x, Reached d st symmetric start x ∧ t ∈ arcs st symmetric x := by
    simp only [List.mem_flatMap, ← mem_search h, List.mem_map, Prod.exists, exists_and_right,
      exists_eq_right]
  rw [nodes, Described]
  constructor
  · rintro ⟨x, hx, ht⟩
    obtain ⟨holds, rfl | ⟨sym, rfl⟩⟩ := mem_arcs.mp ht
    · exact ⟨holds, .inl hx⟩
    · exact ⟨holds, .inr ⟨sym, hx⟩⟩
  · rintro ⟨holds, hx | ⟨sym, hx⟩⟩
    · exact ⟨t.1, hx, mem_arcs.mpr ⟨holds, .inl rfl⟩⟩
    · exact ⟨t.2.2, hx, mem_arcs.mpr ⟨holds, .inr ⟨sym, rfl⟩⟩⟩

/-- The triple is in one graph at most. -/
def OneGraph (st : Store) (t : TermId × TermId × TermId) : Prop :=
  ∀ g g', st.Visible ⟨t.1, t.2.1, t.2.2, g⟩ → st.Visible ⟨t.1, t.2.1, t.2.2, g'⟩ → g = g'

theorem nodup_triples (h : st.Layout) (keep : TermId × TermId × TermId → Bool) :
    ((st.scannedQuads.filter fun q => keep (triple q)).map triple).Nodup ↔
      ∀ t, Holds st t → keep t = true → OneGraph st t := by
  rw [List.nodup_map_iff_inj_on (h.nodup_scannedQuads.filter _)]
  have listed {t : TermId × TermId × TermId} {g : TermId}
      (visible : st.Visible ⟨t.1, t.2.1, t.2.2, g⟩) (kept : keep t = true) :
      (⟨t.1, t.2.1, t.2.2, g⟩ : Quad) ∈ st.scannedQuads.filter fun q => keep (triple q) :=
    List.mem_filter.mpr ⟨Store.mem_scannedQuads.mpr visible, kept⟩
  constructor
  · intro inj t _ kept g g' visible visible'
    exact congrArg Quad.g (inj _ (listed visible kept) _ (listed visible' kept) rfl)
  · intro one q hq q' hq' same
    obtain ⟨hq, kept⟩ := List.mem_filter.mp hq
    have visible := Store.mem_scannedQuads.mp hq
    have visible' := Store.mem_scannedQuads.mp (List.mem_filter.mp hq').1
    obtain ⟨s, p, o, g⟩ := q
    obtain ⟨s', p', o', g'⟩ := q'
    cases same
    cases one _ ⟨g, visible⟩ kept g g' visible visible'
    rfl

/-- A node pushes an arc twice if it is in two graphs, or leads back to the node and the
description is symmetric. -/
theorem nodup_arcs (h : st.Layout) {x : TermId} : (arcs st symmetric x).Nodup ↔
    (∀ t ∈ arcs st symmetric x, OneGraph st t) ∧
      (symmetric = true → ∀ p, ¬Holds st (x, p, x)) := by
  have outgoing := nodup_triples h fun t => t.1 = x
  have incoming := nodup_triples h fun t => t.2.2 = x
  simp only [decide_eq_true_eq] at outgoing incoming
  simp only [mem_arcs]
  rw [arcs_eq]
  cases symmetric with
  | false =>
    simp only [Bool.false_eq_true, if_false, List.append_nil, false_and, or_false,
      false_implies, and_true, and_imp]
    exact outgoing
  | true =>
    simp only [if_true, List.nodup_append', true_and, forall_const]
    constructor
    · rintro ⟨first, second, apart⟩
      refine ⟨?_, ?_⟩
      · rintro t ⟨holds, here | here⟩
        · exact outgoing.mp first t holds here
        · exact incoming.mp second t holds here
      · intro p holds
        exact apart (mem_outgoing.mpr ⟨holds, rfl⟩) (mem_incoming.mpr ⟨holds, rfl⟩)
    · rintro ⟨one, noLoop⟩
      refine ⟨?_, ?_, ?_⟩
      · exact outgoing.mpr fun t holds here => one t ⟨holds, .inl here⟩
      · exact incoming.mpr fun t holds here => one t ⟨holds, .inr here⟩
      · intro t first second
        obtain ⟨holds, here⟩ := mem_outgoing.mp first
        obtain ⟨-, here'⟩ := mem_incoming.mp second
        obtain ⟨s, p, o⟩ := t
        cases here
        cases here'
        exact noLoop p holds

/-- A triple is pushed twice if it is in two graphs, or if the description is symmetric and has
both ends. -/
theorem nodup_flatMap_arcs (h : st.Layout)
    (search : DepthFirst (lastFirst d st symmetric) 0 [] [start] order) :
    (order.flatMap fun v => arcs st symmetric v.1).Nodup ↔
      (∀ t, Described d st symmetric start t → OneGraph st t) ∧
        (symmetric = true → ∀ t, Holds st t →
          ¬(Reached d st symmetric start t.1 ∧ Reached d st symmetric start t.2.2)) := by
  have described := mem_flatMap_arcs search
  rw [← List.flatMap_map] at described ⊢
  rw [List.nodup_flatMap]
  simp only [← mem_search search, ← described]
  have nodes := search.explored.nodup
  constructor
  · rintro ⟨each, apart⟩
    refine ⟨?_, ?_⟩
    · intro t ht
      obtain ⟨x, hx, ht⟩ := List.mem_flatMap.mp ht
      exact ((nodup_arcs h).mp (each x hx)).1 t ht
    · rintro sym ⟨s, p, o⟩ holds ⟨hs, ho⟩
      by_cases same : s = o
      · subst same
        exact ((nodup_arcs h).mp (each s hs)).2 sym p holds
      · have symm : Std.Symm (Function.onFun List.Disjoint (arcs st symmetric)) :=
          ⟨fun _ _ disjoint => disjoint.symm⟩
        have disjoint := apart.forall hs ho same
        exact disjoint (mem_arcs.mpr ⟨holds, .inl rfl⟩) (mem_arcs.mpr ⟨holds, .inr ⟨sym, rfl⟩⟩)
  · rintro ⟨one, ends⟩
    refine ⟨?_, ?_⟩
    · intro x hx
      refine (nodup_arcs h).mpr ⟨?_, ?_⟩
      · intro t ht
        exact one t (List.mem_flatMap.mpr ⟨x, hx, ht⟩)
      · intro sym p holds
        exact ends sym _ holds ⟨hx, hx⟩
    · refine nodes.imp_of_mem ?_
      intro x y hx hy differ t ht ht'
      obtain ⟨holds, here⟩ := mem_arcs.mp ht
      obtain ⟨-, here'⟩ := mem_arcs.mp ht'
      obtain rfl | ⟨sym, rfl⟩ := here
      · obtain here' | ⟨sym, rfl⟩ := here'
        · exact differ here'
        · exact ends sym t holds ⟨hx, hy⟩
      · obtain rfl | ⟨-, here'⟩ := here'
        · exact ends sym t holds ⟨hy, hx⟩
        · exact differ here'

/-- `describe_cbd` ends on every graph. It is right if and only if, where the blank nodes are
near enough, no node is too deep in the search that tries the last arcs first, and no triple of
the description is in two graphs or, in the symmetric form, has both ends in the description. -/
theorem describeCbd_describesRight_iff (d : Dict) {st : Store} (h : st.Layout)
    (symmetric : Bool) (start : TermId) (maxDepth : Nat) :
    DescribesRight d st symmetric start maxDepth ↔
      ((∀ x, Reached d st symmetric start x → Within d st symmetric start maxDepth x) →
        (∃ order, DepthFirst (lastFirst d st symmetric) 0 [] [start] order ∧
          ∀ v ∈ order, v.2 ≤ maxDepth) ∧
        (∀ t, Described d st symmetric start t → OneGraph st t) ∧
        (symmetric = true → ∀ t, Holds st t →
          ¬(Reached d st symmetric start t.1 ∧ Reached d st symmetric start t.2.2))) := by
  obtain ⟨order, search⟩ := exists_search d st symmetric start
  constructor
  · intro right near
    obtain ⟨ts, returns, nodup, -⟩ := right.exact_ near
    have shallow : ∀ v ∈ order, v.2 ≤ maxDepth := by
      by_contra deep
      push Not at deep
      have raised := returns_depthLimit search deep
      exact absurd (returns.unique raised) (by simp)
    cases returns.unique (returns_triples search shallow)
    exact ⟨⟨order, search, shallow⟩, (nodup_flatMap_arcs h search).mp nodup⟩
  · intro fine
    refine ⟨?_, ?_⟩
    · by_cases deep : ∃ v ∈ order, maxDepth < v.2
      · exact ⟨_, returns_depthLimit search deep⟩
      · push Not at deep
        exact ⟨_, returns_triples search deep⟩
    · intro near
      obtain ⟨⟨order, search, shallow⟩, once⟩ := fine near
      exact ⟨_, returns_triples search shallow, (nodup_flatMap_arcs h search).mpr once,
        mem_flatMap_arcs search⟩

end Outcomes

/-- A dictionary with the blank nodes 1 and 2. -/
def blankDict : Dict :=
  let d := ((Dict.initial false 0).upsert 1 ⟨['a'], .blank, none, none, none⟩).2
  (d.upsert 2 ⟨['b'], .blank, none, none, none⟩).2

/-- The node 3 has arcs to both, and one of them has an arc to the other. -/
def blankStore (s o : TermId) : Store :=
  Store.run [.insertEncodedTriple 0 ⟨3, 4, 1, 0⟩, .insertEncodedTriple 0 ⟨3, 4, 2, 0⟩,
    .insertEncodedTriple 0 ⟨s, 4, o, 0⟩] Store.initial

theorem layout_blankStore (s o : TermId) : (blankStore s o).Layout :=
  ((Store.layout_initial.apply (.insertEncodedTriple 0 ⟨3, 4, 1, 0⟩)).apply
    (.insertEncodedTriple 0 ⟨3, 4, 2, 0⟩)).apply (.insertEncodedTriple 0 ⟨s, 4, o, 0⟩)

theorem eq_of_blank {y : TermId} (blank : isBlankNode blankDict y = true) : y = 1 ∨ y = 2 := by
  have rows : blankDict.rows.rows.map TermRow.id = [1, 2] := by decide
  unfold isBlankNode at blank
  split at blank
  · cases blank
  · obtain ⟨info, found, -⟩ := Option.map_eq_some_iff.mp (of_decide_eq_true blank)
    obtain ⟨row, found, -⟩ := Option.map_eq_some_iff.mp found
    have listed : row.id ∈ blankDict.rows.rows.map TermRow.id :=
      List.mem_map_of_mem (List.mem_of_find?_eq_some found)
    have same : row.id = y := by simpa using List.find?_some found
    rw [rows, same] at listed
    simpa using listed

theorem within_blankStore {s o : TermId} (first : Holds (blankStore s o) (3, 4, 1))
    (second : Holds (blankStore s o) (3, 4, 2)) {symmetric : Bool} {x : TermId}
    (hx : Reached blankDict (blankStore s o) symmetric 3 x) :
    Within blankDict (blankStore s o) symmetric 3 1 x := by
  cases hx with
  | refl => exact .inl rfl
  | tail path step =>
    refine .inr ⟨3, rfl, step.1, .inl ⟨4, ?_⟩⟩
    obtain rfl | rfl := eq_of_blank step.1
    · exact first
    · exact second

/-- The arc from 1 to 2: the node 2 is visited first, and 1 is still at depth 1. -/
theorem describeCbd_describesRight_blankStore :
    DescribesRight blankDict (blankStore 1 2) false 3 1 := by
  have quads : (blankStore 1 2).scannedQuads =
      [⟨3, 4, 1, 0⟩, ⟨3, 4, 2, 0⟩, ⟨1, 4, 2, 0⟩] := by decide
  refine (describeCbd_describesRight_iff blankDict (layout_blankStore 1 2) false 3 1).mpr ?_
  intro _
  refine ⟨⟨[(3, 0), (2, 1), (1, 1)], ?_, by decide⟩, ?_, by simp⟩
  · have arcs3 : lastFirst blankDict (blankStore 1 2) false 3 = [2, 1] := by decide
    have arcs2 : lastFirst blankDict (blankStore 1 2) false 2 = [] := by decide
    have arcs1 : lastFirst blankDict (blankStore 1 2) false 1 = [2] := by decide
    have from1 : DepthFirst (lastFirst blankDict (blankStore 1 2) false) 1 [2, 3] [1] [(1, 1)] := by
      refine @DepthFirst.visit _ _ 1 [2, 3] [] 1 [] [] (by decide) ?_ .nil
      rw [arcs1]
      exact .skip (by decide) .nil
    have from2 : DepthFirst (lastFirst blankDict (blankStore 1 2) false) 1 [3] [2, 1]
        [(2, 1), (1, 1)] := by
      refine @DepthFirst.visit _ _ 1 [3] [1] 2 [] [(1, 1)] (by decide) ?_ from1
      rw [arcs2]
      exact .nil
    refine @DepthFirst.visit _ _ 0 [] [] 3 [(2, 1), (1, 1)] [] (by decide) ?_ .nil
    rw [arcs3]
    exact from2
  · intro t _ g g' visible visible'
    have graphs : ∀ q ∈ (blankStore 1 2).scannedQuads, q.g = 0 := by
      rw [quads]
      decide
    have first : g = 0 := graphs _ (Store.mem_scannedQuads.mpr visible)
    have second : g' = 0 := graphs _ (Store.mem_scannedQuads.mpr visible')
    rw [first, second]

/-- The arc from 2 to 1: the node 2 is visited first and pushes 1 with depth 2, although it is
one step away from the start. -/
theorem not_describeCbd_describesRight :
    ¬ ∀ (d : Dict) (st : Store), st.Layout → ∀ (symmetric : Bool) (start : TermId)
      (maxDepth : Nat), DescribesRight d st symmetric start maxDepth := by
  intro all
  have right := all blankDict (blankStore 2 1) (layout_blankStore 2 1) false 3 1
  have quads : (blankStore 2 1).scannedQuads =
      [⟨3, 4, 1, 0⟩, ⟨3, 4, 2, 0⟩, ⟨2, 4, 1, 0⟩] := by decide
  have near (x : TermId) (hx : Reached blankDict (blankStore 2 1) false 3 x) :
      Within blankDict (blankStore 2 1) false 3 1 x := by
    refine within_blankStore ?_ ?_ hx
    · exact holds_iff.mpr (by rw [quads]; decide)
    · exact holds_iff.mpr (by rw [quads]; decide)
  obtain ⟨ts, returns, -⟩ := right.exact_ near
  have search : DepthFirst (lastFirst blankDict (blankStore 2 1) false) 0 [] [3]
      [(3, 0), (2, 1), (1, 2)] := by
    have arcs3 : lastFirst blankDict (blankStore 2 1) false 3 = [2, 1] := by decide
    have arcs2 : lastFirst blankDict (blankStore 2 1) false 2 = [1] := by decide
    have arcs1 : lastFirst blankDict (blankStore 2 1) false 1 = [] := by decide
    have from1 : DepthFirst (lastFirst blankDict (blankStore 2 1) false) 2 [2, 3] [1] [(1, 2)] := by
      refine @DepthFirst.visit _ _ 2 [2, 3] [] 1 [] [] (by decide) ?_ .nil
      rw [arcs1]
      exact .nil
    have from2 : DepthFirst (lastFirst blankDict (blankStore 2 1) false) 1 [3] [2, 1]
        [(2, 1), (1, 2)] := by
      refine @DepthFirst.visit _ _ 1 [3] [1] 2 [(1, 2)] [] (by decide) ?_
        (.skip (by decide) .nil)
      rw [arcs2]
      exact from1
    refine @DepthFirst.visit _ _ 0 [] [] 3 [(2, 1), (1, 2)] [] (by decide) ?_ .nil
    rw [arcs3]
    exact from2
  have raised : Returns blankDict (blankStore 2 1) false 1 3 .depthLimit :=
    returns_depthLimit search ⟨(1, 2), by decide, by decide⟩
  exact absurd (returns.unique raised) (by simp)

end Describe

end Sparql

end PgRipple
