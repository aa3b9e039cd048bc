import PgRipple.Datalog.Rewrite
import PgRipple.Lib.ComponentSize
import PgRipple.Lib.DisjointSets

/-!
# The sameAs map

`compute_sameas_map` takes the `owl:sameAs` pairs in the order in which they are
stored. It first counts the members of every component of the undirected graph, then
builds a union-find structure, and reads the representative of every id from it. The
lower root becomes the parent of the higher one, so a root is the least id of its class.

`canonicalizeId_eq` connects the map to the `find` function by which the rule
rewriting is described.
-/

namespace PgRipple.Datalog.SameAs

/-- `adj`, with one entry for every occurrence in a pair. -/
def adj (pairs : List (TermId × TermId)) (x : TermId) : List TermId :=
  pairs.flatMap fun (s, o) => (if s = x then [o] else []) ++ if o = x then [s] else []

/-- The ids of the pairs. -/
def ids (pairs : List (TermId × TermId)) : List TermId := (pairs.flatMap fun (s, o) => [s, o]).dedup

/-- The orders in which the keys of `adj` and the set `all_ids` are iterated. -/
structure HashOrder (pairs : List (TermId × TermId)) where
  keys : List TermId
  allIds : List TermId
  keys_perm : keys.Perm (ids pairs)
  allIds_perm : allIds.Perm (ids pairs)

instance {pairs : List (TermId × TermId)} : Inhabited (HashOrder pairs) :=
  ⟨⟨ids pairs, ids pairs, .refl _, .refl _⟩⟩

/-- `UnionFind::union`: the lower root becomes the parent. -/
def union (fuel : Nat) (parent : TermId → TermId) (pair : TermId × TermId) :
    Option (TermId → TermId) :=
  (DisjointSets.findBoth fuel parent pair.1 pair.2).map fun (rx, ry, parent) =>
    if rx = ry then parent
    else if rx < ry then Function.update parent ry rx
    else Function.update parent rx ry

/-- The entries of the map; a canonical id gets none. -/
def collect (fuel : Nat) : List TermId → (parent : TermId → TermId) →
    (map : TermId → Option TermId) → Option (TermId → Option TermId)
  | [], _, map => some map
  | id :: ids, parent, map =>
    (DisjointSets.find fuel parent id).bind fun (canonical, parent) =>
      collect fuel ids parent (if canonical ≠ id then Function.update map id (some canonical)
        else map)

/-- The members of the largest component, for a bound that is switched on. -/
def maxSeen (maxCluster : Nat) (pairs : List (TermId × TermId)) (order : HashOrder pairs) :
    Option Nat :=
  ComponentSize.largest (adj pairs) maxCluster
    (2 + ((ids pairs).map fun x => (adj pairs x).length).sum) order.keys [] 0

/-- `compute_sameas_map`, for the collected pairs; a bound of `0` is switched off. -/
def computeSameasMap (maxCluster : Int) (pairs : List (TermId × TermId)) (order : HashOrder pairs) :
    Option (TermId → Option TermId) := do
  if pairs = [] then return fun _ => none
  if 0 < maxCluster then
    if maxCluster.toNat < (← maxSeen maxCluster.toNat pairs order) then return fun _ => none
  let parent ← pairs.foldlM (union (pairs.length + 1)) id
  collect (pairs.length + 1) order.allIds parent fun _ => none

/-- `canonicalize_id`. -/
def canonicalizeId (id : TermId) (map : TermId → Option TermId) : TermId := (map id).getD id

/-- The component of an id in the undirected graph of the pairs. -/
def sameasClass (pairs : List (TermId × TermId)) (x : TermId) : Set TermId :=
  { y | Relation.ReflTransGen (fun a b => (a, b) ∈ pairs ∨ (b, a) ∈ pairs) x y }

section Classes

variable {pairs pairs' : List (TermId × TermId)} {x y : TermId}

@[simp] theorem mem_adj : y ∈ adj pairs x ↔ (x, y) ∈ pairs ∨ (y, x) ∈ pairs := by
  rw [adj, List.mem_flatMap]
  constructor
  · rintro ⟨⟨s, o⟩, edge, hy⟩
    rw [List.mem_append] at hy
    obtain hy | hy := hy
    · split at hy
      · rename_i here
        cases List.mem_singleton.mp hy
        exact .inl (here ▸ edge)
      · cases hy
    · split at hy
      · rename_i here
        cases List.mem_singleton.mp hy
        exact .inr (here ▸ edge)
      · cases hy
  · rintro (edge | edge)
    · refine ⟨(x, y), edge, List.mem_append_left _ ?_⟩
      rw [if_pos rfl]
      exact List.mem_cons_self
    · refine ⟨(y, x), edge, List.mem_append_right _ ?_⟩
      rw [if_pos rfl]
      exact List.mem_cons_self

theorem adj_symm (edge : y ∈ adj pairs x) : x ∈ adj pairs y := mem_adj.mpr (mem_adj.mp edge).symm

theorem mem_ids : x ∈ ids pairs ↔ ∃ y, y ∈ adj pairs x := by
  simp only [ids, List.mem_dedup, List.mem_flatMap, List.mem_cons, List.not_mem_nil,
    or_false, mem_adj]
  constructor
  · rintro ⟨⟨s, o⟩, edge, rfl | rfl⟩
    · exact ⟨o, .inl edge⟩
    · exact ⟨s, .inr edge⟩
  · rintro ⟨y, edge | edge⟩
    · exact ⟨(x, y), edge, .inl rfl⟩
    · exact ⟨(y, x), edge, .inr rfl⟩

theorem component_adj : ComponentSize.component (adj pairs) x = sameasClass pairs x := by
  simp only [ComponentSize.component, sameasClass, mem_adj]

theorem eq_of_mem_sameasClass (free : x ∉ ids pairs) (h : y ∈ sameasClass pairs x) : x = y := by
  obtain same | ⟨z, edge, -⟩ := h.cases_head
  · exact same
  · exact absurd (mem_ids.mpr ⟨z, mem_adj.mpr edge⟩) free

theorem equiv_iff : DisjointSets.Equiv pairs x y ↔ y ∈ sameasClass pairs x := by
  constructor
  · intro h
    induction h with
    | rel x y edge => exact .single (.inl edge)
    | refl x => exact .refl
    | symm x y _ ih =>
      rw [← component_adj] at ih ⊢
      exact ComponentSize.mem_component_comm (fun _ _ => adj_symm) ih
    | trans x y z _ _ ih ih' => exact ih.trans ih'
  · intro h
    induction h with
    | refl => exact .refl x
    | tail _ edge ih =>
      refine ih.trans _ _ _ ?_
      obtain edge | edge := edge
      · exact .rel _ _ edge
      · exact (Relation.EqvGen.rel _ _ edge).symm

theorem sameasClass_congr (same : ∀ e, e ∈ pairs' ↔ e ∈ pairs) :
    sameasClass pairs' x = sameasClass pairs x := by
  simp only [sameasClass, same]

end Classes

/-- Some component has more members than the bound allows. -/
def TooLarge (maxCluster : Int) (pairs : List (TermId × TermId)) : Prop :=
  ∃ x, maxCluster < (sameasClass pairs x).ncard

/-- Only the ids of the pairs have large components. -/
theorem tooLarge_iff {maxCluster : Int} {pairs : List (TermId × TermId)} (pos : 0 < maxCluster) :
    TooLarge maxCluster pairs ↔ ∃ x ∈ ids pairs, maxCluster < (sameasClass pairs x).ncard := by
  constructor
  · rintro ⟨x, large⟩
    by_cases mentioned : x ∈ ids pairs
    · exact ⟨x, mentioned, large⟩
    · have alone : sameasClass pairs x ⊆ {x} :=
          fun y hy => (eq_of_mem_sameasClass mentioned hy).symm
      have one := Set.ncard_le_ncard alone
      rw [Set.ncard_singleton] at one
      omega
  · rintro ⟨x, -, large⟩
    exact ⟨x, large⟩

theorem exists_maxSeen {maxCluster : Nat} (pairs : List (TermId × TermId)) (pos : 0 < maxCluster)
    (order : HashOrder pairs) :
    ∃ m, maxSeen maxCluster pairs order = some m ∧
      (maxCluster < m ↔ TooLarge maxCluster pairs) := by
  have inside : ∀ x, ∀ y ∈ adj pairs x, y ∈ (ids pairs).toFinset := by
    intro x y edge
    exact List.mem_toFinset.mpr (mem_ids.mpr ⟨x, adj_symm edge⟩)
  have started : ∀ x ∈ order.keys, x ∈ (ids pairs).toFinset := by
    intro x hx
    exact List.mem_toFinset.mpr (order.keys_perm.subset hx)
  have enough : 1 + ComponentSize.remaining (adj pairs) (ids pairs).toFinset [] <
      2 + ((ids pairs).map fun x => (adj pairs x).length).sum := by
    have sum : ComponentSize.remaining (adj pairs) (ids pairs).toFinset [] =
        ((ids pairs).map fun x => (adj pairs x).length).sum := by
      rw [ComponentSize.remaining, List.toFinset_nil, Finset.sdiff_empty]
      exact List.sum_toFinset _ (List.nodup_dedup _)
    omega
  obtain ⟨m, found, exceeds⟩ := ComponentSize.exists_largest (fun _ _ => adj_symm) inside started
    (fun x hx => absurd hx List.not_mem_nil) (fun x hx => absurd hx List.not_mem_nil)
    (Nat.zero_le maxCluster) enough
  refine ⟨m, found, exceeds.trans ?_⟩
  rw [tooLarge_iff (Int.natCast_pos.mpr pos)]
  simp only [component_adj, Int.ofNat_lt]
  constructor
  · rintro ⟨x, hx, large⟩
    exact ⟨x, order.keys_perm.subset hx, large⟩
  · rintro ⟨x, hx, large⟩
    exact ⟨x, order.keys_perm.symm.subset hx, large⟩

/-- The structure after the unions of these pairs, with the least ids as roots. -/
structure Built (parent : TermId → TermId) (depth : Nat) (rep : TermId → TermId)
    (done : List (TermId × TermId)) : Prop where
  forest : DisjointSets.Forest parent depth rep
  classes : DisjointSets.Classes rep done
  le : ∀ x, rep x ≤ x

theorem built_id : Built id 0 id [] :=
  ⟨DisjointSets.forest_id, DisjointSets.classes_id, fun _ => le_rfl⟩

section Build

variable {parent rep : TermId → TermId} {depth fuel : Nat} {done : List (TermId × TermId)}

theorem le_merge {a b : TermId} (le : ∀ x, rep x ≤ x) (lt : b < a) (x : TermId) :
    DisjointSets.merge rep a b x ≤ x := by
  unfold DisjointSets.merge
  split
  · rename_i here
    calc
      b ≤ a := lt.le
      _ = rep x := here.symm
      _ ≤ x := le x
  · exact le x

/-- One union, and what it does to the representatives. -/
theorem Built.union (h : Built parent depth rep done) (enough : depth < fuel)
    (pair : TermId × TermId) :
    ∃ parent', SameAs.union fuel parent pair = some parent' ∧
      Built parent' (depth + 1) (UnionFind.union rep pair) (done ++ [pair]) := by
  obtain ⟨x, y⟩ := pair
  obtain ⟨parent', found, forest⟩ := h.forest.findBoth enough x y
  have fixed := forest.rep_rep
  rw [SameAs.union, found, Option.map_some]
  refine ⟨_, rfl, ?_⟩
  dsimp only
  obtain lt | same | gt := lt_trichotomy (rep x) (rep y)
  · have merged : UnionFind.union rep (x, y) = DisjointSets.merge rep (rep y) (rep x) := by
      simp only [UnionFind.union, max_eq_right lt.le, min_eq_left lt.le]
      rfl
    rw [merged, if_neg lt.ne, if_pos lt]
    exact ⟨forest.link (fixed y) (fixed x) lt.ne', h.classes.merge fixed (.inr ⟨rfl, rfl⟩),
      le_merge h.le lt⟩
  · have kept : UnionFind.union rep (x, y) = rep := by
      funext z
      simp only [UnionFind.union, same, max_self, min_self]
      split
      · rename_i here
        exact here.symm
      · rfl
    rw [kept, if_pos same]
    exact ⟨forest.mono (Nat.le_succ depth), h.classes.same same, h.le⟩
  · have merged : UnionFind.union rep (x, y) = DisjointSets.merge rep (rep x) (rep y) := by
      simp only [UnionFind.union, max_eq_left gt.le, min_eq_right gt.le]
      rfl
    rw [merged, if_neg gt.ne', if_neg gt.not_gt]
    exact ⟨forest.link (fixed x) (fixed y) gt.ne', h.classes.merge fixed (.inl ⟨rfl, rfl⟩),
      le_merge h.le gt⟩

/-- All unions; every one of them adds at most one level. -/
theorem Built.foldlM {pairs : List (TermId × TermId)} (h : Built parent depth rep done)
    (enough : depth + pairs.length ≤ fuel) :
    ∃ parent', pairs.foldlM (SameAs.union fuel) parent = some parent' ∧
      Built parent' (depth + pairs.length) (pairs.foldl UnionFind.union rep) (done ++ pairs) := by
  induction pairs generalizing parent depth rep done with
  | nil =>
    refine ⟨parent, rfl, ?_⟩
    rw [List.append_nil]
    exact h
  | cons pair pairs ih =>
    rw [List.length_cons] at enough
    have room : depth < fuel := by omega
    obtain ⟨parent₁, united, built⟩ := h.union room pair
    obtain ⟨parent₂, rest, all⟩ := ih built (by omega)
    refine ⟨parent₂, ?_, ?_⟩
    · rw [List.foldlM_cons, united]
      exact rest
    · rw [List.append_assoc, List.singleton_append, Nat.add_right_comm] at all
      exact all

/-- Reading the representatives; the compression on the way does not change them. -/
theorem exists_collect {ids : List TermId} (forest : DisjointSets.Forest parent depth rep)
    (enough : depth < fuel) (map : TermId → Option TermId) :
    ∃ map', collect fuel ids parent map = some map' ∧
      ∀ x, map' x = if x ∈ ids ∧ rep x ≠ x then some (rep x) else map x := by
  induction ids generalizing parent map with
  | nil =>
    refine ⟨map, rfl, ?_⟩
    intro x
    rw [if_neg fun h => List.not_mem_nil h.1]
  | cons id ids ih =>
    obtain ⟨parent', found, forest'⟩ := forest.find enough id
    obtain ⟨map', rest, entries⟩ := ih forest'
      (if rep id ≠ id then Function.update map id (some (rep id)) else map)
    refine ⟨map', ?_, ?_⟩
    · rw [collect, found]
      exact rest
    · intro x
      rw [entries]
      by_cases later : x ∈ ids ∧ rep x ≠ x
      · rw [if_pos later, if_pos ⟨List.mem_cons_of_mem id later.1, later.2⟩]
      · rw [if_neg later]
        by_cases here : x = id
        · subst here
          by_cases canonical : rep x = x
          · rw [if_neg (not_not.mpr canonical), if_neg fun h => h.2 canonical]
          · rw [if_pos canonical, if_pos ⟨List.mem_cons_self, canonical⟩, Function.update_self]
        · have elsewhere : ¬ (x ∈ id :: ids ∧ rep x ≠ x) := by
            rintro ⟨hx, ne⟩
            exact later ⟨(List.mem_cons.mp hx).resolve_left here, ne⟩
          rw [if_neg elsewhere]
          split
          · exact Function.update_of_ne here _ map
          · rfl

/-- A representative is the least member of its class. -/
theorem Built.isLeast (h : Built parent depth rep done) (x : TermId) :
    IsLeast (sameasClass done x) (rep x) := by
  constructor
  · have same : rep x = rep (rep x) := (h.forest.rep_rep x).symm
    exact equiv_iff.mp ((h.classes x (rep x)).mp same)
  · intro y hy
    have same : rep x = rep y := (h.classes x y).mpr (equiv_iff.mpr hy)
    rw [same]
    exact h.le y

end Build

/-- The map sends every id to the least member of its class and is free of canonical keys. -/
structure Canonicalizes (pairs : List (TermId × TermId)) (map : TermId → Option TermId) : Prop where
  least : ∀ x, IsLeast (sameasClass pairs x) (canonicalizeId x map)
  keys : ∀ x, IsLeast (sameasClass pairs x) x → map x = none
  idempotent : ∀ x, canonicalizeId (canonicalizeId x map) map = canonicalizeId x map

/-- These properties leave one map. -/
theorem Canonicalizes.eq_ite {pairs : List (TermId × TermId)} {map : TermId → Option TermId}
    {x m : TermId} (h : Canonicalizes pairs map) (least : IsLeast (sameasClass pairs x) m) :
    map x = if m = x then none else some m := by
  have same : canonicalizeId x map = m := (h.least x).unique least
  split
  · rename_i canonical
    exact h.keys x (canonical ▸ least)
  · rename_i other
    rw [canonicalizeId] at same
    cases entry : map x with
    | none =>
      rw [entry] at same
      exact absurd same.symm other
    | some y =>
      rw [entry] at same
      rw [show y = m from same]

/-- The map, before the size check: every id that is not canonical goes to its representative. -/
theorem exists_map (pairs : List (TermId × TermId)) (order : HashOrder pairs) :
    ∃ map, (do
        let parent ← pairs.foldlM (union (pairs.length + 1)) id
        collect (pairs.length + 1) order.allIds parent fun _ => none) = some map ∧
      Canonicalizes pairs map ∧
      ∀ x, map x = if pairs.foldl UnionFind.union id x = x then none
        else some (pairs.foldl UnionFind.union id x) := by
  have room : 0 + pairs.length ≤ pairs.length + 1 := by omega
  obtain ⟨parent, united, built⟩ := built_id.foldlM room
  rw [List.nil_append, Nat.zero_add] at built
  generalize pairs.foldl UnionFind.union id = rep at built
  obtain ⟨map, collected, entries⟩ := exists_collect built.forest
    (Nat.lt_succ_self pairs.length) fun _ => none
  have map_eq : ∀ x, map x = if rep x = x then none else some (rep x) := by
    intro x
    rw [entries]
    by_cases canonical : rep x = x
    · rw [if_pos canonical, if_neg fun h => h.2 canonical]
    · have mentioned : x ∈ ids pairs := by
        by_contra free
        exact canonical (eq_of_mem_sameasClass free (built.isLeast x).1).symm
      rw [if_neg canonical, if_pos ⟨order.allIds_perm.symm.subset mentioned, canonical⟩]
  have canonicalize_eq (x : TermId) : canonicalizeId x map = rep x := by
    rw [canonicalizeId, map_eq]
    split
    · rename_i canonical
      exact canonical.symm
    · rfl
  refine ⟨map, ?_, ⟨?_, ?_, ?_⟩, map_eq⟩
  · rw [united]
    exact collected
  · intro x
    rw [canonicalize_eq]
    exact built.isLeast x
  · intro x least
    rw [map_eq, if_pos ((built.isLeast x).unique least)]
  · intro x
    rw [canonicalize_eq, canonicalize_eq, built.forest.rep_rep]

theorem exists_computeSameasMap (maxCluster : Int) (pairs : List (TermId × TermId))
    (order : HashOrder pairs) : ∃ map, computeSameasMap maxCluster pairs order = some map ∧
      (0 < maxCluster ∧ TooLarge maxCluster pairs → map = fun _ => none) ∧
      (¬ (0 < maxCluster ∧ TooLarge maxCluster pairs) → Canonicalizes pairs map ∧
        ∀ x, map x = if pairs.foldl UnionFind.union id x = x then none
          else some (pairs.foldl UnionFind.union id x)) := by
  obtain ⟨map, built, canonical⟩ := exists_map pairs order
  by_cases some_ : pairs = []
  · subst some_
    have empty : map = fun _ => none := by
      funext x
      exact (canonical.2 x).trans (if_pos rfl)
    refine ⟨fun _ => none, ?_, fun _ => rfl, fun _ => empty ▸ canonical⟩
    rw [computeSameasMap, if_pos rfl]
    rfl
  · by_cases pos : 0 < maxCluster
    · lift maxCluster to Nat using pos.le
      have pos' : 0 < maxCluster := Int.natCast_pos.mp pos
      obtain ⟨m, found, exceeds⟩ := exists_maxSeen pairs pos' order
      by_cases large : maxCluster < m
      · refine ⟨fun _ => none, ?_, fun _ => rfl, fun small => absurd ⟨pos, exceeds.mp large⟩ small⟩
        rw [computeSameasMap, if_neg some_, if_pos pos, Int.toNat_natCast, found]
        simp only [Option.bind_eq_bind, Option.bind_some, if_pos large]
        rfl
      · refine ⟨map, ?_, fun both => absurd (exceeds.mpr both.2) large, fun _ => canonical⟩
        rw [computeSameasMap, if_neg some_, if_pos pos, Int.toNat_natCast, found]
        simp only [Option.bind_eq_bind, Option.bind_some, if_neg large]
        exact built
    · refine ⟨map, ?_, fun both => absurd both.1 pos, fun _ => canonical⟩
      rw [computeSameasMap, if_neg some_, if_neg pos]
      exact built

/-- The members of a component, counted by the representatives of the ids. -/
theorem ncard_sameasClass {parent rep : TermId → TermId} {depth : Nat} {x : TermId}
    (built : Built parent depth rep pairs) (mentioned : x ∈ ids pairs) :
    (sameasClass pairs x).ncard = ((ids pairs).filter fun y => rep y = rep x).length := by
  have nodup : ((ids pairs).filter fun y => rep y = rep x).Nodup := (List.nodup_dedup _).filter _
  have same : sameasClass pairs x =
      (((ids pairs).filter fun y => rep y = rep x).toFinset : Set TermId) := by
    ext y
    rw [List.coe_toFinset, Set.mem_ofPred_eq, List.mem_filter, decide_eq_true_eq, ← equiv_iff,
      ← built.classes x y]
    constructor
    · intro eq
      refine ⟨?_, eq.symm⟩
      by_contra free
      have path : x ∈ sameasClass pairs y := equiv_iff.mp ((built.classes y x).mp eq.symm)
      exact free (eq_of_mem_sameasClass free path ▸ mentioned)
    · rintro ⟨-, eq⟩
      exact eq.symm
  rw [same, Set.ncard_coe_finset, List.toFinset_card_of_nodup nodup]

/-- The map that the rules are rewritten with. -/
theorem canonicalizeId_eq (ctx : Context) (order : HashOrder (sameasPairs ctx)) :
    ∃ map, computeSameasMap ctx.settings.sameasMaxClusterSize (sameasPairs ctx) order = some map ∧
      ∀ x, canonicalizeId x map = Datalog.canonicalizeId ctx x := by
  obtain ⟨map, computed, empty, canonical⟩ :=
    exists_computeSameasMap ctx.settings.sameasMaxClusterSize (sameasPairs ctx) order
  obtain ⟨parent, -, built⟩ := built_id.foldlM
      (Nat.le_of_eq (Nat.zero_add (sameasPairs ctx).length))
  rw [List.nil_append] at built
  have large : (0 < ctx.settings.sameasMaxClusterSize ∧ (ids (sameasPairs ctx)).any fun x =>
        ctx.settings.sameasMaxClusterSize < (((ids (sameasPairs ctx)).filter fun y =>
          (sameasPairs ctx).foldl UnionFind.union id y =
            (sameasPairs ctx).foldl UnionFind.union id x).length : Int)) ↔
      0 < ctx.settings.sameasMaxClusterSize ∧
        TooLarge ctx.settings.sameasMaxClusterSize (sameasPairs ctx) := by
    apply and_congr_right
    intro pos
    simp only [tooLarge_iff pos, List.any_eq_true, decide_eq_true_eq]
    constructor
    · rintro ⟨x, hx, more⟩
      exact ⟨x, hx, (ncard_sameasClass built hx).symm ▸ more⟩
    · rintro ⟨x, hx, more⟩
      exact ⟨x, hx, ncard_sameasClass built hx ▸ more⟩
  refine ⟨map, computed, ?_⟩
  intro x
  rw [Datalog.canonicalizeId]
  dsimp only
  split
  · rename_i both
    rw [empty (large.mp both)]
    rfl
  · rename_i small
    rw [canonicalizeId, (canonical (mt large.mpr small)).2 x]
    split
    · rename_i fixed
      exact fixed.symm
    · rfl

/-- Unless the check is switched off, a component above the bound empties the map; else every
id goes to the least of its component. Orders and repetitions do not matter. -/
theorem computeSameasMap_correct (maxCluster : Int) (pairs : List (TermId × TermId))
    (order : HashOrder pairs) : ∃ map, computeSameasMap maxCluster pairs order = some map ∧
      (0 < maxCluster ∧ TooLarge maxCluster pairs → map = fun _ => none) ∧
      (¬ (0 < maxCluster ∧ TooLarge maxCluster pairs) → Canonicalizes pairs map) ∧
      ∀ pairs' : List (TermId × TermId), (∀ e, e ∈ pairs' ↔ e ∈ pairs) →
        ∀ order' : HashOrder pairs', computeSameasMap maxCluster pairs' order' = some map := by
  obtain ⟨map, computed, empty, canonical⟩ := exists_computeSameasMap maxCluster pairs order
  refine ⟨map, computed, empty, fun small => (canonical small).1, ?_⟩
  intro pairs' same order'
  obtain ⟨map', computed', empty', canonical'⟩ := exists_computeSameasMap maxCluster pairs' order'
  have large : TooLarge maxCluster pairs' ↔ TooLarge maxCluster pairs := by
    simp only [TooLarge, sameasClass_congr same]
  rw [computed']
  congr 1
  by_cases both : 0 < maxCluster ∧ TooLarge maxCluster pairs
  · rw [empty both, empty' ⟨both.1, large.mpr both.2⟩]
  · have both' : ¬ (0 < maxCluster ∧ TooLarge maxCluster pairs') := by rwa [large]
    have second := (canonical' both').1
    funext x
    have least := (canonical both).1.least x
    rw [(canonical both).1.eq_ite least]
    apply second.eq_ite
    rwa [sameasClass_congr same]

/-- With the bound at `0`, a component with more members than that does not empty the map. -/
theorem not_empty_of_tooLarge : ¬ ∀ maxCluster pairs order map,
    computeSameasMap maxCluster pairs order = some map → TooLarge maxCluster pairs →
      map = fun _ => none := by
  intro claim
  have large : TooLarge 0 [(1, 2)] := by
    refine ⟨1, ?_⟩
    have finite : (sameasClass [(1, 2)] 1).Finite := by
      rw [← component_adj]
      apply ({1, 2} : Finset TermId).finite_toSet.subset
      apply ComponentSize.component_subset
      · intro x y edge
        obtain edge | edge := mem_adj.mp edge <;> cases List.mem_singleton.mp edge <;> decide
      · decide
    exact Int.natCast_pos.mpr ((Set.ncard_pos finite).mpr ⟨1, .refl⟩)
  have empty := claim 0 [(1, 2)] ⟨[1, 2], [1, 2], .refl _, .refl _⟩ _ rfl large
  have entry := congrFun empty 2
  revert entry
  decide

end PgRipple.Datalog.SameAs
