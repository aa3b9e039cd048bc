import Mathlib.Data.Finset.Card
import Mathlib.Data.List.Nodup
import Mathlib.Data.Set.Insert
import Mathlib.Logic.Relation

/-!
# Depth-first search and components

`Explored` says what a depth-first search finds that starts at some nodes and does not
enter a set of visited ones: all that can be reached without it, each node once. `Finished`
adds what is known of the order in which the nodes are left: a node that can be reached
from `u` is left before some node of the component of `u`.

The second pass goes through the nodes in the opposite order and follows edges backwards.
`mem_component_iff` is Kosaraju's argument: what it finds at a new node is the component
of this node, if all that was visited before are whole components.
-/

namespace Kosaraju

open Relation

variable {α : Type*} {next prev : α → List α} {V S : Set α} {xs ys K L : List α} {u x y z r : α}

/-- A path that does not enter `V`. -/
def Path (next : α → List α) (V : Set α) : α → α → Prop :=
  ReflTransGen fun x y => y ∈ next x ∧ y ∉ V

/-- Two nodes of one component. -/
def Strong (next : α → List α) (x y : α) : Prop := Path next ∅ x y ∧ Path next ∅ y x

theorem Path.mono (h : Path next S x y) (subset : V ⊆ S) : Path next V x y :=
  ReflTransGen.mono (fun _ _ step => ⟨step.1, fun hy => step.2 (subset hy)⟩) _ _ h

theorem Path.head (edge : y ∈ next x) (fresh : y ∉ V) (h : Path next V y z) : Path next V x z :=
  ReflTransGen.head ⟨edge, fresh⟩ h

theorem Strong.refl (x : α) : Strong next x x := ⟨.refl, .refl⟩

theorem Strong.symm (h : Strong next x y) : Strong next y x := ⟨h.2, h.1⟩

theorem Strong.trans (h : Strong next x y) (h' : Strong next y z) : Strong next x z :=
  ⟨h.1.trans h'.1, h'.2.trans h.2⟩

/-- A path meets a set or does not. -/
theorem Path.split (h : Path next V x y) (S : Set α) :
    Path next (V ∪ S) x y ∨ ∃ s ∈ S, Path next V x s ∧ Path next V s y := by
  induction h with
  | refl => exact .inl .refl
  | @tail y z path step ih =>
    obtain whole | ⟨s, hs, first, second⟩ := ih
    · by_cases inside : z ∈ S
      · exact .inr ⟨z, inside, path.tail step, .refl⟩
      · exact .inl (whole.tail ⟨step.1, fun hz => hz.elim step.2 inside⟩)
    · exact .inr ⟨s, hs, first, second.tail step⟩

/-- A path need not come back to where it starts. -/
theorem Path.insert_start (h : Path next V x y) : Path next (insert x V) x y := by
  induction h with
  | refl => exact .refl
  | @tail y z _ step ih =>
    by_cases back : z = x
    · subst back
      exact .refl
    · exact ih.tail ⟨step.1, fun hz => hz.elim back step.2⟩

theorem path_reverse (edges : ∀ x y, x ∈ prev y ↔ y ∈ next x) (h : Path prev ∅ x y) :
    Path next ∅ y x := by
  induction h with
  | refl => exact .refl
  | tail _ step ih => exact .head ((edges _ _).mp step.1) (Set.notMem_empty _) ih

/-- The nodes that a search from `xs` finds. -/
structure Explored (next : α → List α) (V : Set α) (xs K : List α) : Prop where
  nodup : K.Nodup
  fresh : ∀ y ∈ K, y ∉ V
  sound : ∀ y ∈ K, ∃ x ∈ xs, x ∉ V ∧ Path next V x y
  roots : ∀ x ∈ xs, x ∈ V ∨ x ∈ K
  closed : ∀ y ∈ K, ∀ z ∈ next y, z ∈ V ∨ z ∈ K

namespace Explored

/-- A path stays among the nodes that were found. -/
theorem mem_of_path (h : Explored next V xs K) (hx : x ∈ K) (path : Path next V x y) : y ∈ K := by
  induction path with
  | refl => exact hx
  | tail _ step ih => exact (h.closed _ ih _ step.1).resolve_left step.2

theorem mem_iff (h : Explored next V xs K) : y ∈ K ↔ ∃ x ∈ xs, x ∉ V ∧ Path next V x y := by
  constructor
  · exact h.sound y
  · rintro ⟨x, hx, fresh, path⟩
    exact h.mem_of_path ((h.roots x hx).resolve_left fresh) path

theorem nil (next : α → List α) (V : Set α) : Explored next V [] [] :=
  ⟨List.nodup_nil, nofun, nofun, nofun, nofun⟩

theorem seen (hx : x ∈ V) : Explored next V [x] [] where
  nodup := List.nodup_nil
  fresh := nofun
  sound := nofun
  roots _ hy := .inl (List.mem_singleton.mp hy ▸ hx)
  closed := nofun

theorem perm (h : Explored next V xs K) (same : L.Perm K) : Explored next V xs L where
  nodup := same.nodup_iff.mpr h.nodup
  fresh y hy := h.fresh y (same.mem_iff.mp hy)
  sound y hy := h.sound y (same.mem_iff.mp hy)
  roots x hx := (h.roots x hx).imp_right same.mem_iff.mpr
  closed y hy z hz := (h.closed y (same.mem_iff.mp hy) z hz).imp_right same.mem_iff.mpr

/-- A new node, and what its successors lead to. -/
theorem node (hx : x ∉ V) (h : Explored next (insert x V) (next x) K) :
    Explored next V [x] (K ++ [x]) := by
  have notIn : x ∉ K := fun mem => h.fresh x mem (Set.mem_insert x V)
  have below {y : α} (hy : y ∈ K) : Path next V x y := by
    obtain ⟨c, edge, fresh, path⟩ := h.sound y hy
    exact .head edge (fun hc => fresh (Set.mem_insert_of_mem x hc))
      (path.mono (Set.subset_insert x V))
  refine ⟨?_, ?_, ?_, ?_, ?_⟩
  · exact h.nodup.append (List.nodup_singleton x) (List.disjoint_singleton.mpr notIn)
  · intro y hy
    obtain hy | hy := List.mem_append.mp hy
    · exact fun hV => h.fresh y hy (Set.mem_insert_of_mem x hV)
    · exact List.mem_singleton.mp hy ▸ hx
  · intro y hy
    refine ⟨x, List.mem_singleton_self x, hx, ?_⟩
    obtain hy | hy := List.mem_append.mp hy
    · exact below hy
    · exact List.mem_singleton.mp hy ▸ .refl
  · intro y hy
    exact .inr (List.mem_append_right K hy)
  · intro y hy z hz
    have known : z ∈ insert x V ∨ z ∈ K := by
      obtain hy | hy := List.mem_append.mp hy
      · exact h.closed y hy z hz
      · rw [List.mem_singleton.mp hy] at hz
        exact h.roots z hz
    obtain (rfl | hV) | hK := known
    · exact .inr (List.mem_append_right K (List.mem_singleton_self z))
    · exact .inl hV
    · exact .inr (List.mem_append_left _ hK)

theorem append (h : Explored next V xs K) (h' : Explored next (V ∪ { y | y ∈ K }) ys L) :
    Explored next V (xs ++ ys) (K ++ L) := by
  refine ⟨?_, ?_, ?_, ?_, ?_⟩
  · refine h.nodup.append h'.nodup fun y hy hy' => ?_
    exact h'.fresh y hy' (.inr hy)
  · intro y hy
    obtain hy | hy := List.mem_append.mp hy
    · exact h.fresh y hy
    · exact fun hV => h'.fresh y hy (.inl hV)
  · intro y hy
    obtain hy | hy := List.mem_append.mp hy
    · obtain ⟨x, hx, fresh, path⟩ := h.sound y hy
      exact ⟨x, List.mem_append_left ys hx, fresh, path⟩
    · obtain ⟨x, hx, fresh, path⟩ := h'.sound y hy
      exact ⟨x, List.mem_append_right xs hx, fun hV => fresh (.inl hV),
        path.mono Set.subset_union_left⟩
  · intro x hx
    obtain hx | hx := List.mem_append.mp hx
    · exact (h.roots x hx).imp_right (List.mem_append_left L)
    · obtain (hV | hK) | hL := h'.roots x hx
      · exact .inl hV
      · exact .inr (List.mem_append_left L hK)
      · exact .inr (List.mem_append_right K hL)
  · intro y hy z hz
    obtain hy | hy := List.mem_append.mp hy
    · exact (h.closed y hy z hz).imp_right (List.mem_append_left L)
    · obtain (hV | hK) | hL := h'.closed y hy z hz
      · exact .inl hV
      · exact .inr (List.mem_append_left L hK)
      · exact .inr (List.mem_append_right K hL)

end Explored

/-- `y` does not come after `z`. -/
def Before (K : List α) (y z : α) : Prop := ∃ pre post, K = pre ++ z :: post ∧ y ∈ pre ++ [z]

theorem Before.append_right (h : Before K y z) (L : List α) : Before (K ++ L) y z := by
  obtain ⟨pre, post, rfl, hy⟩ := h
  exact ⟨pre, post ++ L, by simp, hy⟩

theorem Before.append_left (h : Before L y z) (K : List α) : Before (K ++ L) y z := by
  obtain ⟨pre, post, rfl, hy⟩ := h
  refine ⟨K ++ pre, post, by simp, ?_⟩
  rw [List.append_assoc]
  exact List.mem_append_right K hy

theorem before_last (hy : y ∈ K ++ [z]) : Before (K ++ [z]) y z := ⟨K, [], rfl, hy⟩

theorem before_of_mem (hy : y ∈ K) (hz : z ∈ L) : Before (K ++ L) y z := by
  obtain ⟨pre, post, rfl⟩ := List.append_of_mem hz
  refine ⟨K ++ pre, post, by simp, ?_⟩
  rw [List.append_assoc]
  exact List.mem_append_left _ hy

/-- Among different nodes, only later ones come after. -/
theorem Before.eq_or_mem (h : Before K y z) (nodup : K.Nodup) {pre post : List α}
    (parts : K = pre ++ y :: post) : z = y ∨ z ∈ post := by
  classical
  obtain ⟨pre', post', at_z, hy⟩ := h
  obtain earlier | same := List.mem_append.mp hy
  · by_contra other
    rw [not_or] at other
    have hz : z ∈ pre := by
      have : z ∈ pre ++ y :: post := parts ▸ at_z ▸ by simp
      simpa [other] using this
    have disjoint := parts ▸ nodup
    have disjoint' := at_z ▸ nodup
    have first : K.idxOf z < K.idxOf y := by
      rw [parts, List.idxOf_append_of_mem hz,
        List.idxOf_append_of_notMem fun hy => List.disjoint_of_nodup_append disjoint hy (by simp)]
      exact Nat.lt_of_lt_of_le (List.idxOf_lt_length_iff.mpr hz) (Nat.le_add_right _ _)
    have second : K.idxOf y < K.idxOf z := by
      rw [at_z, List.idxOf_append_of_mem earlier,
        List.idxOf_append_of_notMem fun hz => List.disjoint_of_nodup_append disjoint' hz (by simp)]
      exact Nat.lt_of_lt_of_le (List.idxOf_lt_length_iff.mpr earlier) (Nat.le_add_right _ _)
    omega
  · exact .inl (List.mem_singleton.mp same).symm

/-- The nodes that a search finds, in the order in which it leaves them. -/
structure Finished (next : α → List α) (V : Set α) (xs K : List α) : Prop extends
    Explored next V xs K where
  order : ∀ u ∈ K, ∀ y, Path next V u y →
    ∃ z ∈ K, Path next V u z ∧ Path next V z u ∧ Before K y z

namespace Finished

theorem nil (next : α → List α) (V : Set α) : Finished next V [] [] := ⟨.nil next V, nofun⟩

theorem seen (hx : x ∈ V) : Finished next V [x] [] := ⟨.seen hx, nofun⟩

theorem node (hx : x ∉ V) (h : Finished next (insert x V) (next x) K) :
    Finished next V [x] (K ++ [x]) := by
  have explored := h.toExplored.node hx
  refine ⟨explored, fun u hu y path => ?_⟩
  have found : Before (K ++ [x]) y x := before_last (explored.mem_of_path hu path)
  have last : x ∈ K ++ [x] := List.mem_append_right K (List.mem_singleton_self x)
  obtain hu' | isRoot := List.mem_append.mp hu
  · -- a path from below the root meets the root or was seen by the search below
    have split := path.split {x}
    rw [Set.union_singleton] at split
    obtain avoids | ⟨s, rfl, first, _⟩ := split
    · obtain ⟨z, hz, there, back, before⟩ := h.order u hu' y avoids
      exact ⟨z, List.mem_append_left _ hz, there.mono (Set.subset_insert x V),
        back.mono (Set.subset_insert x V), before.append_right [x]⟩
    · obtain ⟨_, hroot, _, down⟩ := explored.sound u hu
      rw [List.mem_singleton.mp hroot] at down
      exact ⟨s, last, first, down, found⟩
  · rw [List.mem_singleton.mp isRoot]
    exact ⟨x, last, .refl, .refl, found⟩

theorem append (h : Finished next V xs K) (h' : Finished next (V ∪ { y | y ∈ K }) ys L) :
    Finished next V (xs ++ ys) (K ++ L) := by
  refine ⟨h.toExplored.append h'.toExplored, fun u hu y path => ?_⟩
  obtain hu | hu := List.mem_append.mp hu
  · obtain ⟨z, hz, there, back, before⟩ := h.order u hu y path
    exact ⟨z, List.mem_append_left L hz, there, back, before.append_right L⟩
  · obtain avoids | ⟨s, hs, _, second⟩ := path.split { y | y ∈ K }
    · obtain ⟨z, hz, there, back, before⟩ := h'.order u hu y avoids
      exact ⟨z, List.mem_append_right K hz, there.mono Set.subset_union_left,
        back.mono Set.subset_union_left, before.append_left K⟩
    · -- once among the earlier nodes, the path stays there
      have earlier : y ∈ K := h.mem_of_path hs second
      exact ⟨u, List.mem_append_right K hu, .refl, .refl, before_of_mem earlier hu⟩

end Finished

section Lists

variable [DecidableEq α] {P : Set α → List α → List α → Prop}
  {step : List α × List α → α → List α × List α} {visited out : List α} {U : Finset α} {fuel : Nat}

/-- A search with a list of visited nodes and a list of results, which it extends. -/
def Searches (P : Set α → List α → List α → Prop) (visited out xs : List α)
    (result : List α × List α) : Prop :=
  ∃ K, P { y | y ∈ visited } xs K ∧ result.2 = out ++ K ∧
    ∀ y, y ∈ result.1 ↔ y ∈ visited ∨ y ∈ K

/-- There is enough fuel for the nodes of `U` that have not been visited. -/
def Enough (U : Finset α) (fuel : Nat) (visited : List α) : Prop :=
  (U.filter fun x => x ∉ visited).card < fuel

theorem Enough.mono (h : Enough U fuel visited) {visited' : List α}
    (more : ∀ y ∈ visited, y ∈ visited') : Enough U fuel visited' := by
  refine (Finset.card_le_card fun x hx => ?_).trans_lt h
  obtain ⟨hx, fresh⟩ := Finset.mem_filter.mp hx
  exact Finset.mem_filter.mpr ⟨hx, fun old => fresh (more x old)⟩

theorem Enough.cons (h : Enough U (fuel + 1) visited) (hx : x ∈ U) (fresh : x ∉ visited) :
    Enough U fuel (x :: visited) := by
  have fewer : (U.filter fun y => y ∉ x :: visited).card
      < (U.filter fun y => y ∉ visited).card := by
    apply Finset.card_lt_card
    refine Finset.ssubset_iff_subset_ne.mpr ⟨fun y hy => ?_, fun same => ?_⟩
    · obtain ⟨hy, new⟩ := Finset.mem_filter.mp hy
      exact Finset.mem_filter.mpr ⟨hy, fun old => new (List.mem_cons_of_mem x old)⟩
    · have : x ∈ U.filter fun y => y ∉ x :: visited := by
        rw [same]
        exact Finset.mem_filter.mpr ⟨hx, fresh⟩
      simp at this
  rw [Enough] at h ⊢
  omega

/-- Searching from several nodes, one after the other. -/
theorem searches_foldl (out : List α) (nil : ∀ V, P V [] [])
    (append : ∀ {V xs ys K L}, P V xs K → P (V ∪ { y | y ∈ K }) ys L → P V (xs ++ ys) (K ++ L))
    (one : ∀ visited out x, x ∈ U → Enough U fuel visited →
      Searches P visited out [x] (step (visited, out) x))
    (inside : ∀ x ∈ xs, x ∈ U) (enough : Enough U fuel visited) :
    Searches P visited out xs (xs.foldl step (visited, out)) := by
  induction xs generalizing visited out with
  | nil => exact ⟨[], nil _, (List.append_nil out).symm, fun y => by simp⟩
  | cons x xs ih =>
    obtain ⟨K, first, result, seen⟩ := one visited out x (inside x List.mem_cons_self) enough
    have more : Enough U fuel (step (visited, out) x).1 :=
      enough.mono fun y hy => (seen y).mpr (.inl hy)
    have rest : Searches P (step (visited, out) x).1 (step (visited, out) x).2 xs
        (xs.foldl step (step (visited, out) x)) :=
      ih _ (fun y hy => inside y (List.mem_cons_of_mem x hy)) more
    obtain ⟨L, later, result', seen'⟩ := rest
    have sets : { y | y ∈ (step (visited, out) x).1 } = { y | y ∈ visited } ∪ { y | y ∈ K } := by
      ext y
      exact seen y
    rw [sets] at later
    refine ⟨K ++ L, append first later, ?_, fun y => ?_⟩
    · rw [List.foldl_cons, result', result, List.append_assoc]
    · rw [List.foldl_cons, seen', seen, List.mem_append, or_assoc]

end Lists

/-- What the second pass finds at a new node. -/
theorem mem_component_iff (edges : ∀ x y, x ∈ prev y ↔ y ∈ next x)
    (sources : ∀ x, ∀ y ∈ next x, x ∈ xs) (h : Finished next ∅ xs L) {rest done : List α}
    (reversed : L.reverse = done ++ r :: rest) (seen : ∀ y ∈ done, y ∈ V)
    (whole : ∀ x ∈ V, ∀ y, Strong next x y → y ∈ V) (new : r ∉ V)
    (found : Explored prev V [r] K) : y ∈ K ↔ Strong next r y := by
  have parts : L = rest.reverse ++ r :: done.reverse := by
    have := congrArg List.reverse reversed
    simpa using this
  constructor
  · intro hy
    obtain ⟨r', hr, _, path⟩ := found.sound y hy
    rw [List.mem_singleton.mp hr] at path
    have back : Path next ∅ y r := path_reverse edges (path.mono (Set.empty_subset V))
    have listed : y ∈ L := by
      obtain rfl | ⟨c, _, step⟩ := path.cases_tail
      · simp [parts]
      · exact (h.roots y (sources y c ((edges y c).mp step.1))).resolve_left (Set.notMem_empty y)
    obtain ⟨z, -, there, return_, before⟩ := h.order y listed r back
    -- `z` is left no earlier than `r`, so it was looked at before
    obtain rfl | later := before.eq_or_mem h.nodup parts
    · exact ⟨return_, there⟩
    · have visited : z ∈ V := seen z (List.mem_reverse.mp later)
      exact absurd (whole z visited y ⟨return_, there⟩) (found.fresh y hy)
  · rintro ⟨there, back⟩
    induction back using ReflTransGen.head_induction_on with
    | refl => exact (found.roots r (List.mem_singleton_self r)).resolve_left new
    | @head w c step path ih =>
      have hc : c ∈ K := ih (there.tail step)
      refine (found.closed c hc w ((edges w c).mpr step.1)).resolve_left fun visited => ?_
      exact new (whole w visited r ⟨.head step.1 step.2 path, there⟩)

/-- Components that have been found so far; no edge leads from a later one to an earlier
one. -/
structure Components (next prev : α → List α) (V : Set α) (sccs : List (List α)) : Prop where
  visited : ∀ y, y ∈ V ↔ ∃ c ∈ sccs, y ∈ c
  nodup : ∀ c ∈ sccs, c.Nodup
  nonempty : ∀ c ∈ sccs, c ≠ []
  strong : ∀ c ∈ sccs, ∀ x ∈ c, ∀ y, y ∈ c ↔ Strong next x y
  closed : ∀ y ∈ V, ∀ x ∈ prev y, x ∈ V
  disjoint : sccs.Pairwise List.Disjoint
  sorted : sccs.Pairwise fun c c' => ∀ x ∈ c', ∀ y ∈ c, y ∉ next x

namespace Components

theorem nil (next prev : α → List α) : Components next prev ∅ [] where
  visited y := by simp
  nodup := nofun
  nonempty := nofun
  strong := nofun
  closed := nofun
  disjoint := .nil
  sorted := .nil

variable {sccs : List (List α)}

theorem whole (h : Components next prev V sccs) (hx : x ∈ V) (strong : Strong next x y) :
    y ∈ V := by
  obtain ⟨c, hc, mem⟩ := (h.visited x).mp hx
  exact (h.visited y).mpr ⟨c, hc, (h.strong c hc x mem y).mpr strong⟩

theorem concat (h : Components next prev V sccs) (edges : ∀ x y, x ∈ prev y ↔ y ∈ next x)
    (found : Explored prev V [r] K) (component : ∀ y, y ∈ K ↔ Strong next r y) :
    Components next prev (V ∪ { y | y ∈ K }) (sccs ++ [K]) := by
  have old {c : List α} (hc : c ∈ sccs) {x : α} (hx : x ∈ c) : x ∈ V :=
      (h.visited x).mpr ⟨c, hc, hx⟩
  have root : r ∈ K := (component r).mpr (.refl r)
  refine ⟨?_, ?_, ?_, ?_, ?_, ?_, ?_⟩
  · intro y
    simp only [Set.mem_union, h.visited y, Set.mem_ofPred_eq, List.mem_append, List.mem_singleton,
      or_and_right, exists_or, exists_eq_left]
  · intro c hc
    obtain hc | hc := List.mem_append.mp hc
    · exact h.nodup c hc
    · exact List.mem_singleton.mp hc ▸ found.nodup
  · intro c hc
    obtain hc | hc := List.mem_append.mp hc
    · exact h.nonempty c hc
    · exact List.mem_singleton.mp hc ▸ List.ne_nil_of_mem root
  · intro c hc x hx y
    obtain hc | hc := List.mem_append.mp hc
    · exact h.strong c hc x hx y
    · rw [List.mem_singleton.mp hc] at hx ⊢
      have strong := (component x).mp hx
      rw [component]
      exact ⟨strong.symm.trans, strong.trans⟩
  · rintro y (hy | hy) x hx
    · exact .inl (h.closed y hy x hx)
    · exact found.closed y hy x hx
  · refine List.pairwise_append.mpr ⟨h.disjoint, List.pairwise_singleton _ _, ?_⟩
    intro c hc c' hc' x hx hx'
    rw [List.mem_singleton.mp hc'] at hx'
    exact found.fresh x hx' (old hc hx)
  · refine List.pairwise_append.mpr ⟨h.sorted, List.pairwise_singleton _ _, ?_⟩
    intro c hc c' hc' x hx y hy edge
    rw [List.mem_singleton.mp hc'] at hx
    exact found.fresh x hx (h.closed y (old hc hy) x ((edges x y).mpr edge))

end Components

end Kosaraju
