import PgRipple.Lib.Kosaraju

/-!
# The depth-first tree

`DepthFirst next d V xs order` is the search from `xs`, one after the other, that does not enter
the visited nodes `V`: `order` has the nodes in the order in which they are entered, each with its
depth in the tree of the search, where the nodes of `xs` have depth `d`.

The depth of a node is in general not its distance. What is found is what can be reached, as
`explored` says, and `exists_depthFirst` gives the search of a finite graph.
-/

open Kosaraju

variable {α : Type*} {next : α → List α} {d : Nat} {V xs : List α} {order : List (α × Nat)}

/-- The nodes that are entered, and the depth of each. -/
inductive DepthFirst (next : α → List α) : Nat → List α → List α → List (α × Nat) → Prop
  | nil {d : Nat} {V : List α} : DepthFirst next d V [] []
  | skip {d : Nat} {V xs : List α} {x : α} {order : List (α × Nat)} (seen : x ∈ V)
      (rest : DepthFirst next d V xs order) : DepthFirst next d V (x :: xs) order
  | visit {d : Nat} {V xs : List α} {x : α} {below later : List (α × Nat)} (fresh : x ∉ V)
      (inside : DepthFirst next (d + 1) (x :: V) (next x) below)
      (rest : DepthFirst next d ((below.map Prod.fst).reverse ++ x :: V) xs later) :
      DepthFirst next d V (x :: xs) ((x, d) :: below ++ later)

namespace DepthFirst

/-- The search finds what can be reached without the visited nodes, each node once. -/
theorem explored (h : DepthFirst next d V xs order) :
    Explored next { v | v ∈ V } xs (order.map Prod.fst) := by
  induction h with
  | nil => exact .nil next _
  | @skip d V xs x order seen rest ih =>
    have first : Explored next { v | v ∈ V } [x] [] := .seen seen
    refine first.append ?_
    simpa using ih
  | @visit d V xs x below later fresh inside rest ihI ihR =>
    have visited : { v | v ∈ x :: V } = insert x { v | v ∈ V } := by
      ext v
      simp
    rw [visited] at ihI
    have outside : x ∉ { v | v ∈ V } := fresh
    have here : Explored next { v | v ∈ V } [x] (x :: below.map Prod.fst) :=
      (Explored.node outside ihI).perm (List.perm_append_singleton x (below.map Prod.fst)).symm
    have both : Explored next { v | v ∈ V } ([x] ++ xs)
        ((x :: below.map Prod.fst) ++ later.map Prod.fst) := by
      refine here.append ?_
      have same : { v | v ∈ (below.map Prod.fst).reverse ++ x :: V } =
          { v | v ∈ V } ∪ { v | v ∈ x :: below.map Prod.fst } := by
        ext v
        simp only [List.mem_append, List.mem_reverse, List.mem_cons, Set.mem_union,
          Set.mem_ofPred_eq]
        tauto
      rw [← same]
      exact ihR
    simpa using both

/-- A search of a finite graph ends. -/
theorem exists_depthFirst [DecidableEq α] (U : Finset α) (inside : ∀ x ∈ U, ∀ y ∈ next x, y ∈ U)
    (d : Nat) (V xs : List α) (hxs : ∀ x ∈ xs, x ∈ U) : ∃ order, DepthFirst next d V xs order := by
  -- a new node leaves fewer nodes to visit
  induction unseen : (U \ V.toFinset).card using Nat.strong_induction_on generalizing d V xs with
  | _ n ih =>
    have fewer {x : α} {W : List α} (hx : x ∈ U) (fresh : x ∉ V) (subset : x :: V ⊆ W) :
        (U \ W.toFinset).card < n := by
      rw [← unseen]
      refine Finset.card_lt_card (Finset.ssubset_iff_of_subset ?_ |>.mpr ⟨x, ?_, ?_⟩)
      · intro y hy
        rw [Finset.mem_sdiff, List.mem_toFinset] at hy ⊢
        exact ⟨hy.1, fun old => hy.2 (subset (List.mem_cons_of_mem x old))⟩
      · rw [Finset.mem_sdiff, List.mem_toFinset]
        exact ⟨hx, fresh⟩
      · rw [Finset.mem_sdiff, List.mem_toFinset]
        exact fun hy => hy.2 (subset List.mem_cons_self)
    induction xs with
    | nil => exact ⟨[], .nil⟩
    | cons x xs ihXs =>
      have hx := hxs x List.mem_cons_self
      have later (y : α) (hy : y ∈ xs) := hxs y (List.mem_cons_of_mem x hy)
      by_cases seen : x ∈ V
      · obtain ⟨order, rest⟩ := ihXs later
        exact ⟨order, .skip seen rest⟩
      · obtain ⟨below, first⟩ := ih _ (fewer hx seen (List.Subset.refl _)) (d + 1) (x :: V) (next x)
          (inside x hx) rfl
        obtain ⟨order, rest⟩ := ih _ (fewer hx seen (List.subset_append_right _ _)) d
          ((below.map Prod.fst).reverse ++ x :: V) xs later rfl
        exact ⟨_, .visit seen first rest⟩

end DepthFirst
