import Mathlib

/-!
# Proof trees

`justify()` assembles a tree of derivations for a triple. `build_proof_tree` goes down
from a statement id to the antecedents of its derivations. The ids on the way are kept
in a set that every call leaves as it found it, the depth is bounded, and a counter that
all calls share bounds the number of nodes.

The counter is a 32-bit word and is increased by every call, also by those that answer
with a stub because the bound has been reached. Once it is, only the antecedents that are
still open on the way down are left, so a table with fewer than about 2 ^ 32 antecedents
never makes the word wrap.
-/

namespace PgRipple.Datalog.Justify

/-- A row of the table `derivations` for a given `derived_sid`. -/
structure DerivationRow (τ : Type) where
  ruleName : String
  ruleSet : String
  antecedents : List τ

/-- What `build_proof_tree` reads from the database. -/
structure Db where
  /-- `derivations_for_sid`. -/
  derivationsForSid : Int → List (DerivationRow Int)
  /-- `triple_for_sid`: predicate, subject and object. -/
  tripleForSid : Int → Option (Int × Int × Int)
  /-- The map of `batch_decode`. -/
  decode : Int → Option String

/-- The triple of a node in text, or its bare id. -/
inductive TripleLabel where
  | triple (subject predicate object : String)
  | sid (sid : Int)

/-- The JSON value. -/
inductive ProofTree where
  | maxNodesReached (sid : Int)
  | cycle (sid : Int)
  | maxDepthReached (sid : Int)
  | base (sid : Int) (triple : TripleLabel)
  | inferred (sid : Int) (triple : TripleLabel) (derivations : List (DerivationRow ProofTree))

inductive Kind where
  | maxNodesReached | cycle | maxDepthReached | expanded
  deriving DecidableEq

/-- A node of the tree, with the ids of the nodes above it, the nearest one first. -/
structure Visit where
  path : List Int
  sid : Int
  kind : Kind

def Visit.under (sid : Int) (v : Visit) : Visit := { v with path := v.path ++ [sid] }

mutual

/-- The nodes of a tree, in the order of the calls. -/
def ProofTree.visits : ProofTree → List Visit
  | .maxNodesReached sid => [⟨[], sid, .maxNodesReached⟩]
  | .cycle sid => [⟨[], sid, .cycle⟩]
  | .maxDepthReached sid => [⟨[], sid, .maxDepthReached⟩]
  | .base sid _ => [⟨[], sid, .expanded⟩]
  | .inferred sid _ rows => ⟨[], sid, .expanded⟩ :: (visitsOfRows rows).map (Visit.under sid)

def visitsOfRows : List (DerivationRow ProofTree) → List Visit
  | [] => []
  | ⟨_, _, trees⟩ :: rows => visitsOfTrees trees ++ visitsOfRows rows

def visitsOfTrees : List ProofTree → List Visit
  | [] => []
  | tree :: trees => tree.visits ++ visitsOfTrees trees

end

theorem visitsOfTrees_eq (trees : List ProofTree) :
    visitsOfTrees trees = trees.flatMap ProofTree.visits := by
  induction trees with
  | nil => rfl
  | cons tree trees ih => rw [visitsOfTrees, List.flatMap_cons, ih]

/-- The nodes below one derivation. -/
def visitsOfRow (row : DerivationRow ProofTree) : List Visit :=
  row.antecedents.flatMap ProofTree.visits

theorem visitsOfRows_eq (rows : List (DerivationRow ProofTree)) :
    visitsOfRows rows = rows.flatMap visitsOfRow := by
  induction rows with
  | nil => rfl
  | cons row rows ih => rw [visitsOfRows, List.flatMap_cons, ih, visitsOfTrees_eq, visitsOfRow]

/-- `triple_label`. -/
def tripleLabel (db : Db) (sid : Int) : TripleLabel :=
  match db.tripleForSid sid with
  | some (pId, sId, oId) =>
    let text := fun id => (db.decode id).getD ("<id:" ++ toString id ++ ">")
    .triple (text sId) (text pId) (text oId)
  | none => .sid sid

/-- The set `visited` and the counter `node_count`. -/
structure Progress (κ : Type) where
  visited : Finset Int
  nodeCount : κ

/-- Run a step for every element of a list, one after the other. -/
def sequence {α β σ : Type} (f : α → σ → Option (β × σ)) : List α → σ → Option (List β × σ)
  | [], s => some ([], s)
  | a :: as, s =>
    (f a s).bind fun (b, s) => (sequence f as s).map fun (bs, s) => (b :: bs, s)

/-- The entry of one derivation, with a tree for each of its antecedents. -/
def buildRow {σ : Type} (build : Int → σ → Option (ProofTree × σ)) (row : DerivationRow Int)
    (s : σ) :
    Option (DerivationRow ProofTree × σ) :=
  (sequence build row.antecedents s).map fun (trees, s) => (⟨row.ruleName, row.ruleSet, trees⟩, s)

/-- `build_proof_tree`. The counter is increased by `tick` and compared with `max_nodes`
by `spent`. -/
def buildProofTree {κ : Type} (tick : κ → κ) (spent : κ → Bool) (db : Db) (maxDepth : Nat) :
    (fuel : Nat) → (depth : Nat) → (sid : Int) → Progress κ → Option (ProofTree × Progress κ)
  | 0, _, _, _ => none
  | fuel + 1, depth, sid, ⟨visited, nodeCount⟩ =>
    let nodeCount := tick nodeCount
    if spent nodeCount then some (.maxNodesReached sid, ⟨visited, nodeCount⟩)
    else if sid ∈ visited then some (.cycle sid, ⟨visited, nodeCount⟩)
    else if maxDepth ≤ depth then
      some (.maxDepthReached sid, ⟨(insert sid visited).erase sid, nodeCount⟩)
    else if (db.derivationsForSid sid).isEmpty then
      some (.base sid (tripleLabel db sid), ⟨(insert sid visited).erase sid, nodeCount⟩)
    else
      (sequence (buildRow (buildProofTree tick spent db maxDepth fuel (depth + 1)))
        (db.derivationsForSid sid) ⟨insert sid visited, nodeCount⟩).map fun (rows, s) =>
          (.inferred sid (tripleLabel db sid) rows, ⟨s.visited.erase sid, s.nodeCount⟩)

/-- The function as it is: a counter of 32 bits, and depths that stay below `max_depth`. -/
def buildProofTree32 (db : Db) (maxDepth maxNodes : BitVec 32) (depth : Nat) (sid : Int)
    (visited : Finset Int) : Option (ProofTree × Progress (BitVec 32)) :=
  buildProofTree (· + 1) (fun n => maxNodes < n) db maxDepth.toNat (maxDepth.toNat - depth + 1)
    depth sid ⟨visited, 0⟩

/-- The antecedents that are recorded for a triple. -/
def antecedentCount (db : Db) (sid : Int) : Nat :=
  ((db.derivationsForSid sid).map fun row => row.antecedents.length).sum

/-- Which of the next `n` calls find the counter above its bound. -/
def stubs {κ : Type} (tick : κ → κ) (spent : κ → Bool) (c : κ) (n : Nat) : List Bool :=
  (List.range n).map fun i => spent (tick^[i + 1] c)

/-- The node is a stub of the node bound. -/
def Visit.capped (v : Visit) : Bool := v.kind = .maxNodesReached

section Calls

variable {α β κ : Type} {tick : κ → κ} {spent : κ → Bool} {c : κ}

theorem stubs_add (m n : Nat) :
    stubs tick spent c (m + n) = stubs tick spent c m ++ stubs tick spent (tick^[m] c) n := by
  rw [stubs, List.range_add, List.map_append, List.map_map]
  congr 1
  apply List.map_congr_left
  intro i _
  rw [Function.comp_apply, ← Function.iterate_add_apply, Nat.add_right_comm, Nat.add_comm i 1,
    Nat.add_comm (1 + i), Nat.add_assoc, Nat.add_comm 1 i, Nat.add_comm m, Nat.add_assoc]

theorem stubs_succ (n : Nat) :
    stubs tick spent c (n + 1) = spent (tick c) :: stubs tick spent (tick c) n := by
  rw [Nat.add_comm, stubs_add]
  rfl

/-- What a step leaves behind: the set as it was, one count per node, a stub wherever the
counter was above its bound, and nodes within the depth that repeat no id. -/
structure Outcome (visits : β → List Visit) (tick : κ → κ) (spent : κ → Bool) (maxDepth depth : Nat)
    (s : Progress κ) (b : β) (s' : Progress κ) : Prop where
  restored : s'.visited = s.visited
  count : s'.nodeCount = tick^[(visits b).length] s.nodeCount
  capped : (visits b).map Visit.capped = stubs tick spent s.nodeCount (visits b).length
  shallow : ∀ v ∈ visits b, depth + v.path.length ≤ max depth maxDepth
  fresh : ∀ v ∈ visits b, v.kind = .expanded →
    (v.sid :: v.path).Nodup ∧ ∀ x ∈ v.sid :: v.path, x ∉ s.visited

variable {visits : β → List Visit} {maxDepth depth : Nat}

/-- Steps that have an outcome have one together. -/
theorem exists_sequence {f : α → Progress κ → Option (β × Progress κ)}
    (step : ∀ a s, ∃ b s', f a s = some (b, s') ∧ Outcome visits tick spent maxDepth depth s b s')
    (as : List α) (s : Progress κ) :
    ∃ bs s', sequence f as s = some (bs, s') ∧
      Outcome (List.flatMap visits) tick spent maxDepth depth s bs s' := by
  induction as generalizing s with
  | nil => exact ⟨[], s, rfl, rfl, rfl, rfl, nofun, nofun⟩
  | cons a as ih =>
    obtain ⟨b, s₁, first, here⟩ := step a s
    obtain ⟨bs, s₂, rest, later⟩ := ih s₁
    refine ⟨b :: bs, s₂, ?_, later.restored.trans here.restored, ?_, ?_, ?_, ?_⟩
    · simp only [sequence, first, rest, Option.bind_some, Option.map_some]
    · rw [List.flatMap_cons, List.length_append, later.count, here.count,
        ← Function.iterate_add_apply, Nat.add_comm]
    · rw [List.flatMap_cons, List.length_append, List.map_append, stubs_add, here.capped,
        later.capped, here.count]
    · intro v hv
      rw [List.flatMap_cons, List.mem_append] at hv
      exact hv.elim (here.shallow v) (later.shallow v)
    · intro v hv expanded
      rw [List.flatMap_cons, List.mem_append] at hv
      refine hv.elim (fun hv => here.fresh v hv expanded) fun hv => ?_
      rw [← here.restored]
      exact later.fresh v hv expanded

theorem exists_buildRow {build : Int → Progress κ → Option (ProofTree × Progress κ)}
    (step : ∀ sid s, ∃ tree s', build sid s = some (tree, s') ∧
      Outcome ProofTree.visits tick spent maxDepth depth s tree s')
    (row : DerivationRow Int) (s : Progress κ) :
    ∃ row' s', buildRow build row s = some (row', s') ∧
      Outcome visitsOfRow tick spent maxDepth depth s row' s' := by
  obtain ⟨trees, s', built, outcome⟩ := exists_sequence step row.antecedents s
  refine ⟨⟨row.ruleName, row.ruleSet, trees⟩, s', ?_, ?_⟩
  · rw [buildRow, built]
    rfl
  · exact ⟨outcome.restored, outcome.count, outcome.capped, outcome.shallow, outcome.fresh⟩

theorem outcome_leaf {s s' : Progress κ} {tree : ProofTree} {sid : Int} {kind : Kind}
    (leaf : tree.visits = [⟨[], sid, kind⟩]) (restored : s'.visited = s.visited)
    (count : s'.nodeCount = tick s.nodeCount)
    (capped : decide (kind = .maxNodesReached) = spent (tick s.nodeCount))
    (fresh : kind = .expanded → sid ∉ s.visited) :
    Outcome ProofTree.visits tick spent maxDepth depth s tree s' where
  restored := restored
  count := by
    rw [leaf]
    exact count
  capped := by
    rw [leaf]
    exact congrArg (fun flag => [flag]) capped
  shallow := by
    intro v hv
    rw [leaf] at hv
    cases List.mem_singleton.mp hv
    exact Nat.le_max_left _ _
  fresh := by
    intro v hv expanded
    rw [leaf] at hv
    cases List.mem_singleton.mp hv
    refine ⟨List.nodup_singleton sid, ?_⟩
    intro x hx
    cases List.mem_singleton.mp hx
    exact fresh expanded

theorem erase_insert_eq {visited : Finset Int} {sid : Int} (fresh : sid ∉ visited) :
    (insert sid visited).erase sid = visited := Finset.erase_insert fresh

/-- Every call ends, with fuel for the levels that are left. -/
theorem exists_buildProofTree (db : Db) {fuel : Nat} (enough : maxDepth < depth + fuel) (sid : Int)
    (s : Progress κ) (pos : 0 < fuel) :
    ∃ tree s', buildProofTree tick spent db maxDepth fuel depth sid s = some (tree, s') ∧
      Outcome ProofTree.visits tick spent maxDepth depth s tree s' := by
  induction fuel generalizing depth sid s with
  | zero => cases pos
  | succ fuel ih =>
    obtain ⟨visited, nodeCount⟩ := s
    rw [buildProofTree]
    dsimp only
    split
    · rename_i above
      exact ⟨_, _, rfl, outcome_leaf rfl rfl rfl above.symm nofun⟩
    · rename_i below
      have below : spent (tick nodeCount) = false := Bool.not_eq_true _ ▸ below
      split
      · exact ⟨_, _, rfl, outcome_leaf rfl rfl rfl below.symm nofun⟩
      · rename_i fresh
        split
        · exact ⟨_, _, rfl, outcome_leaf rfl (erase_insert_eq fresh) rfl below.symm nofun⟩
        · rename_i deep
          split
          · exact
              ⟨_, _, rfl, outcome_leaf rfl (erase_insert_eq fresh) rfl below.symm fun _ => fresh⟩
          · have next : ∀ ant s, ∃ tree s',
                buildProofTree tick spent db maxDepth fuel (depth + 1) ant s =
                some (tree, s') ∧
                  Outcome ProofTree.visits tick spent maxDepth (depth + 1) s tree s' :=
              fun ant s => ih (by omega) ant s (by omega)
            obtain ⟨rows, s', built, outcome⟩ := exists_sequence (exists_buildRow next)
              (db.derivationsForSid sid) ⟨insert sid visited, tick nodeCount⟩
            rw [built]
            refine ⟨_, _, rfl, ?_, ?_, ?_, ?_, ?_⟩
            · show s'.visited.erase sid = visited
              rw [outcome.restored]
              exact erase_insert_eq fresh
            · simp only [ProofTree.visits, visitsOfRows_eq, List.length_cons, List.length_map,
                Function.iterate_succ_apply]
              exact outcome.count
            · simp only [ProofTree.visits, visitsOfRows_eq, List.length_cons, List.length_map,
                List.map_cons, List.map_map, stubs_succ, below]
              exact congrArg (List.cons false) outcome.capped
            · intro v hv
              rw [ProofTree.visits, visitsOfRows_eq] at hv
              obtain rfl | below := List.mem_cons.mp hv
              · exact Nat.le_max_left _ _
              · obtain ⟨w, hw, rfl⟩ := List.mem_map.mp below
                have level := outcome.shallow w hw
                rw [Visit.under, List.length_append, List.length_singleton]
                omega
            · intro v hv expanded
              rw [ProofTree.visits, visitsOfRows_eq] at hv
              obtain rfl | below := List.mem_cons.mp hv
              · refine ⟨List.nodup_singleton sid, ?_⟩
                intro x hx
                cases List.mem_singleton.mp hx
                exact fresh
              · obtain ⟨w, hw, rfl⟩ := List.mem_map.mp below
                obtain ⟨nodup, outside⟩ := outcome.fresh w hw expanded
                rw [Visit.under, ← List.cons_append]
                constructor
                · refine nodup.append (List.nodup_singleton sid) ?_
                  rw [List.disjoint_singleton]
                  intro again
                  exact outside sid again (Finset.mem_insert_self sid visited)
                · intro x hx
                  obtain inner | last := List.mem_append.mp hx
                  · exact fun seen => outside x inner (Finset.mem_insert_of_mem seen)
                  · cases List.mem_singleton.mp last
                    exact fresh

end Calls

section Counter

variable {maxNodes : BitVec 32}

theorem iterate_add_one (n : Nat) : (fun c : BitVec 32 => c + 1)^[n] 0 = BitVec.ofNat 32 n := by
  induction n with
  | zero => rfl
  | succ n ih =>
    rw [Function.iterate_succ_apply', ih]
    apply BitVec.eq_of_toNat_eq
    have one : (1 : BitVec 32).toNat = 1 := rfl
    rw [BitVec.toNat_add, BitVec.toNat_ofNat, BitVec.toNat_ofNat, one]
    omega

theorem stubs_word (n : Nat) :
    stubs (fun c : BitVec 32 => c + 1) (fun c => decide (maxNodes < c)) 0 n =
      (List.range n).map fun i => decide (maxNodes.toNat < (i + 1) % 2 ^ 32) := by
  apply List.map_congr_left
  intro i _
  simp only [iterate_add_one, BitVec.lt_def, BitVec.toNat_ofNat]

/-- The calls that pass the node bound, of `n` calls in all. -/
theorem count_stubs (n : Nat) :
    (stubs (fun c : BitVec 32 => c + 1) (fun c => decide (maxNodes < c)) 0 n).count false =
      ((List.range n).filter fun i => (i + 1) % 2 ^ 32 ≤ maxNodes.toNat).length := by
  rw [stubs_word, List.count, List.countP_map, List.countP_eq_length_filter]
  congr 1
  apply List.filter_congr
  intro i _
  simp only [Function.comp_apply, beq_false, ← decide_not, Nat.not_lt]

theorem count_stubs_le {n : Nat} (fits : n < 2 ^ 32) :
    (stubs (fun c : BitVec 32 => c + 1) (fun c => decide (maxNodes < c)) 0 n).count false ≤
      maxNodes.toNat := by
  rw [count_stubs]
  have sub : ((List.range n).filter fun i => (i + 1) % 2 ^ 32 ≤ maxNodes.toNat) ⊆
      List.range maxNodes.toNat := by
    intro i hi
    rw [List.mem_filter, List.mem_range, decide_eq_true_eq] at hi
    rw [List.mem_range]
    omega
  have le := (List.subperm_of_subset (List.nodup_range.filter _) sub).length_le
  rwa [List.length_range] at le

/-- When the counter has come round to zero, one more call passes. -/
theorem lt_count_stubs {n : Nat} (wraps : 2 ^ 32 ≤ n) :
    maxNodes.toNat <
      (stubs (fun c : BitVec 32 => c + 1) (fun c => decide (maxNodes < c)) 0 n).count false := by
  rw [count_stubs]
  have bound : maxNodes.toNat < 2 ^ 32 := maxNodes.isLt
  have nodup : (List.range maxNodes.toNat ++ [2 ^ 32 - 1]).Nodup := by
    refine List.nodup_range.append (List.nodup_singleton _) ?_
    rw [List.disjoint_singleton, List.mem_range]
    omega
  have sub : List.range maxNodes.toNat ++ [2 ^ 32 - 1] ⊆
      (List.range n).filter fun i => (i + 1) % 2 ^ 32 ≤ maxNodes.toNat := by
    intro i hi
    rw [List.mem_filter, List.mem_range, decide_eq_true_eq]
    obtain early | last := List.mem_append.mp hi
    · rw [List.mem_range] at early
      omega
    · cases List.mem_singleton.mp last
      omega
  have le := (List.subperm_of_subset nodup sub).length_le
  rw [List.length_append, List.length_range, List.length_singleton] at le
  omega

end Counter

section Calls

variable {α β : Type} {visits : β → List Visit} {size : α → Nat} {open_ limit : Nat}
  {visited : Finset Int} {maxNodes : BitVec 32}

/-- What a step of that size leaves behind: the set as it was, and one count per node. There are
at most that many nodes more than the antecedents in `open_` and the nodes up to the limit. -/
def Counted (visits : β → List Visit) (visited : Finset Int) (limit : Nat) (size : Nat)
    (s : Progress (BitVec 32)) (b : β) (s' : Progress (BitVec 32)) : Prop :=
  s'.visited = visited ∧ s'.nodeCount.toNat = s.nodeCount.toNat + (visits b).length ∧
    s'.nodeCount.toNat ≤ max s.nodeCount.toNat limit + size

theorem sequence_cons {κ : Type} {f : α → κ → Option (β × κ)} {a : α} {as : List α} {s : κ}
    {r : List β × κ} (h : sequence f (a :: as) s = some r) :
    ∃ b s₁ bs s₂, f a s = some (b, s₁) ∧ sequence f as s₁ = some (bs, s₂) ∧ r = (b :: bs, s₂) := by
  rw [sequence, Option.bind_eq_some_iff] at h
  obtain ⟨⟨b, s₁⟩, first, rest⟩ := h
  obtain ⟨⟨bs, s₂⟩, later, rfl⟩ := Option.map_eq_some_iff.mp rest
  exact ⟨b, s₁, bs, s₂, first, later, rfl⟩

/-- Steps that are counted are counted together. -/
theorem counted_sequence {f : α → Progress (BitVec 32) → Option (β × Progress (BitVec 32))}
    (step : ∀ a s b s', s.visited = visited → f a s = some (b, s') →
      max s.nodeCount.toNat limit + size a < 2 ^ 32 → Counted visits visited limit (size a) s b s')
    {as : List α} {s s' : Progress (BitVec 32)} {bs : List β} (start : s.visited = visited)
    (h : sequence f as s = some (bs, s'))
    (fits : max s.nodeCount.toNat limit + (as.map size).sum < 2 ^ 32) :
    Counted (List.flatMap visits) visited limit (as.map size).sum s bs s' := by
  induction as generalizing s bs with
  | nil =>
    cases h
    exact ⟨start, rfl, Nat.le_max_left _ _⟩
  | cons a as ih =>
    obtain ⟨b, s₁, bs, s₂, first, rest, eq⟩ := sequence_cons h
    cases eq
    rw [List.map_cons, List.sum_cons] at fits ⊢
    obtain ⟨same, count, bound⟩ := step a s b s₁ start first (by omega)
    obtain ⟨restored, counts, bounds⟩ := ih same rest (by omega)
    refine ⟨restored, ?_, by omega⟩
    rw [List.flatMap_cons, List.length_append]
    omega

/-- The antecedents of the triples that are not on the path. -/
def openCount (db : Db) (sids visited : Finset Int) : Nat :=
  ∑ sid ∈ sids \ visited, antecedentCount db sid

theorem openCount_insert {db : Db} {sids : Finset Int}
    (finite : ∀ sid, sid ∉ sids → db.derivationsForSid sid = []) {sid : Int}
    (fresh : sid ∉ visited) :
    openCount db sids (insert sid visited) + antecedentCount db sid =
      openCount db sids visited := by
  by_cases known : sid ∈ sids
  · have member : sid ∈ sids \ visited := Finset.mem_sdiff.mpr ⟨known, fresh⟩
    rw [openCount, openCount, Finset.sdiff_insert]
    exact Finset.sum_erase_add _ _ member
  · have none : antecedentCount db sid = 0 := by rw [antecedentCount, finite sid known]; rfl
    have same : (sids \ visited).erase sid = sids \ visited :=
      Finset.erase_eq_of_notMem fun member => known (Finset.mem_sdiff.mp member).1
    rw [openCount, openCount, Finset.sdiff_insert, same, none, Nat.add_zero]

/-- A call makes at most as many further calls as there are nodes up to the limit and
antecedents off the path. -/
theorem counted_buildProofTree {db : Db} {sids : Finset Int}
    (finite : ∀ sid, sid ∉ sids → db.derivationsForSid sid = []) (maxDepth : Nat) {fuel : Nat} :
    ∀ (depth : Nat) (sid : Int) (s : Progress (BitVec 32)) tree s',
      buildProofTree (· + 1) (fun n => decide (maxNodes < n)) db maxDepth fuel depth sid s =
        some (tree, s') →
      max s.nodeCount.toNat (maxNodes.toNat + openCount db sids s.visited) + 1 < 2 ^ 32 →
      Counted ProofTree.visits s.visited (maxNodes.toNat + openCount db sids s.visited) 1
        s tree s' := by
  induction fuel with
  | zero => exact fun _ _ _ _ _ h => nomatch h
  | succ fuel ih =>
    rintro depth sid ⟨visited, c⟩ tree s' h fits
    dsimp only at fits ⊢
    have next : (c + 1).toNat = c.toNat + 1 := by
      have one : (1 : BitVec 32).toNat = 1 := rfl
      rw [BitVec.toNat_add, one]
      omega
    have leaf {kind : Kind} (tree : ProofTree) (one : tree.visits = [⟨[], sid, kind⟩]) :
        Counted ProofTree.visits visited (maxNodes.toNat + openCount db sids visited) 1
          ⟨visited, c⟩ tree ⟨visited, c + 1⟩ := by
      refine ⟨rfl, ?_, ?_⟩
      · rw [one]
        exact next
      · dsimp only
        omega
    rw [buildProofTree] at h
    dsimp only at h
    split at h
    · cases h
      exact leaf _ rfl
    · rename_i below
      have below : c.toNat + 1 ≤ maxNodes.toNat := by
        rw [decide_eq_true_eq, BitVec.lt_def, next] at below
        omega
      split at h
      · cases h
        exact leaf _ rfl
      · rename_i fresh
        have back : (insert sid visited).erase sid = visited := erase_insert_eq fresh
        split at h
        · cases h
          rw [back]
          exact leaf _ rfl
        · split at h
          · cases h
            rw [back]
            exact leaf _ rfl
          · obtain ⟨⟨rows, t⟩, built, eq⟩ := Option.map_eq_some_iff.mp h
            cases eq
            have less := openCount_insert finite fresh
            obtain ⟨limit, hlimit⟩ : ∃ limit, limit =
              maxNodes.toNat + openCount db sids (insert sid visited) := ⟨_, rfl⟩
            have antecedent (ant : Int) (s : Progress (BitVec 32)) (tree : ProofTree)
                (s' : Progress (BitVec 32)) (path : s.visited = insert sid visited)
                (built : buildProofTree (· + 1) (fun n => decide (maxNodes < n)) db maxDepth fuel
                  (depth + 1) ant s = some (tree, s'))
                (fits : max s.nodeCount.toNat limit + 1 < 2 ^ 32) :
                Counted ProofTree.visits (insert sid visited) limit 1 s tree s' := by
              rw [hlimit, ← path] at fits ⊢
              exact ih (depth + 1) ant s tree s' built fits
            have row (row : DerivationRow Int) (s : Progress (BitVec 32))
                (built' : DerivationRow ProofTree) (s' : Progress (BitVec 32))
                (path : s.visited = insert sid visited)
                (h : buildRow (buildProofTree (· + 1) (fun n => decide (maxNodes < n)) db maxDepth
                  fuel (depth + 1)) row s = some (built', s'))
                (fits : max s.nodeCount.toNat limit + row.antecedents.length < 2 ^ 32) :
                Counted visitsOfRow (insert sid visited) limit row.antecedents.length s
                  built' s' := by
              obtain ⟨⟨trees, t⟩, built, eq⟩ := Option.map_eq_some_iff.mp h
              cases eq
              have ones : (row.antecedents.map fun _ => 1).sum = row.antecedents.length := by simp
              rw [← ones] at fits ⊢
              exact counted_sequence antecedent path built fits
            have size : ((db.derivationsForSid sid).map fun row => row.antecedents.length).sum =
                antecedentCount db sid := rfl
            obtain ⟨restored, count, bound⟩ := counted_sequence row rfl built
              (by rw [size, next]; omega)
            rw [size] at bound
            dsimp only at count bound
            refine ⟨?_, ?_, ?_⟩
            · dsimp only
              rw [restored]
              exact back
            · simp only [ProofTree.visits, visitsOfRows_eq, List.length_cons, List.length_map]
              omega
            · dsimp only
              omega

end Calls

/-- The limits that a call keeps: the set is restored, at most `maxNodes` nodes are expanded, no
node lies below `maxDepth`, and the expanded nodes of a path have different ids. -/
structure WithinLimits (maxDepth maxNodes depth : Nat) (visited : Finset Int) (tree : ProofTree)
    (after : Finset Int) : Prop where
  restored : after = visited
  nodes : tree.visits.countP (fun v => decide (v.kind = .expanded)) ≤ maxNodes
  nesting : ∀ v ∈ tree.visits, depth + v.path.length ≤ max depth maxDepth
  paths : ∀ v ∈ tree.visits, v.kind = .expanded → (v.sid :: v.path).Nodup

theorem countP_not_capped (visits : List Visit) :
    visits.countP (fun v => !v.capped) = (visits.map Visit.capped).count false := by
  rw [List.count, List.countP_map]
  apply List.countP_congr
  intro v _
  simp

/-- An expanded node has got past the node bound. -/
theorem countP_expanded_le (visits : List Visit) :
    visits.countP (fun v => decide (v.kind = .expanded)) ≤ visits.countP (fun v => !v.capped) := by
  apply List.countP_mono_left
  intro v _ expanded
  rw [decide_eq_true_eq] at expanded
  rw [Visit.capped, expanded]
  rfl

/-- Every call returns and keeps the limits, if the counter can count the nodes up to the bound
and the antecedents of all triples. -/
theorem buildProofTree_withinLimits (db : Db) (sids : Finset Int)
    (finite : ∀ sid, sid ∉ sids → db.derivationsForSid sid = []) (maxDepth maxNodes : BitVec 32)
    (depth : Nat) (sid : Int) (visited : Finset Int)
    (fits : maxNodes.toNat + ∑ sid ∈ sids, antecedentCount db sid + 1 < 2 ^ 32) :
    ∃ tree s, buildProofTree32 db maxDepth maxNodes depth sid visited = some (tree, s) ∧
      WithinLimits maxDepth.toNat maxNodes.toNat depth visited tree s.visited := by
  have room : maxDepth.toNat < depth + (maxDepth.toNat - depth + 1) := by omega
  obtain ⟨tree, s, built, outcome⟩ : ∃ tree s,
      buildProofTree32 db maxDepth maxNodes depth sid visited = some (tree, s) ∧
        Outcome ProofTree.visits (fun c : BitVec 32 => c + 1) (fun c => decide (maxNodes < c))
          maxDepth.toNat depth ⟨visited, 0⟩ tree s :=
    exists_buildProofTree db room sid _ (Nat.succ_pos _)
  have open_ : openCount db sids visited ≤ ∑ sid ∈ sids, antecedentCount db sid :=
    Finset.sum_le_sum_of_subset Finset.sdiff_subset
  have zero : (0 : BitVec 32).toNat = 0 := rfl
  obtain ⟨-, count, bound⟩ := counted_buildProofTree finite maxDepth.toNat depth sid _ tree s built
    (by dsimp only; omega)
  dsimp only at count bound
  have passed : tree.visits.countP (fun v => !v.capped) = (stubs (fun c : BitVec 32 => c + 1)
      (fun c => decide (maxNodes < c)) 0 tree.visits.length).count false := by
    rw [countP_not_capped, outcome.capped]
  have le : tree.visits.countP (fun v => !v.capped) ≤ maxNodes.toNat :=
    passed ▸ count_stubs_le (by omega)
  exact ⟨tree, s, built, outcome.restored, (countP_expanded_le _).trans le, outcome.shallow,
    fun v hv expanded => (outcome.fresh v hv expanded).1⟩

/-- A triple derived from itself and from another one. -/
def selfDerived : Db where
  derivationsForSid := fun sid => if sid = 1 then [⟨"r", "custom", [1, 2]⟩] else []
  tripleForSid := fun _ => none
  decode := fun _ => none

theorem buildProofTree_withinLimits_selfDerived :
    ∃ tree s, buildProofTree32 selfDerived 64 10 0 1 ∅ = some (tree, s) ∧
      WithinLimits 64 10 0 ∅ tree s.visited := by
  refine buildProofTree_withinLimits selfDerived {1} ?_ 64 10 0 1 ∅ (by decide)
  intro sid other
  rw [selfDerived]
  exact if_neg fun same => other (Finset.mem_singleton.mpr same)

/-- One triple with 64 derivations, each from the same base triple many times. -/
def fanOut : Db where
  derivationsForSid := fun sid =>
    if sid = 1 then
      (List.range 64).map fun i => ⟨toString i, "custom", List.replicate (2 ^ 26) 2⟩
    else []
  tripleForSid := fun _ => none
  decode := fun _ => none

/-- What holds of the result of every step holds of all results. -/
theorem forall_sequence {α β σ : Type} {f : α → σ → Option (β × σ)} {I : σ → Prop} {P : β → Prop}
    {as : List α} (step : ∀ a ∈ as, ∀ s b s', I s → f a s = some (b, s') → I s' ∧ P b) {s s' : σ}
    {bs : List β} (h : sequence f as s = some (bs, s')) (start : I s) :
    I s' ∧ bs.length = as.length ∧ ∀ b ∈ bs, P b := by
  induction as generalizing s bs with
  | nil =>
    cases h
    exact ⟨start, rfl, nofun⟩
  | cons a as ih =>
    obtain ⟨b, s₁, bs', s₂, first, rest, eq⟩ := sequence_cons h
    cases eq
    obtain ⟨mid, here⟩ := step a List.mem_cons_self s b s₁ start first
    obtain ⟨last, length, later⟩ :=
      ih (fun a ha => step a (List.mem_cons_of_mem _ ha)) rest mid
    refine ⟨last, by rw [List.length_cons, List.length_cons, length], ?_⟩
    intro c hc
    obtain rfl | hc := List.mem_cons.mp hc
    · exact here
    · exact later c hc

/-- One node, expanded or cut off. -/
def Single (tree : ProofTree) : Prop :=
  ∃ v, tree.visits = [v] ∧ (v.kind = .maxNodesReached ∨ v.kind = .expanded)

theorem length_flatMap_single {trees : List ProofTree} (single : ∀ tree ∈ trees, Single tree) :
    (trees.flatMap ProofTree.visits).length = trees.length ∧
      ∀ v ∈ trees.flatMap ProofTree.visits, v.kind = .maxNodesReached ∨ v.kind = .expanded := by
  induction trees with
  | nil => exact ⟨rfl, nofun⟩
  | cons tree trees ih =>
    obtain ⟨v, one, kind⟩ := single tree List.mem_cons_self
    obtain ⟨length, kinds⟩ := ih fun t ht => single t (List.mem_cons_of_mem _ ht)
    rw [List.flatMap_cons, one]
    refine ⟨by rw [List.length_append, length, List.length_singleton, List.length_cons,
      Nat.add_comm], ?_⟩
    intro w hw
    obtain here | later := List.mem_append.mp hw
    · cases List.mem_singleton.mp here
      exact kind
    · exact kinds w later

theorem length_flatMap_rows {rows : List (DerivationRow ProofTree)} {n : Nat}
    (each : ∀ row ∈ rows, row.antecedents.length = n ∧ ∀ tree ∈ row.antecedents, Single tree) :
    (rows.flatMap visitsOfRow).length = rows.length * n ∧
      ∀ v ∈ rows.flatMap visitsOfRow, v.kind = .maxNodesReached ∨ v.kind = .expanded := by
  induction rows with
  | nil => exact ⟨(Nat.zero_mul n).symm, nofun⟩
  | cons row rows ih =>
    obtain ⟨length, single⟩ := each row List.mem_cons_self
    obtain ⟨lengths, kinds⟩ := ih fun r hr => each r (List.mem_cons_of_mem _ hr)
    obtain ⟨here, kind⟩ := length_flatMap_single single
    rw [List.flatMap_cons]
    refine ⟨?_, ?_⟩
    · rw [List.length_append, lengths, visitsOfRow, here, length, List.length_cons, Nat.succ_mul,
        Nat.add_comm]
    · intro v hv
      exact (List.mem_append.mp hv).elim (kind v) (kinds v)

/-- A triple whose derivations all use one base triple: the calls are counted. -/
theorem visits_fan {db : Db} {n : Nat} {tree : ProofTree} {s : Progress (BitVec 32)}
    (some_ : (db.derivationsForSid 1).isEmpty = false) (leaf : db.derivationsForSid 2 = [])
    (each : ∀ row ∈ db.derivationsForSid 1, row.antecedents = List.replicate n 2)
    (h : buildProofTree32 db 64 10 0 1 ∅ = some (tree, s)) :
    tree.visits.length = 1 + (db.derivationsForSid 1).length * n ∧
      ∀ v ∈ tree.visits, v.kind = .maxNodesReached ∨ v.kind = .expanded := by
  have child (t t' : Progress (BitVec 32)) (tree : ProofTree) (only : t.visited = {1})
      (h : buildProofTree (fun c : BitVec 32 => c + 1) (fun c => decide (10 < c)) db 64 64 1 2 t =
        some (tree, t')) : t'.visited = {1} ∧ Single tree := by
    obtain ⟨visited, c⟩ := t
    obtain rfl : visited = {1} := only
    rw [buildProofTree] at h
    dsimp only at h
    split at h
    · cases h
      exact ⟨rfl, _, rfl, .inl rfl⟩
    · rw [if_neg (by decide), if_neg (by decide), leaf, List.isEmpty_nil, if_pos rfl] at h
      cases h
      have back : (insert 2 ({1} : Finset Int)).erase 2 = {1} := by decide
      exact ⟨back, _, rfl, .inr rfl⟩
  have step (row : DerivationRow Int) (hrow : row ∈ db.derivationsForSid 1)
      (t : Progress (BitVec 32)) (row' : DerivationRow ProofTree) (t' : Progress (BitVec 32))
      (only : t.visited = {1}) (h : buildRow (buildProofTree (fun c : BitVec 32 => c + 1)
        (fun c => decide (10 < c)) db 64 64 1) row t = some (row', t')) :
      t'.visited = {1} ∧
        (row'.antecedents.length = n ∧ ∀ tree ∈ row'.antecedents, Single tree) := by
    obtain ⟨⟨trees, t₁⟩, built, eq⟩ := Option.map_eq_some_iff.mp h
    cases eq
    rw [each row hrow] at built
    have only_child (sid : Int) (hsid : sid ∈ List.replicate n 2) (t : Progress (BitVec 32))
        (tree : ProofTree) (t' : Progress (BitVec 32)) (only : t.visited = {1})
        (h : buildProofTree (fun c : BitVec 32 => c + 1)
          (fun c => decide (10 < c)) db 64 64 1 sid t =
          some (tree, t')) : t'.visited = {1} ∧ Single tree := by
      cases List.eq_of_mem_replicate hsid
      exact child t t' tree only h
    obtain ⟨last, length, single⟩ := forall_sequence
      (I := fun t : Progress (BitVec 32) => t.visited = {1}) only_child built only
    rw [List.length_replicate] at length
    exact ⟨last, length, single⟩
  rw [buildProofTree32, show (64 : BitVec 32).toNat - 0 + 1 = 64 + 1 from rfl, buildProofTree] at h
  dsimp only at h
  rw [if_neg (by decide), if_neg (by decide), if_neg (by decide), some_,
    if_neg Bool.false_ne_true] at h
  obtain ⟨⟨rows, t⟩, built, eq⟩ := Option.map_eq_some_iff.mp h
  cases eq
  obtain ⟨-, length, all⟩ := forall_sequence
    (I := fun t : Progress (BitVec 32) => t.visited = {1})
    (P := fun row => row.antecedents.length = n ∧ ∀ tree ∈ row.antecedents, Single tree)
    (fun row hrow t row' t' only h => step row hrow t row' t' only h) built rfl
  obtain ⟨total, kinds⟩ := length_flatMap_rows all
  rw [ProofTree.visits, visitsOfRows_eq]
  refine ⟨?_, ?_⟩
  · rw [List.length_cons, List.length_map, total, length, Nat.add_comm]
  · intro v hv
    obtain rfl | below := List.mem_cons.mp hv
    · exact .inr rfl
    · obtain ⟨w, hw, rfl⟩ := List.mem_map.mp below
      exact kinds w hw

/-- With `max_nodes` at ten, a graph of two ids gets more than ten expanded nodes. -/
theorem not_expanded_le : ¬ ∀ db maxDepth maxNodes depth sid visited tree s,
    buildProofTree32 db maxDepth maxNodes depth sid visited = some (tree, s) →
      tree.visits.countP (fun v => decide (v.kind = .expanded)) ≤ maxNodes.toNat := by
  intro claim
  obtain ⟨tree, s, built, outcome⟩ : ∃ tree s,
      buildProofTree32 fanOut 64 10 0 1 ∅ = some (tree, s) ∧
        Outcome ProofTree.visits (fun c : BitVec 32 => c + 1) (fun c => decide (10 < c))
          64 0 ⟨∅, 0⟩ tree s :=
    exists_buildProofTree fanOut (by decide) 1 _ (Nat.succ_pos _)
  have rows : fanOut.derivationsForSid 1 =
      (List.range 64).map fun i => ⟨toString i, "custom", List.replicate (2 ^ 26) 2⟩ := by
    rw [fanOut]
    dsimp only
    rw [if_pos rfl]
  have leaf : fanOut.derivationsForSid 2 = [] := by
    rw [fanOut]
    dsimp only
    rw [if_neg (by decide)]
  have some_ : (fanOut.derivationsForSid 1).isEmpty = false := by
    rw [rows, List.isEmpty_map]
    rfl
  have each : ∀ row ∈ fanOut.derivationsForSid 1, row.antecedents = List.replicate (2 ^ 26) 2 := by
    intro row hrow
    rw [rows] at hrow
    obtain ⟨i, -, rfl⟩ := List.mem_map.mp hrow
    rfl
  obtain ⟨length, kinds⟩ := visits_fan some_ leaf each built
  rw [rows, List.length_map, List.length_range] at length
  have wraps : 2 ^ 32 ≤ tree.visits.length := by omega
  have more : (10 : BitVec 32).toNat < tree.visits.countP (fun v => !v.capped) := by
    rw [countP_not_capped, outcome.capped]
    exact lt_count_stubs wraps
  have same : tree.visits.countP (fun v => decide (v.kind = .expanded)) =
      tree.visits.countP fun v => !v.capped := by
    apply List.countP_congr
    intro v hv
    obtain cut | expanded := kinds v hv
    · simp [Visit.capped, cut]
    · simp [Visit.capped, expanded]
  have le := claim fanOut 64 10 0 1 ∅ tree s built
  rw [same] at le
  exact absurd le (Nat.not_le_of_lt more)

end PgRipple.Datalog.Justify
