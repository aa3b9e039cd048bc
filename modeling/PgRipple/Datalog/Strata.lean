import PgRipple.Datalog.Components

/-!
# What stratification returns

A rule list is refused just if its dependency graph has a cycle through a negative edge,
and otherwise each rule is in one stratum. The order of the strata is another matter: an
edge goes from a head to a body predicate, and Kahn's algorithm lists the source of an edge
first, so the strata come out with the heads before what they depend on.

`validOrder_iff` says what is left: the strata are in evaluation order only if no rule
needs another stratum at all.
-/

namespace PgRipple.Datalog

open Storage Kosaraju Relation

/-- A head depends on a body predicate. -/
def Depends (edges : List Edge) (p q : TermId) : Prop := ∃ e ∈ edges, e.from_ = p ∧ e.to_ = q

/-- A cycle of dependencies of which one is negative. -/
def NegativeCycle (edges : List Edge) : Prop :=
  ∃ e ∈ edges, e.negative = true ∧ ReflTransGen (Depends edges) e.to_ e.from_

def OnCycle (edges : List Edge) (p : TermId) : Prop := TransGen (Depends edges) p p

/-- The predicate that a literal reads, and whether it must be complete before. -/
def BodyLiteral.uses : BodyLiteral → Option (TermId × Bool)
  | .positive a => a.pred?.map fun p => (p, false)
  | .negated a => a.pred?.map fun p => (p, true)
  | .aggregate a => a.atom.pred?.map fun p => (p, true)
  | _ => none

/-- The shapes that are refused with PT511. -/
def Rule.AggregatesRecursively (r : Rule) : Prop :=
  ∃ h, r.headPred = some h ∧
    ((r.isRecursive h = true ∧ ∃ a, .aggregate a ∈ r.body) ∨
      ∃ a, .aggregate a ∈ r.body ∧ a.atom.pred? = some h)

section Graph

variable {edges : List Edge} {p q : TermId}

theorem path_iff : Path (adj edges) ∅ p q ↔ ReflTransGen (Depends edges) p q := by
  have same : (fun x y => y ∈ adj edges x ∧ y ∉ (∅ : Set TermId)) = Depends edges := by
    funext x y
    simp [mem_adj, Depends]
  rw [Kosaraju.Path, same]

/-- A negative edge within a component closes a cycle. -/
theorem negativeCycle_iff :
    NegativeCycle edges ↔ ∃ e ∈ edges, e.negative = true ∧ Strong (adj edges) e.from_ e.to_ := by
  refine exists_congr fun e => and_congr_right fun he => and_congr_right fun _ => ?_
  rw [Strong, path_iff, path_iff]
  exact (and_iff_right (.single ⟨e, he, rfl, rfl⟩)).symm

/-- A predicate is on a cycle if it depends on itself, or with another one on each other. -/
theorem onCycle_iff : OnCycle edges p ↔
    Depends edges p p ∨ ∃ q, q ≠ p ∧ Strong (adj edges) p q := by
  constructor
  · intro cycle
    obtain ⟨q, first, rest⟩ := TransGen.head'_iff.mp cycle
    by_cases same : q = p
    · exact .inl (same ▸ first)
    · refine .inr ⟨q, same, ?_⟩
      rw [Strong, path_iff, path_iff]
      exact ⟨.single first, rest⟩
  · rintro (loop | ⟨q, ne, there, back⟩)
    · exact .single loop
    · rw [path_iff] at there back
      obtain same | there := reflTransGen_iff_eq_or_transGen.mp there
      · exact absurd same ne
      · exact TransGen.trans_left there back

end Graph

section Rules

variable {rules : List Rule} {r : Rule} {h q : TermId} {l : BodyLiteral}

theorem dependency_eq : dependency h l = l.uses.map fun u => ⟨h, u.1, u.2⟩ := by
  cases l with
  | positive a => cases hp : a.pred? <;> simp [dependency, BodyLiteral.uses, hp]
  | negated a => cases hp : a.pred? <;> simp [dependency, BodyLiteral.uses, hp]
  | aggregate a => cases hp : a.atom.pred? <;> simp [dependency, BodyLiteral.uses, hp]
  | compare l op r => rfl
  | stringBuiltin b => rfl
  | assign v l op r => rfl
  | temporalFilter f => rfl

theorem mem_graph_iff {e : Edge} : e ∈ buildDependencyGraph rules ↔
    ∃ r ∈ rules, r.headPred = some e.from_ ∧ ∃ l ∈ r.body, l.uses = some (e.to_, e.negative) := by
  simp only [buildDependencyGraph, List.mem_flatMap]
  refine exists_congr fun r => and_congr_right fun _ => ?_
  cases head : r.headPred with
  | none => simp
  | some h =>
    simp only [List.mem_filterMap, dependency_eq, Option.map_eq_some_iff, Option.some.injEq]
    constructor
    · rintro ⟨l, hl, u, uses, rfl⟩
      exact ⟨rfl, l, hl, uses⟩
    · rintro ⟨rfl, l, hl, uses⟩
      exact ⟨l, hl, _, uses, rfl⟩

theorem mem_collectPredicates_of_head (hr : r ∈ rules) (head : r.headPred = some h) :
    h ∈ collectPredicates rules := by
  rw [collectPredicates, List.mem_dedup, List.mem_flatMap]
  exact ⟨r, hr, List.mem_append_left _ (by simp [head])⟩

/-- Everything that `stratify` computes from. -/
abbrev graphOf (rules : List Rule) : List Edge := buildDependencyGraph rules

abbrev sccsOf (rules : List Rule) : List (List TermId) :=
  computeSccs (collectPredicates rules) (graphOf rules)

/-- The components of a rule list: every head and every predicate of an edge is in one. -/
theorem components_sccsOf (rules : List Rule) :
    ∃ V : Set TermId,
      Kosaraju.Components (adj (graphOf rules)) (radj (graphOf rules)) V (sccsOf rules) ∧
        (∀ e ∈ graphOf rules, e.from_ ∈ V ∧ e.to_ ∈ V) ∧ ∀ p ∈ collectPredicates rules, p ∈ V := by
  have sources : ∀ e ∈ graphOf rules, e.from_ ∈ collectPredicates rules := by
    intro e he
    obtain ⟨r, hr, head, -⟩ := mem_graph_iff.mp he
    exact mem_collectPredicates_of_head hr head
  obtain ⟨V, components, nodes, targets⟩ := components_computeSccs sources
  exact ⟨V, components, fun e he => ⟨nodes _ (sources e he), targets e he⟩, nodes⟩

theorem any_aggregate_iff {body : List BodyLiteral} : (body.any fun
    | .aggregate _ => true
    | _ => false) = true ↔ ∃ a, .aggregate a ∈ body := by
  rw [List.any_eq_true]
  constructor
  · rintro ⟨l, hl, isAggregate⟩
    cases l with
    | aggregate a => exact ⟨a, hl⟩
    | _ => cases isAggregate
  · rintro ⟨a, ha⟩
    exact ⟨_, ha, rfl⟩

theorem checkAggregates_eq_ok_iff : checkAggregates r = .ok () ↔ ¬ r.AggregatesRecursively := by
  rw [checkAggregates, Rule.AggregatesRecursively]
  cases head : r.headPred with
  | none => simp
  | some h =>
    simp only [Option.some.injEq, exists_eq_left', not_or, Bool.and_eq_true]
    split
    · rename_i shape
      refine iff_of_false (by simp) ?_
      rintro ⟨no, -⟩
      exact no ⟨shape.1, any_aggregate_iff.mp shape.2⟩
    · rename_i shape
      rw [and_iff_right fun both => shape ⟨both.1, any_aggregate_iff.mpr both.2⟩]
      constructor
      · rintro checked ⟨a, ha, target⟩
        have ok := Fold.of_forM checked ha
        simp only [target, if_true] at ok
        cases ok
      · intro none
        refine Fold.forM_eq_ok fun l hl => ?_
        cases l with
        | aggregate a =>
          have other : ¬ a.atom.pred? = some h := fun target => none ⟨a, hl, target⟩
          simp only [if_neg other]
        | _ => rfl

/-- The stratum of a predicate. -/
def stratumOf (rules : List Rule) (p : TermId) : Option Nat :=
  (predScc (sccsOf rules) p).map
    (Kahn.topoOrder (sccsOf rules).length (sccAdj (sccsOf rules) (graphOf rules))).idxOf

/-- The stratum of a rule; rules without a constant head are in the first. -/
def ruleStratum (rules : List Rule) (r : Rule) : Nat :=
  (r.headPred.bind (stratumOf rules)).getD 0

/-- The strata of an accepted list. -/
def strataOf (rules : List Rule) : List Stratum :=
  let maxStratum := ((sccsOf rules).flatten.filterMap (stratumOf rules)).foldl max 0
  let isRecursive (p : TermId) : Bool :=
    (graphOf rules).any (fun e => e.from_ = p && e.to_ = p && !e.negative) ||
      (predScc (sccsOf rules) p).any fun i => 1 < ((sccsOf rules).getD i []).length
  ((strataRules rules (stratumOf rules) maxStratum).filter fun rs => !rs.isEmpty).map fun rs =>
    ⟨rs, (derivedPredIds rs).any isRecursive, derivedPredIds rs⟩

theorem stratify_nil : stratify [] = .ok [] := rfl

theorem stratify_eq (fine : ∀ r ∈ rules, ¬ r.AggregatesRecursively) (nonempty : rules ≠ []) :
    stratify rules =
      (checkSccs (sccsOf rules) (graphOf rules)).bind fun _ => .ok (strataOf rules) := by
  obtain ⟨V, components, ends, -⟩ := components_sccsOf rules
  have checked : rules.forM checkAggregates = .ok () :=
    Fold.forM_eq_ok fun r hr => checkAggregates_eq_ok_iff.mpr (fine r hr)
  have some : ¬ rules.isEmpty = true := by
    rw [List.isEmpty_iff]
    exact nonempty
  simp only [stratify, if_neg some, checked, topoSortSccs_eq components ends]
  cases checkSccs (sccsOf rules) (graphOf rules) <;> rfl

/-- Accepted lists: what is returned, and that no negative edge lies within a component. -/
theorem eq_strataOf {strata : List Stratum} (accepted : stratify rules = .ok strata)
    (nonempty : rules ≠ []) :
    strata = strataOf rules ∧ checkSccs (sccsOf rules) (graphOf rules) = .ok () := by
  have fine : ∀ r ∈ rules, ¬ r.AggregatesRecursively := by
    rw [stratify] at accepted
    split at accepted
    · rename_i empty
      exact absurd (List.isEmpty_iff.mp empty) nonempty
    · obtain ⟨_, checked, -⟩ := Fold.bind_eq_ok.mp accepted
      exact fun r hr => checkAggregates_eq_ok_iff.mp (Fold.of_forM checked hr)
  rw [stratify_eq fine nonempty] at accepted
  obtain ⟨_, checked, result⟩ := Fold.bind_eq_ok.mp accepted
  exact ⟨(Except.ok.inj result).symm, checked⟩

/-- Constraint rules are in the first stratum already. -/
theorem strataRules_eq (predStratum : TermId → Option Nat) (maxStratum : Nat) :
    strataRules rules predStratum maxStratum = (List.range (maxStratum + 1)).map fun i =>
      rules.filter fun r => (r.headPred.bind predStratum).getD 0 = i := by
  -- the second loop finds every constraint rule in the list
  have kept (acc : List Rule) (present : ∀ r ∈ rules, r.head = none → r ∈ acc)
      (todo : List Rule) (subset : ∀ r ∈ todo, r ∈ rules) : todo.foldl (fun acc r =>
        if r.head.isNone && acc.all (fun r' => r'.ruleText ≠ r.ruleText) then acc ++ [r] else acc)
      acc = acc := by
    induction todo with
    | nil => rfl
    | cons r rest ih =>
      have known : ¬ (r.head.isNone && acc.all (fun r' => r'.ruleText ≠ r.ruleText)) = true := by
        rw [Bool.and_eq_true, Option.isNone_iff_eq_none]
        rintro ⟨constraint, new⟩
        have old := present r (subset r List.mem_cons_self) constraint
        simpa using List.all_eq_true.mp new r old
      rw [List.foldl_cons, if_neg known]
      exact ih fun r hr => subset r (List.mem_cons_of_mem _ hr)
  have first : ∀ r ∈ rules, r.head = none →
      r ∈ rules.filter fun r => (r.headPred.bind predStratum).getD 0 = 0 := by
    intro r hr constraint
    simp [hr, Rule.headPred, constraint]
  rw [strataRules, List.range_succ_eq_map]
  simp only [List.map_cons, List.modify_zero_cons]
  rw [kept _ first rules fun _ hr => hr]

theorem perm_filters (f : Rule → Nat) (n : Nat) (rules : List Rule) :
    ((List.range (n + 1)).flatMap fun i => rules.filter fun r => f r = i).Perm
      (rules.filter fun r => f r ≤ n) := by
  induction n with
  | zero => simp
  | succ n ih =>
    rw [List.range_succ, List.flatMap_append, List.flatMap_singleton]
    have split := List.filter_append_perm (fun r => decide (f r ≤ n))
      (rules.filter fun r => decide (f r ≤ n + 1))
    rw [List.filter_filter, List.filter_filter] at split
    refine (ih.append_right _).trans ?_
    refine List.Perm.trans (List.Perm.of_eq ?_) split
    congr 1
    · refine List.filter_congr fun r _ => ?_
      rw [Bool.eq_iff_iff]
      simp only [Bool.and_eq_true, decide_eq_true_eq]
      omega
    · refine List.filter_congr fun r _ => ?_
      rw [Bool.eq_iff_iff]
      simp only [Bool.and_eq_true, Bool.not_eq_true', decide_eq_true_eq, decide_eq_false_iff_not]
      omega

theorem le_foldl_max {l : List Nat} {n : Nat} (hn : n ∈ l) (m : Nat) : n ≤ l.foldl max m := by
  induction l generalizing m with
  | nil => cases hn
  | cons x l ih =>
    have start (m : Nat) : m ≤ l.foldl max m := by
      clear ih hn
      induction l generalizing m with
      | nil => exact le_rfl
      | cons y l ih => exact (le_max_left m y).trans (ih (max m y))
    obtain rfl | later := List.mem_cons.mp hn
    · exact (le_max_right m n).trans (start _)
    · exact ih later (max m x)

/-- Every rule has a stratum of its own number. -/
theorem ruleStratum_le (hr : r ∈ rules) :
    ruleStratum rules r ≤ ((sccsOf rules).flatten.filterMap (stratumOf rules)).foldl max 0 := by
  rw [ruleStratum]
  cases head : r.headPred with
  | none => exact Nat.zero_le _
  | some h =>
    obtain ⟨V, components, -, nodes⟩ := components_sccsOf rules
    have inside : h ∈ V := nodes h (mem_collectPredicates_of_head hr head)
    obtain ⟨c, hc, mem⟩ := (components.visited h).mp inside
    cases stratum : stratumOf rules h with
    | none => simp [stratum]
    | some k =>
      simp only [Option.bind_some, stratum, Option.getD_some]
      exact le_foldl_max (List.mem_filterMap.mpr ⟨h, List.mem_flatten.mpr ⟨c, hc, mem⟩, stratum⟩) 0

theorem map_rules_strataOf (rules : List Rule) : ∃ n, (∀ r ∈ rules, ruleStratum rules r ≤ n) ∧
    (strataOf rules).map Stratum.rules = ((List.range (n + 1)).map fun i =>
      rules.filter fun r => ruleStratum rules r = i).filter fun rs => !rs.isEmpty := by
  refine ⟨_, fun r hr => ruleStratum_le hr, ?_⟩
  simp only [strataOf, List.map_map, strataRules_eq]
  exact List.map_id _

theorem flatten_filter_nonempty {α : Type} (ls : List (List α)) :
    (ls.filter fun l => !l.isEmpty).flatten = ls.flatten := by
  induction ls with
  | nil => rfl
  | cons l ls ih =>
    cases l with
    | nil => simpa using ih
    | cons x l => simp [ih]

theorem perm_strataOf (rules : List Rule) :
    ((strataOf rules).flatMap Stratum.rules).Perm rules := by
  obtain ⟨n, bound, lists⟩ := map_rules_strataOf rules
  rw [List.flatMap_def, lists, flatten_filter_nonempty, ← List.flatMap_def]
  refine (perm_filters (ruleStratum rules) n rules).trans (List.Perm.of_eq ?_)
  exact List.filter_eq_self.mpr fun r hr => by simpa using bound r hr

theorem one_lt_length_iff {c : List TermId} (nodup : c.Nodup) (mem : h ∈ c) :
    1 < c.length ↔ ∃ q, q ≠ h ∧ q ∈ c := by
  constructor
  · intro several
    by_contra only
    have all : ∀ q ∈ c, q = h := by
      intro q hq
      by_contra other
      exact only ⟨q, other, hq⟩
    rw [List.eq_replicate_of_mem all, List.nodup_replicate] at nodup
    omega
  · rintro ⟨q, other, hq⟩
    by_contra single
    have one : c.length = 1 := by
      have := List.length_pos_of_mem mem
      omega
    obtain ⟨x, rfl⟩ := List.length_eq_one_iff.mp one
    rw [List.mem_singleton] at mem hq
    exact other (hq.trans mem.symm)

/-- A head is on a cycle just if its component has several members or a loop. -/
theorem isRecursive_iff (accepted : checkSccs (sccsOf rules) (graphOf rules) = .ok ())
    (hh : h ∈ collectPredicates rules) :
    ((graphOf rules).any (fun e => e.from_ = h && e.to_ = h && !e.negative) ||
      (predScc (sccsOf rules) h).any fun i => 1 < ((sccsOf rules).getD i []).length) = true ↔
        OnCycle (graphOf rules) h := by
  obtain ⟨V, components, ends, nodes⟩ := components_sccsOf rules
  have apart := (checkSccs_isOk_iff components ends).mp accepted
  obtain ⟨i, c, found, -, at_i, mem⟩ := exists_predScc components (nodes h hh)
  have hc : c ∈ sccsOf rules := List.mem_of_getElem? at_i
  have strong := components.strong c hc h mem
  have loop : ((graphOf rules).any fun e => e.from_ = h && e.to_ = h && !e.negative) = true ↔
      Depends (graphOf rules) h h := by
    simp only [List.any_eq_true, Bool.and_eq_true, decide_eq_true_eq, Bool.not_eq_true']
    constructor
    · rintro ⟨e, he, ⟨from_, to_⟩, -⟩
      exact ⟨e, he, from_, to_⟩
    · rintro ⟨e, he, from_, to_⟩
      refine ⟨e, he, ⟨from_, to_⟩, ?_⟩
      by_contra negative
      refine apart e he (by simpa using negative) ?_
      rw [from_, to_]
      exact .refl h
  have several : ((predScc (sccsOf rules) h).any fun i => 1 < ((sccsOf rules).getD i []).length) =
      true ↔ ∃ q, q ≠ h ∧ Strong (adj (graphOf rules)) h q := by
    simp only [found, Option.any_some, List.getD_eq_getElem?_getD, at_i, Option.getD_some,
      decide_eq_true_eq, ← strong]
    exact one_lt_length_iff (components.nodup c hc) mem
  rw [Bool.or_eq_true, loop, several, onCycle_iff]

/-- `stratify` refuses a list just if a cycle goes through a negative edge. -/
theorem stratify_error_iff (fine : ∀ r ∈ rules, ¬ r.AggregatesRecursively) :
    (∃ message, stratify rules = .error message) ↔ NegativeCycle (graphOf rules) := by
  obtain ⟨V, components, ends, -⟩ := components_sccsOf rules
  have accepted := checkSccs_isOk_iff components ends
  by_cases empty : rules = []
  · subst empty
    refine iff_of_false ?_ ?_
    · rintro ⟨message, refused⟩
      rw [stratify_nil] at refused
      cases refused
    · rintro ⟨e, he, -⟩
      cases he
  · rw [negativeCycle_iff, stratify_eq fine empty]
    cases checked : checkSccs (sccsOf rules) (graphOf rules) with
    | ok _ =>
      refine iff_of_false nofun ?_
      rintro ⟨e, he, negative, strong⟩
      exact accepted.mp checked e he negative strong
    | error message =>
      refine iff_of_true ⟨message, rfl⟩ ?_
      by_contra none
      rw [accepted.mpr fun e he negative strong => none ⟨e, he, negative, strong⟩] at checked
      cases checked

/-- Refusal, the distribution of the rules, and the marks of recursion. -/
theorem stratify_spec (rules : List Rule) (fine : ∀ r ∈ rules, ¬ r.AggregatesRecursively) :
    ((∃ message, stratify rules = .error message) ↔ NegativeCycle (buildDependencyGraph rules)) ∧
      ∀ strata, stratify rules = .ok strata → (strata.flatMap Stratum.rules).Perm rules ∧
        ∀ s ∈ strata, (s.isRecursive = true ↔ ∃ r ∈ s.rules, ∃ h, r.headPred = some h ∧
          OnCycle (buildDependencyGraph rules) h) := by
  refine ⟨stratify_error_iff fine, fun strata accepted => ?_⟩
  by_cases empty : rules = []
  · subst empty
    rw [stratify_nil] at accepted
    cases accepted
    refine ⟨.nil, ?_⟩
    intro s hs
    cases hs
  · obtain ⟨returned, checked⟩ := eq_strataOf accepted empty
    rw [returned]
    refine ⟨perm_strataOf rules, fun s hs => ?_⟩
    have subset : ∀ r ∈ s.rules, r ∈ rules := fun r hr =>
      (perm_strataOf rules).mem_iff.mp (List.mem_flatMap.mpr ⟨s, hs, hr⟩)
    obtain ⟨rs, -, rfl⟩ := List.mem_map.mp hs
    simp only [List.any_eq_true, mem_derivedPredIds]
    constructor
    · rintro ⟨h, ⟨r, hr, head⟩, marked⟩
      have node := mem_collectPredicates_of_head (subset r hr) head
      exact ⟨r, hr, h, head, (isRecursive_iff checked node).mp marked⟩
    · rintro ⟨r, hr, h, head, cycle⟩
      have node := mem_collectPredicates_of_head (subset r hr) head
      exact ⟨h, ⟨r, hr, head⟩, (isRecursive_iff checked node).mpr cycle⟩

/-- Strata in evaluation order: what a rule reads is there, and is complete if it is read
under negation or in an aggregate. -/
def ValidOrder (strata : List Stratum) : Prop :=
  ∀ (k : Nat) (s : Stratum), strata[k]? = some s → ∀ r ∈ s.rules, ∀ l ∈ r.body, ∀ q negative,
    l.uses = some (q, negative) → ∀ (k' : Nat) (s' : Stratum), strata[k']? = some s' →
      ∀ r' ∈ s'.rules, r'.headPred = some q → k' ≤ k ∧ (negative = true → k' < k)

/-- The rules of one stratum have its number, and the numbers grow. -/
theorem pairwise_strataOf (rules : List Rule) :
    (∀ s ∈ strataOf rules, ∀ r ∈ s.rules, ∀ r' ∈ s.rules,
      ruleStratum rules r = ruleStratum rules r') ∧
    (strataOf rules).Pairwise fun s s' => ∀ r ∈ s.rules, ∀ r' ∈ s'.rules,
      ruleStratum rules r < ruleStratum rules r' := by
  obtain ⟨n, -, lists⟩ := map_rules_strataOf rules
  constructor
  · intro s hs r hr r' hr'
    have listed : s.rules ∈ (strataOf rules).map Stratum.rules := List.mem_map_of_mem hs
    rw [lists] at listed
    obtain ⟨i, -, same⟩ := List.mem_map.mp (List.mem_filter.mp listed).1
    rw [← same] at hr hr'
    have := (List.mem_filter.mp hr).2
    have := (List.mem_filter.mp hr').2
    simp_all
  · rw [← List.pairwise_map (f := Stratum.rules)
      (R := fun rs rs' => ∀ r ∈ rs, ∀ r' ∈ rs', ruleStratum rules r < ruleStratum rules r'), lists]
    refine List.Pairwise.filter _ (List.pairwise_map.mpr ?_)
    refine List.pairwise_lt_range.imp ?_
    intro i j lt r hr r' hr'
    have := (List.mem_filter.mp hr).2
    have := (List.mem_filter.mp hr').2
    simp_all

theorem validOrder_strataOf_iff (rules : List Rule) :
    ValidOrder (strataOf rules) ↔ ∀ r ∈ rules, ∀ l ∈ r.body, ∀ q negative,
      l.uses = some (q, negative) → ∀ r' ∈ rules, r'.headPred = some q →
        ruleStratum rules r' ≤ ruleStratum rules r ∧
          (negative = true → ruleStratum rules r' < ruleStratum rules r) := by
  obtain ⟨same, grows⟩ := pairwise_strataOf rules
  have before {k k' : Nat} {s s' : Stratum} (hk : (strataOf rules)[k]? = some s)
      (hk' : (strataOf rules)[k']? = some s') (lt : k < k') {r r' : Rule} (hr : r ∈ s.rules)
      (hr' : r' ∈ s'.rules) : ruleStratum rules r < ruleStratum rules r' := by
    obtain ⟨lt_k, rfl⟩ := List.getElem?_eq_some_iff.mp hk
    obtain ⟨lt_k', rfl⟩ := List.getElem?_eq_some_iff.mp hk'
    exact List.pairwise_iff_getElem.mp grows k k' lt_k lt_k' lt r hr r' hr'
  have equal {k : Nat} {s s' : Stratum} (hk : (strataOf rules)[k]? = some s)
      (hk' : (strataOf rules)[k]? = some s') {r r' : Rule} (hr : r ∈ s.rules)
      (hr' : r' ∈ s'.rules) : ruleStratum rules r = ruleStratum rules r' := by
    cases hk.symm.trans hk'
    exact same s (List.mem_of_getElem? hk) r hr r' hr'
  have listed {r : Rule} : r ∈ rules ↔ ∃ (k : Nat) (s : Stratum), (strataOf rules)[k]? = some s ∧
      r ∈ s.rules := by
    rw [← (perm_strataOf rules).mem_iff, List.mem_flatMap]
    constructor
    · rintro ⟨s, hs, hr⟩
      obtain ⟨k, hk⟩ := List.mem_iff_getElem?.mp hs
      exact ⟨k, s, hk, hr⟩
    · rintro ⟨k, s, hk, hr⟩
      exact ⟨s, List.mem_of_getElem? hk, hr⟩
  constructor
  · intro valid r hr l hl q negative uses r' hr' head
    obtain ⟨k, s, hk, mem⟩ := listed.mp hr
    obtain ⟨k', s', hk', mem'⟩ := listed.mp hr'
    obtain ⟨le, lt⟩ := valid k s hk r mem l hl q negative uses k' s' hk' r' mem' head
    refine ⟨?_, fun isNegative => before hk' hk (lt isNegative) mem' mem⟩
    obtain earlier | rfl := le.lt_or_eq
    · exact (before hk' hk earlier mem' mem).le
    · exact (equal hk' hk mem' mem).le
  · intro sorted k s hk r hr l hl q negative uses k' s' hk' r' hr' head
    obtain ⟨le, lt⟩ := sorted r (listed.mpr ⟨k, s, hk, hr⟩) l hl q negative uses r'
      (listed.mpr ⟨k', s', hk', hr'⟩) head
    have notLater : k' ≤ k := by
      by_contra later
      have := before hk hk' (by omega) hr hr'
      omega
    refine ⟨notLater, fun isNegative => ?_⟩
    have := lt isNegative
    refine lt_of_le_of_ne notLater ?_
    rintro rfl
    have := equal hk hk' hr hr'
    omega

/-- The place of a predicate's component. -/
def place (rules : List Rule) (p : TermId) : Nat :=
  (Kahn.topoOrder (sccsOf rules).length (sccAdj (sccsOf rules) (graphOf rules))).idxOf
    (sccOf (sccsOf rules) p)

theorem ruleStratum_of_head (hr : r ∈ rules) (head : r.headPred = some h) :
    ruleStratum rules r = place rules h := by
  obtain ⟨V, components, -, nodes⟩ := components_sccsOf rules
  obtain ⟨i, c, found, number, -, -⟩ :=
    exists_predScc components (nodes h (mem_collectPredicates_of_head hr head))
  simp only [ruleStratum, head, Option.bind_some, stratumOf, found, Option.map_some,
    Option.getD_some, place, number]

/-- A dependency on another component leads to a later stratum. -/
theorem place_of_edge {e : Edge} (he : e ∈ graphOf rules) :
    (Strong (adj (graphOf rules)) e.from_ e.to_ → place rules e.to_ = place rules e.from_) ∧
      (¬ Strong (adj (graphOf rules)) e.from_ e.to_ → place rules e.from_ < place rules e.to_) := by
  obtain ⟨V, components, ends, -⟩ := components_sccsOf rules
  have same := sccOf_eq_iff components (ends e he).1 (ends e he).2
  constructor
  · intro strong
    rw [place, place, same.mpr strong]
  · intro apart
    have ne : sccOf (sccsOf rules) e.to_ ≠ sccOf (sccsOf rules) e.from_ :=
      fun eq => apart (same.mp eq.symm)
    have nonempty := pos_of_sccOf_ne ne
    refine Kahn.idxOf_lt_idxOf (fun u => List.nodup_dedup _) ?_
      (length_topoOrder_sccAdj components ends) (sccOf_lt _ nonempty)
      (mem_sccAdj.mpr ⟨e, he, rfl, ne, rfl⟩)
    intro u v hv
    obtain ⟨e', -, -, -, rfl⟩ := mem_sccAdj.mp hv
    exact sccOf_lt _ nonempty

/-- The first stratum belongs to the component of the last root. -/
theorem place_eq_zero_iff {m : TermId}
    (last : LastRoot (collectPredicates rules) (graphOf rules) m)
    (hq : q ∈ collectPredicates rules) :
    place rules q = 0 ↔ Strong (adj (graphOf rules)) m q := by
  obtain ⟨V, components, ends, nodes⟩ := components_sccsOf rules
  have sources : ∀ e ∈ graphOf rules, e.from_ ∈ collectPredicates rules := by
    intro e he
    obtain ⟨r, hr, head, -⟩ := mem_graph_iff.mp he
    exact mem_collectPredicates_of_head hr head
  obtain ⟨c, rest, sccs, mem⟩ := last.exists_computeSccs_eq (List.nodup_dedup _) sources
  have first : sccOf (sccsOf rules) m = 0 := by
    have found : predScc (sccsOf rules) m = some 0 :=
      (predScc_eq_some_iff components.disjoint).mpr ⟨c, by simp [sccsOf, sccs], mem⟩
    rw [sccOf, found, Option.getD_some]
  have pos : 0 < (sccsOf rules).length := by simp [sccsOf, sccs]
  obtain ⟨later, order⟩ := Kahn.exists_topoOrder_eq pos fun u zero =>
    Nat.not_lt_zero u (lt_of_mem_sccAdj components ends (fun _ he => he) zero)
  rw [place, order, List.idxOf_cons,
    ← sccOf_eq_iff components (nodes m last.mem) (nodes q hq), first]
  cases sccOf (sccsOf rules) q <;> simp

/-- Every head predicate that a rule reads is in the rule's own stratum: it depends on the
rule's head as well or, if there is none, the literal is positive and the predicate is of the
component of the last root. -/
def NeedsNoOrder (rules : List Rule) : Prop :=
  ∀ r ∈ rules, ∀ l ∈ r.body, ∀ q negative, l.uses = some (q, negative) →
    q ∈ derivedPredIds rules →
      (∀ h, r.headPred = some h → ReflTransGen (Depends (buildDependencyGraph rules)) q h) ∧
        (r.headPred = none → negative = false ∧
          ∃ m, LastRoot (collectPredicates rules) (buildDependencyGraph rules) m ∧
            Strong (adj (buildDependencyGraph rules)) m q)

/-- The strata are in evaluation order just if no order is needed. -/
theorem validOrder_iff {strata : List Stratum} (accepted : stratify rules = .ok strata) :
    ValidOrder strata ↔ NeedsNoOrder rules := by
  by_cases empty : rules = []
  · subst empty
    rw [stratify_nil] at accepted
    cases accepted
    refine iff_of_true ?_ ?_
    · intro k s hk
      cases hk
    · intro r hr
      cases hr
  obtain ⟨returned, checked⟩ := eq_strataOf accepted empty
  rw [returned]
  obtain ⟨V, components, ends, -⟩ := components_sccsOf rules
  have apart := (checkSccs_isOk_iff components ends).mp checked
  rw [validOrder_strataOf_iff]
  refine forall₂_congr fun r hr => forall₂_congr fun l hl => forall₂_congr fun q negative =>
    forall_congr' fun uses => ?_
  have targets : (∀ r' ∈ rules, r'.headPred = some q →
      ruleStratum rules r' ≤ ruleStratum rules r ∧
        (negative = true → ruleStratum rules r' < ruleStratum rules r)) ↔
      (q ∈ derivedPredIds rules → place rules q ≤ ruleStratum rules r ∧
        (negative = true → place rules q < ruleStratum rules r)) := by
    rw [mem_derivedPredIds]
    constructor
    · rintro all ⟨r', hr', head⟩
      rw [← ruleStratum_of_head hr' head]
      exact all r' hr' head
    · intro all r' hr' head
      rw [ruleStratum_of_head hr' head]
      exact all ⟨r', hr', head⟩
  rw [targets]
  refine forall_congr' fun derived => ?_
  cases head : r.headPred with
  | some h =>
    have edge : (⟨h, q, negative⟩ : Edge) ∈ graphOf rules :=
      mem_graph_iff.mpr ⟨r, hr, head, l, hl, uses⟩
    obtain ⟨same, later⟩ := place_of_edge edge
    have strong : Strong (adj (graphOf rules)) h q ↔
        ReflTransGen (Depends (graphOf rules)) q h := by
      rw [Strong, path_iff, path_iff]
      exact and_iff_right (.single ⟨_, edge, rfl, rfl⟩)
    simp only [ruleStratum_of_head hr head, Option.some.injEq, forall_eq', reduceCtorEq,
      false_imp_iff, and_true, ← strong]
    constructor
    · rintro ⟨le, -⟩
      by_contra apart'
      have : place rules h < place rules q := later apart'
      omega
    · intro together
      have : place rules q = place rules h := same together
      exact ⟨this.le, fun isNegative => absurd together (apart _ edge isNegative)⟩
  | none =>
    have zero : ruleStratum rules r = 0 := by simp [ruleStratum, head]
    obtain ⟨r', hr', head'⟩ := mem_derivedPredIds.mp derived
    have node := mem_collectPredicates_of_head hr' head'
    obtain ⟨m, last⟩ := exists_lastRoot (graphOf rules) node
    simp only [zero, Nat.le_zero, Nat.not_lt_zero, imp_false, Bool.not_eq_true, reduceCtorEq,
      false_imp_iff, implies_true, true_and, true_imp_iff]
    constructor
    · rintro ⟨first, positive⟩
      exact ⟨positive, m, last, (place_eq_zero_iff last node).mp first⟩
    · rintro ⟨positive, m', last', strong⟩
      exact ⟨(place_eq_zero_iff last' node).mpr strong, positive⟩

end Rules

/-- `?x <head> ?y :- ?x <body> ?y .` -/
def linkRule (head body : TermId) : Rule :=
  ⟨some ⟨.var "x", .const head, .var "y", .defaultGraph⟩,
    [.positive ⟨.var "x", .const body, .var "y", .defaultGraph⟩], "copy"⟩

/-- `?x <2> ?z :- ?x <1> ?y, ?y <2> ?z .` -/
def stepRule : Rule :=
  ⟨some ⟨.var "x", .const 2, .var "z", .defaultGraph⟩,
    [.positive ⟨.var "x", .const 1, .var "y", .defaultGraph⟩,
      .positive ⟨.var "y", .const 2, .var "z", .defaultGraph⟩], "step"⟩

/-- The transitive closure: one stratum, which is recursive. -/
def closureRules : List Rule := [linkRule 2 1, stepRule]

theorem exists_strata_closure : ∃ s, stratify closureRules = .ok [s] := ⟨_, rfl⟩

/-- The closure is accepted, so no negative edge is on a cycle. -/
theorem stratify_spec_closure : ¬ NegativeCycle (buildDependencyGraph closureRules) := by
  have fine : ∀ r ∈ closureRules, ¬ r.AggregatesRecursively := by
    have checked : ∀ r ∈ closureRules, checkAggregates r = .ok () := by
      simp only [closureRules, List.forall_mem_cons, List.not_mem_nil, false_imp_iff, implies_true,
        and_true]
      exact ⟨rfl, rfl⟩
    exact fun r hr => checkAggregates_eq_ok_iff.mp (checked r hr)
  intro cycle
  obtain ⟨message, refused⟩ := (stratify_spec closureRules fine).1.mpr cycle
  obtain ⟨s, accepted⟩ := exists_strata_closure
  cases refused.symm.trans accepted

/-- The one stratum of the closure is in order. -/
theorem validOrder_closure : ∃ strata, stratify closureRules = .ok strata ∧ ValidOrder strata := by
  obtain ⟨s, accepted⟩ := exists_strata_closure
  refine ⟨_, accepted, (validOrder_iff accepted).mpr ?_⟩
  intro r hr l hl q negative uses derived
  have only : q = 2 := by
    have : q ∈ [(2 : TermId)] := derived
    simpa using this
  subst only
  have heads : r.headPred = some 2 := by
    simp only [closureRules, List.mem_cons, List.not_mem_nil, or_false] at hr
    obtain rfl | rfl := hr <;> rfl
  rw [heads]
  refine ⟨fun h same => ?_, nofun⟩
  cases same
  exact .refl

/-- A rule that reads the result of another one is put before it. -/
theorem not_validOrder_chain :
    ¬ ∀ (rules : List Rule) (strata : List Stratum), stratify rules = .ok strata →
      ValidOrder strata := by
  intro all
  obtain ⟨s, s', accepted, first, second⟩ : ∃ s s',
      stratify [linkRule 2 1, linkRule 3 2] = .ok [s, s'] ∧ s.rules = [linkRule 3 2] ∧
        s'.rules = [linkRule 2 1] := ⟨_, _, rfl, rfl, rfl⟩
  have late := (all _ _ accepted 0 s rfl (linkRule 3 2) (by simp [first]) _ List.mem_cons_self 2
    false rfl 1 s' rfl (linkRule 2 1) (by simp [second]) rfl).1
  omega

end PgRipple.Datalog
