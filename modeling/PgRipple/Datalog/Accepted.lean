import PgRipple.Datalog.Completeness
import PgRipple.Datalog.Soundness

/-!
# Statements that PostgreSQL accepts

A compiled join is accepted if it has a `FROM` item, an `ON` clause for every further one, and a
graph column. Every atom with a constant or a variable gives an `ON` clause, because its own
variables are bound before the clause is built. The columns of a finished join are never `NULL`.
-/

namespace PgRipple.Datalog

open Storage

/-- The statement is well formed. -/
def Stmt.accepted : Stmt → Bool
  | .select q => q.wellFormed
  | .recursive _ => true

/-- A joined row of the statement never has a `NULL` in a selected column. -/
def Stmt.Total (db : Database) : Stmt → Prop
  | .select q => q.g.isSome = true → ∀ delta, ∀ env ∈ q.envs db delta, (q.select env).isSome
  | .recursive _ => True

section Accepted

variable {ctx : Context}

/-- For statements without `NULL`s, execution fails on malformed ones only. -/
theorem isSome_exec_iff (delta : List Quad) {stmt : Stmt} (total : stmt.Total ctx.toDatabase) :
    (stmt.exec ctx.toDatabase delta).isSome = true ↔ stmt.accepted = true := by
  cases stmt with
  | recursive q => simp [Stmt.exec, Stmt.accepted]
  | select q =>
    simp only [Stmt.exec, Query.exec, Stmt.accepted]
    by_cases formed : q.wellFormed = true
    · have graph : q.g.isSome = true := by
        simp only [Query.wellFormed, Bool.and_eq_true] at formed
        exact formed.2
      have rows : (q.envs ctx.toDatabase delta).all (fun env => (q.select env).isSome) = true := by
        rw [List.all_eq_true]
        exact total graph delta
      simp [formed, rows]
    · simp [formed]

theorem isSome_runStmts_iff (delta : List Quad) {stmts : List (TermId × Stmt)}
    (total : ∀ s ∈ stmts, s.2.Total ctx.toDatabase) :
    (runStmts ctx delta stmts).isSome = true ↔ ∀ s ∈ stmts, s.2.accepted = true := by
  induction stmts with
  | nil => simp [runStmts]
  | cons s stmts ih =>
    have rest := ih fun s' hs' => total s' (List.mem_cons_of_mem s hs')
    have first := isSome_exec_iff delta (total s List.mem_cons_self)
    rw [List.forall_mem_cons, ← first, ← rest]
    obtain ⟨p, stmt⟩ := s
    simp only [runStmts]
    cases stmt.exec ctx.toDatabase delta with
    | none => simp
    | some rows =>
      cases runStmts ctx delta stmts with
      | none => simp
      | some more => simp

/-- The loop ends normally exactly if all its statements are accepted. -/
theorem isSome_evaluate_iff {seeds variants : List (TermId × Stmt)} {rounds : Nat}
    (seedsTotal : ∀ s ∈ seeds, s.2.Total ctx.toDatabase)
    (variantsTotal : ∀ s ∈ variants, s.2.Total ctx.toDatabase) (some_ : 0 < rounds) :
    (evaluate ctx seeds variants rounds).isSome = true ↔
      (∀ s ∈ seeds, s.2.accepted = true) ∧ ∀ s ∈ variants, s.2.accepted = true := by
  have loop (rounds count : Nat) (found : List Quad)
      (ok : ∀ s ∈ variants, s.2.accepted = true) :
      (Engine.saturate (fun delta => (runStmts ctx delta variants).map List.dedup) rounds count
        found).isSome = true := by
    induction rounds generalizing count found with
    | zero => rfl
    | succ rounds ih =>
      obtain ⟨new, hnew⟩ :=
        Option.isSome_iff_exists.mp ((isSome_runStmts_iff found variantsTotal).mpr ok)
      simp only [Engine.saturate, hnew, Option.map_some, Option.bind_eq_bind, Option.bind_some]
      split
      · rfl
      · exact ih _ _
  rw [evaluate, ← isSome_runStmts_iff [] seedsTotal]
  cases runStmts ctx [] seeds with
  | none => simp
  | some start =>
    simp only [Option.bind_eq_bind, Option.bind_some, Option.isSome_some, true_and]
    constructor
    · intro h
      obtain ⟨n, rfl⟩ : ∃ n, rounds = n + 1 := ⟨rounds - 1, by omega⟩
      rw [← isSome_runStmts_iff start.dedup variantsTotal]
      cases ran : runStmts ctx start.dedup variants with
      | none => simp [Engine.saturate, ran] at h
      | some new => rfl
    · intro ok
      exact loop rounds 1 start.dedup ok

/-- The columns of a finished join are never `NULL`. -/
theorem total_of_finish {items : List (Source × Atom)} {head : Atom} {q : Query}
    {other : Term → Except String Expr}
    (value : ∀ t e, other t = .ok e → ∀ env, (e.eval env).isSome = true)
    (finished : (Plan.empty.addAtoms ctx items).finish head other = .ok q) :
    (Stmt.select q).Total ctx.toDatabase := by
  obtain ⟨s, o, hs, ho, rfl⟩ := finish_eq_ok.mp finished
  intro graph delta env joined
  have length : env.length = (Plan.empty.addAtoms ctx items).nextAlias :=
    (Query.mem_envs.mp joined).1.length_eq
  have column (t : Term) (e : Expr)
      (column : headColumn (Plan.empty.addAtoms ctx items).varMap other t = .ok e) :
      (e.eval env).isSome = true := by
    cases t with
    | const id =>
      cases column
      rfl
    | var v =>
      simp only [headColumn] at column
      split at column
      · rename_i e' he'
        cases column
        obtain ⟨t, c, rfl, lt⟩ := colRef_addAtoms (fun v e h => by cases h) v e he'
        have bound : t < env.length := by omega
        simp [Expr.eval, bound]
      · cases column
    | wildcard => exact value _ e column env
    | defaultGraph => exact value _ e column env
  obtain ⟨x, hx⟩ := Option.isSome_iff_exists.mp (column head.s s hs)
  obtain ⟨y, hy⟩ := Option.isSome_iff_exists.mp (column head.o o ho)
  obtain ⟨g, hg⟩ := Option.isSome_iff_exists.mp graph
  simp only [Query.select] at hg ⊢
  simp [hx, hy, hg]

variable {r : Rule}

/-- The seed plan of positive atoms with constant predicates joins them. -/
theorem seedPlan_eq_addAtoms (positive : ∀ l ∈ r.body, ∃ a, l = .positive a)
    (const : r.ConstPreds) :
    seedPlan ctx r = .ok (Plan.empty.addAtoms ctx ((seedAtoms ctx r).map storedItem)) := by
  refine seedPlan_eq_ok ?_ (foldlM_seedAtom ?_) ?_
  · intro l hl
    exact .inl (positive l hl)
  · intro a ha
    exact const.2 _ (Rule.mem_positiveAtoms.mp (mem_seedAtoms.mp ha))
  · rw [body_of_all_positive positive]
    exact foldlM_seedNegated_positive

theorem variantPlan_eq_addAtoms (positive : ∀ l ∈ r.body, ∃ a, l = .positive a)
    (const : r.ConstPreds) (i : Nat) :
    variantPlan ctx r i = .ok (Plan.empty.addAtoms ctx (variantItems r i)) := by
  have shape : r.body = r.positiveAtoms.map .positive := body_of_all_positive positive
  rw [variantPlan, shape, foldlM_variantLiteral]
  · rfl
  · intro a ha
    exact const.2 _ (Rule.mem_positiveAtoms.mp ha)

/-- The seed of positive atoms with constant predicates. -/
theorem total_seed (positive : ∀ l ∈ r.body, ∃ a, l = .positive a) (const : r.ConstPreds)
    {p : TermId} {stmt : Stmt} (compiled : compileSingleRuleTo ctx r = .ok (p, stmt)) :
    stmt.Total ctx.toDatabase := by
  obtain ⟨head, _, _, ⟨_, q, _, rfl⟩ | ⟨_, q, hq, rfl⟩⟩ := compileSingleRuleTo_eq_ok.mp compiled
  · trivial
  · obtain ⟨plan, hplan, finished⟩ := Fold.bind_eq_ok.mp hq
    rw [seedPlan_eq_addAtoms positive const] at hplan
    cases hplan
    refine total_of_finish ?_ finished
    intro t e he env
    cases t with
    | defaultGraph =>
      cases he
      rfl
    | _ => cases he

theorem total_variant (positive : ∀ l ∈ r.body, ∃ a, l = .positive a) (const : r.ConstPreds)
    {head : Atom} {i : Nat} {q : Query}
    (compiled : compileRuleWithOneDeltaAtom ctx r head i = .ok q) :
    (Stmt.select q).Total ctx.toDatabase := by
  obtain ⟨plan, hplan, finished⟩ := Fold.bind_eq_ok.mp compiled
  rw [variantPlan_eq_addAtoms positive const] at hplan
  cases hplan
  refine total_of_finish ?_ finished
  intro t e he
  cases he

/-- An atom after the first has something to be joined on. -/
def Atom.Anchored (scope : GraphScope) (a : Atom) : Prop :=
  (∃ v, a.Binds v) ∨ (∃ id, a.s = .const id ∨ a.o = .const id ∨ a.g = .const id) ∨ scope = .default

theorem buildJoinCond_ne_nil {ctx : Context} {vm : VarMap} {t : Nat} {a : Atom}
    (anchored : a.Anchored ctx.settings.ruleGraphScope)
    (bound : ∀ v, a.Binds v → (vm.colRef v).isSome) : buildJoinCond ctx vm t a ≠ [] := by
  intro empty
  rw [buildJoinCond, List.append_eq_nil_iff, List.append_eq_nil_iff] at empty
  obtain ⟨⟨hs, ho⟩, hg⟩ := empty
  have position {c : Col} {u : Term} (empty : positionCond vm t c u = []) :
      (∀ v, u = .var v → vm.colRef v = none) ∧ ∀ id, u ≠ .const id := by
    cases u with
    | var v => simpa [positionCond] using empty
    | const id => simp [positionCond] at empty
    | wildcard => simp
    | defaultGraph => simp
  have graph : (∀ v, a.g = .var v → vm.colRef v = none) ∧ ∀ id, a.g ≠ .const id := by
    cases term : a.g with
    | var v =>
      rw [term] at hg
      exact position hg
    | const id =>
      rw [term] at hg
      exact position hg
    | wildcard => simp
    | defaultGraph => simp
  obtain ⟨v, hv⟩ | ⟨id, hid⟩ | scope := anchored
  · obtain ⟨e, he⟩ := Option.isSome_iff_exists.mp (bound v hv)
    obtain hv | hv | hv := hv
    · rw [(position hs).1 v hv] at he
      cases he
    · rw [(position ho).1 v hv] at he
      cases he
    · rw [graph.1 v hv] at he
      cases he
  · obtain hid | hid | hid := hid
    · exact (position hs).2 id hid
    · exact (position ho).2 id hid
    · exact graph.2 id hid
  · cases term : a.g with
    | var v =>
      obtain ⟨e, he⟩ := Option.isSome_iff_exists.mp (bound v (.inr (.inr term)))
      rw [graph.1 v term] at he
      cases he
    | const id => exact graph.2 id term
    | wildcard => simp [term, scopeCond, scope] at hg
    | defaultGraph => simp [term, scopeCond, scope] at hg

/-- Every `FROM` item after the first has an `ON` clause. -/
def Plan.Joined (plan : Plan) : Prop := ∀ item ∈ plan.from_.tail, item.on ≠ []

theorem Plan.Joined.addAtoms {plan : Plan} (joined : plan.Joined) {items : List (Source × Atom)}
    (anchored : ∀ item ∈ items, item.2.Anchored ctx.settings.ruleGraphScope) :
    (plan.addAtoms ctx items).Joined := by
  induction items generalizing plan with
  | nil => exact joined
  | cons item items ih =>
    refine ih ?_ fun item' later => anchored item' (List.mem_cons_of_mem item later)
    intro x hx
    simp only [Plan.addAtom] at hx
    split at hx
    · rename_i first
      rw [List.length_eq_zero_iff.mp first] at hx
      cases hx
    · rename_i later
      rw [List.tail_append_of_ne_nil (fun none => later (congrArg List.length none)),
        List.mem_append, List.mem_singleton] at hx
      obtain before | rfl := hx
      · exact joined x before
      · rw [List.append_nil]
        exact buildJoinCond_ne_nil (anchored item List.mem_cons_self)
          fun v hv => VarMap.colRef_bindAtom hv

/-- The join of anchored atoms for a head in the default graph is accepted. -/
theorem accepted_of_finish {items : List (Source × Atom)} {head : Atom} {q : Query}
    {other : Term → Except String Expr} (nonempty : items ≠ [])
    (anchored : ∀ item ∈ items, item.2.Anchored ctx.settings.ruleGraphScope)
    (graph : head.g = .defaultGraph)
    (finished : (Plan.empty.addAtoms ctx items).finish head other = .ok q) :
    (Stmt.select q).accepted = true := by
  obtain ⟨s, o, -, -, rfl⟩ := finish_eq_ok.mp finished
  have joined : (Plan.empty.addAtoms ctx items).Joined :=
    Plan.Joined.addAtoms (fun _ none => by cases none) anchored
  have tables := @nextAlias_addAtoms ctx .empty items
  have some_ : 0 < items.length := List.length_pos_of_ne_nil nonempty
  simp only [Stmt.accepted, Query.wellFormed, graph, headGExpr, Bool.and_eq_true,
    List.all_eq_true, Bool.not_eq_true', List.isEmpty_eq_false_iff, Option.isSome_some, and_true]
  refine ⟨List.ne_nil_of_length_pos ?_, joined⟩
  change 0 < Plan.nextAlias _
  omega

/-- The seed of anchored atoms for a head in the default graph is accepted. -/
theorem accepted_seed (positive : ∀ l ∈ r.body, ∃ a, l = .positive a) (const : r.ConstPreds)
    (nonempty : r.positiveAtoms ≠ [])
    (anchored : ∀ a ∈ r.positiveAtoms, a.Anchored ctx.settings.ruleGraphScope)
    (graph : ∀ h, r.head = some h → h.g = .defaultGraph) {p : TermId} {stmt : Stmt}
    (compiled : compileSingleRuleTo ctx r = .ok (p, stmt)) : stmt.accepted = true := by
  obtain ⟨head, hh, _, ⟨_, q, _, rfl⟩ | ⟨_, q, hq, rfl⟩⟩ := compileSingleRuleTo_eq_ok.mp compiled
  · rfl
  · obtain ⟨plan, hplan, finished⟩ := Fold.bind_eq_ok.mp hq
    rw [seedPlan_eq_addAtoms positive const] at hplan
    cases hplan
    refine accepted_of_finish ?_ ?_ (graph head hh) finished
    · obtain ⟨a, ha⟩ := List.exists_mem_of_ne_nil _ nonempty
      exact List.ne_nil_of_mem (List.mem_map_of_mem (mem_seedAtoms.mpr ha))
    · intro item hitem
      obtain ⟨a, ha, rfl⟩ := List.mem_map.mp hitem
      exact anchored a (mem_seedAtoms.mp ha)

theorem accepted_variant (positive : ∀ l ∈ r.body, ∃ a, l = .positive a) (const : r.ConstPreds)
    (nonempty : r.positiveAtoms ≠ [])
    (anchored : ∀ a ∈ r.positiveAtoms, a.Anchored ctx.settings.ruleGraphScope) {head : Atom}
    (graph : head.g = .defaultGraph) {i : Nat} {q : Query}
    (compiled : compileRuleWithOneDeltaAtom ctx r head i = .ok q) :
    (Stmt.select q).accepted = true := by
  obtain ⟨plan, hplan, finished⟩ := Fold.bind_eq_ok.mp compiled
  rw [variantPlan_eq_addAtoms positive const] at hplan
  cases hplan
  refine accepted_of_finish ?_ ?_ graph finished
  · obtain ⟨a, ha⟩ := List.exists_mem_of_ne_nil _ nonempty
    obtain ⟨item, hitem, -⟩ := (mem_variantItems i a).mpr ha
    exact List.ne_nil_of_mem hitem
  · exact fun item hitem => anchored _ ((mem_variantItems i item.2).mp ⟨item, hitem, rfl⟩)

end Accepted

end PgRipple.Datalog
