import PgRipple.Lib.Run
import PgRipple.Datalog.Negation

/-!
# Delete and rederive

`run_dred_on_delete` is called after a base triple has been deleted. It looks for
active rules whose text contains the decimal id of the triple's predicate, and
takes a turn for each head predicate of these rules. A turn deletes rows of that
predicate that share a subject or object with the deleted triple, at most
`dred_batch_size` of them, and then runs every active rule of the affected rule sets
through `run_seminaive_inner`, each rule by itself.

Rule texts contain IRIs and not ids, so as a rule nothing is found and nothing is
retracted. If something is found, base triples are over-deleted like derived ones,
unsupported triples that do not share a term with the deleted one stay, and so do
derived triples of dedicated predicates, which lie in `vp_rare`.

`StepsRestore` is the exact condition, step by step, for the result to be the model
of the remaining base triples. `OneLevel` is a condition on rules, base and store under
which the steps do restore it.
-/

namespace PgRipple.Datalog

open Storage Inference

/-- A plain rule without negation that does not derive from its own head predicate. -/
structure Rule.Simple (scope : GraphScope) (r : Rule) : Prop extends r.Plain scope where
  isPositive : ∀ l ∈ r.body, ∃ a, l = .positive a
  nonrecursive : ∀ p, r.headPred = some p → r.isRecursive p = false

/-- Without negation it does not matter where negation is judged. -/
theorem Interpretation.Instance.of_positive {I : Interpretation} {r : Rule} {N : Set Quad}
    {ρ : Valuation} {chosen : List Quad} {q : Quad} (inst : I.Instance r N ρ chosen q)
    (positive : ∀ l ∈ r.body, ∃ a, l = .positive a) (N' : Set Quad) :
    I.Instance r N' ρ chosen q := by
  refine ⟨inst.head, inst.atoms, ?_⟩
  intro l hl
  obtain ⟨a, rfl⟩ := positive l hl
  trivial

/-- The stratified model is closed under such a rule. -/
theorem Rule.Simple.mem_stratifiedModel {I : Interpretation} {scope : GraphScope} {r : Rule}
    {rules : List Rule} {level : TermId → Nat} {facts : Set Quad} {ρ : Valuation}
    {chosen : List Quad} {q : Quad} (simple : r.Simple scope) (hr : r ∈ rules)
    (strat : Stratification rules level) (inst : I.Instance r ∅ ρ chosen q)
    (premises : ∀ c ∈ chosen, c ∈ I.stratifiedModel rules level facts) :
    q ∈ I.stratifiedModel rules level facts := by
  refine Interpretation.mem_stratifiedModel hr strat simple.preds
    (inst.of_positive simple.isPositive _) ?_
  intro c ⟨_, pair, _⟩
  exact premises c (List.of_mem_zip pair).2

/-- By itself such a rule derives its instances over the visible triples, and no
others. -/
theorem Rule.Simple.mem_stage_iff {env : Environment} {st : Store} {r : Rule} {q : Quad} {n : Nat}
    (simple : r.Simple env.settings.ruleGraphScope)
    (aggregate : AggregateLiteral → Set Quad → TermId) :
    q ∈ (innerEngine env [r] st).stage n ↔
      ∃ ρ chosen, (env.interpretation aggregate).Instance r ∅ ρ chosen q ∧
        ∀ c ∈ chosen, st.Visible c := by
  constructor
  · have all : (innerEngine env [r] st).stage n ⊆
        {q | ∃ ρ chosen, (env.interpretation aggregate).Instance r ∅ ρ chosen q ∧
          ∀ c ∈ chosen, st.Visible c} := by
      refine Engine.stage_subset_iff.mpr ⟨?_, ?_⟩
      · intro b seed
        have produced : Produces (env.context st) [] (seedStmts (env.context st) [r]) b := seed
        obtain ⟨ρ, chosen, inst, stored⟩ := instance_of_produces_seed
          (I := env.interpretation aggregate) simple.toPlain rfl simple.nonrecursive produced
        refine ⟨ρ, chosen, inst.of_positive simple.isPositive _, ?_⟩
        exact fun c hc => mem_facts_context.mp (stored c hc)
      · intro k _ a _ _ b step
        -- no position of the body has the head predicate
        obtain ⟨_, _, _, i, position, _⟩ := instance_of_produces_variant
          (I := env.interpretation aggregate) simple.toPlain rfl step
        obtain ⟨atom, p, hatom, hp, derived⟩ := mem_deltaPositions.mp position
        obtain ⟨r', hr', headPred⟩ := mem_derivedPredIds.mp derived
        cases List.mem_singleton.mp hr'
        have recursive : r.isRecursive p = true :=
          List.any_eq_true.mpr ⟨atom, List.mem_of_getElem? hatom, by simp [eq_const_of_pred hp]⟩
        rw [simple.nonrecursive p headPred] at recursive
        cases recursive
    exact fun h => all h
  · intro ⟨ρ, chosen, inst, visible⟩
    have noNegation : ¬ ∃ a, .negated a ∈ r.body := by
      intro ⟨a, ha⟩
      obtain ⟨_, impossible⟩ := simple.isPositive _ ha
      cases impossible
    refine mem_stage_of_atHand (List.mem_singleton_self r) simple.toConjunctive rfl inst
      (fun negation => absurd negation noNegation) (.inl ⟨simple.nonrecursive, ?_⟩)
    exact fun c hc => mem_facts_context.mpr (visible c hc)

/-- Rules of this kind add nothing in an uncontrolled way. -/
theorem onlyEarlyNegation_of_simple {I : Interpretation} {ctx : Context} {derived : List TermId}
    {active rules : List Rule} {N model found : Set Quad} (subset : ∀ r ∈ active, r ∈ rules)
    (simple : ∀ r ∈ rules, r.Simple ctx.settings.ruleGraphScope) :
    OnlyEarlyNegation I ctx derived active rules N model found where
  early := by
    rintro r - inRules - ρ chosen q - - ⟨a, ha, -⟩
    obtain ⟨_, impossible⟩ := (simple r inRules).isPositive _ ha
    cases impossible
  otherSeeds r hr unknown := by
    have known := simple r (subset r hr)
    exact absurd ⟨subset r hr, known.toPlain, known.nonrecursive⟩ unknown
  otherVariants r hr unknown :=
    absurd ⟨subset r hr, (simple r (subset r hr)).toPlain⟩ unknown

/-- A row of `_pg_ripple.rules`, with its text parsed. The column `head_pred` is the
head predicate of the rule. -/
structure CatalogRule where
  ruleSet : String
  rule : Rule
  active : Bool
  deriving DecidableEq, Repr

/-- All rules that are in force. -/
def activeCatalogRules (catalog : List CatalogRule) : List Rule :=
  (catalog.filter CatalogRule.active).map CatalogRule.rule

/-- `SELECT rule_text … WHERE rule_set = $1 AND active = true`. -/
def rulesOfSet (catalog : List CatalogRule) (ruleSet : String) : List Rule :=
  (catalog.filter fun row => row.ruleSet = ruleSet && row.active).map CatalogRule.rule

/-- `rule_text LIKE '%' || $1::text || '%'`, for the digits of an id. -/
def likeId (text : String) (p : TermId) : Bool := (toString p).toList <:+: text.toList

/-- `affected_rules`. -/
def affectedRules (catalog : List CatalogRule) (p : TermId) : List CatalogRule :=
  catalog.filter fun row =>
    row.active && row.rule.headPred.isSome && likeId row.rule.ruleText p

/-- `derived_pred_ids` of the affected rules. -/
def affectedPredIds (catalog : List CatalogRule) (p : TermId) : List TermId :=
  (derivedPredIds ((affectedRules catalog p).map CatalogRule.rule)).filter fun id => id ≠ 0

/-- `rule_set_names`. -/
def ruleSetNames (catalog : List CatalogRule) (p : TermId) : List String :=
  ((affectedRules catalog p).map CatalogRule.ruleSet).dedup

/-- `s = $1 OR o = $1 OR s = $2 OR o = $2`. -/
def sharesTerm (t : Quad) (k : Key) : Bool := k.s = t.s || k.o = t.s || k.s = t.o || k.o = t.o

/-- The rows that the over-deletion query for predicate `d` ranges over: those in
`delta` if the predicate is dedicated, and otherwise those in `vp_rare`. -/
def overCandidates (t : Quad) (d : TermId) (st : Store) : List Key :=
  if st.isDedicated d then ((st.tables d).delta.rows.map Row.key).filter (sharesTerm t)
  else ((st.rare.rows.filter fun r => r.quad.p = d).map fun r => r.quad.key).filter (sharesTerm t)

/-- What the deletion of one triple is run with. The query that fills
`_dred_over_{d}` has a `LIMIT` and no `ORDER BY`; `scan` is the order in which
PostgreSQL happens to return the rows. -/
structure Dred where
  env : Environment
  session : Session
  scan : List Key → List Key
  deleted : Quad

namespace Dred

variable (dred : Dred)

/-- The rows of `_dred_over_{d}`. -/
def overRows (d : TermId) (st : Store) : List Key :=
  (dred.scan (overCandidates dred.deleted d st)).take dred.env.settings.dredBatchSize

/-- Phase 1: the number of rows that are deleted, and the store. -/
def overDelete (d : TermId) (st : Store) : Int × Store :=
  let rows := dred.overRows d st
  if st.isDedicated d then
    let t := st.tables d
    ((t.delta.rows.filter fun r => r.key ∈ rows).length,
      st.setTables d { t with delta := t.delta.deleteWhere fun r => r.key ∈ rows })
  else
    ((st.rare.rows.filter fun r => r.quad.p = d ∧ r.quad.key ∈ rows).length,
      { st with rare := st.rare.deleteWhere fun r => r.quad.p = d ∧ r.quad.key ∈ rows })

/-- The steps of the loop. -/
inductive Step where
  | overDelete (d : TermId)
  | rederive (r : Rule)
  deriving DecidableEq, Repr

/-- One step, on `total_retracted` and the store. -/
def step (state : Int × Store) : Step → Option (Int × Store)
  | .overDelete d =>
    let (deleted, st) := dred.overDelete d state.2
    some (state.1 + deleted, st)
  | .rederive r => do
    let (report, st) ← runSeminaiveInner dred.env dred.session [r] state.2
    return (max 0 (state.1 - report.totalDerived), st)

/-- The turns of the affected predicates, one after the other. Without affected rules
there are none, and neither if `dred_enabled` is off. -/
def steps (catalog : List CatalogRule) : List Step :=
  if dred.env.settings.dredEnabled then
    (affectedPredIds catalog dred.deleted.p).flatMap fun d =>
      .overDelete d :: (ruleSetNames catalog dred.deleted.p).flatMap fun name =>
        (rulesOfSet catalog name).map .rederive
  else []

/-- `run_dred_on_delete`: the number of triples retracted, and the store. -/
def runDredOnDelete (catalog : List CatalogRule) (st : Store) : Option (Int × Store) :=
  Run.exec dred.step (0, st) (dred.steps catalog)

/-- The step makes a visible triple disappear: it is among the rows deleted, and no
other table has it. -/
def Takes (q : Quad) (state : Int × Store) : Step → Prop
  | .overDelete d =>
    q.p = d ∧ q.key ∈ dred.overRows d state.2 ∧
      (state.2.isDedicated d = true →
        ¬ (state.2.tables d).MainVisible q.key ∧ ¬ state.2.rare.HasKey q)
  | .rederive _ => False

/-- The step derives a triple, by a chain of rows of the statements of one rule over
the triples that are visible when the step begins. -/
def Derives (q : Quad) (state : Int × Store) : Step → Prop
  | .overDelete _ => False
  | .rederive r => q ∈ (innerEngine dred.env [r] state.2).stage (maxIterations - 1)

variable {dred}

theorem not_derives_of_takes {q : Quad} (state : Int × Store) (step : Step)
    (h : dred.Takes q state step) : ¬ dred.Derives q state step := by
  cases step with
  | overDelete d => exact id
  | rederive r => exact h.elim

theorem visible_overDelete_of_dedicated {d : TermId} {st : Store} {q : Quad}
    (dedicated : st.isDedicated d = true) (same : q.p = d) :
    (dred.overDelete d st).2.Visible q ↔
      ((st.tables d).MainVisible q.key ∨
        ((st.tables d).InDelta q.key ∧ q.key ∉ dred.overRows d st)) ∨ st.rare.HasKey q := by
  subst same
  have deleted := UniqueTable.hasKey_deleteWhere (t := (st.tables q.p).delta) (k := q.key)
    fun k => decide (k ∈ dred.overRows q.p st)
  simp only [overDelete, dedicated, if_true, Store.Visible, Store.isDedicated_setTables,
    Store.setTables_tables_self, Store.setTables_rare, true_and, HtapTables.shows_iff]
  refine or_congr_left (or_congr Iff.rfl ?_)
  simpa [HtapTables.InDelta] using deleted

theorem visible_overDelete_of_rare {d : TermId} {st : Store} {q : Quad}
    (rare : st.isDedicated d = false) :
    (dred.overDelete d st).2.Visible q ↔
      (st.isDedicated q.p = true ∧ (st.tables q.p).Shows q.key) ∨
        (st.rare.HasKey q ∧ ¬ (q.p = d ∧ q.key ∈ dred.overRows d st)) := by
  have deleted := UniqueTable.hasKey_deleteWhere (t := st.rare) (k := q)
    fun q => decide (q.p = d ∧ q.key ∈ dred.overRows d st)
  simp only [overDelete, rare, Bool.false_eq_true, if_false, Store.Visible]
  refine or_congr Iff.rfl ?_
  simpa using deleted

/-- Over-deletion hides what it takes, and nothing else. -/
theorem visible_overDelete {d : TermId} {state : Int × Store} {q : Quad} :
    (dred.overDelete d state.2).2.Visible q ↔
      state.2.Visible q ∧ ¬ dred.Takes q state (.overDelete d) := by
  obtain ⟨n, st⟩ := state
  simp only [Takes]
  by_cases dedicated : st.isDedicated d = true
  · by_cases same : q.p = d
    · rw [visible_overDelete_of_dedicated dedicated same]
      subst same
      simp only [Store.Visible, dedicated, HtapTables.shows_iff, true_and, forall_const]
      tauto
    · have elsewhere : (dred.overDelete d st).2.Visible q ↔ st.Visible q := by
        simp only [overDelete, dedicated, if_true, Store.Visible, Store.isDedicated_setTables,
          Store.setTables_tables_of_ne same, Store.setTables_rare]
      rw [elsewhere]
      simp [same]
  · have rare : st.isDedicated d = false := by simpa using dedicated
    rw [visible_overDelete_of_rare rare]
    simp only [rare, Bool.false_eq_true, false_imp_iff, and_true, Store.Visible]
    by_cases here : q.p = d ∧ q.key ∈ dred.overRows d st
    · obtain ⟨rfl, _⟩ := here
      simp [*]
    · simp [here]

/-- The effect of one step on the visible triples. -/
theorem visible_step (q : Quad) (state : Int × Store) (step : Step) (state' : Int × Store)
    (stepped : dred.step state step = some state') :
    state'.2.Visible q ↔
      (state.2.Visible q ∧ ¬ dred.Takes q state step) ∨ dred.Derives q state step := by
  cases step with
  | overDelete d =>
    have same : state' = (state.1 + (dred.overDelete d state.2).1, (dred.overDelete d state.2).2) :=
      (Option.some.inj stepped).symm
    rw [same, visible_overDelete]
    simp [Derives]
  | rederive r =>
    obtain ⟨⟨report, st'⟩, ran, stepped⟩ := Option.bind_eq_some_iff.mp stepped
    cases stepped
    rw [visible_runSeminaiveInner ran]
    simp [Takes, Derives]

variable (dred)

/-- The step derives a triple outside of the model. A simple rule does so only from a
visible triple outside of the model. -/
def Misderives (I : Interpretation) (model : Set Quad) (q : Quad) (state : Int × Store) :
    Step → Prop
  | .overDelete _ => False
  | .rederive r =>
    dred.Derives q state (.rederive r) ∧
      (r.Simple dred.env.settings.ruleGraphScope →
        ∃ ρ chosen, I.Instance r ∅ ρ chosen q ∧ (∀ c ∈ chosen, state.2.Visible c) ∧
          ∃ c ∈ chosen, c ∉ model)

/-- Step by step, the loop keeps exactly the triples of `model`. -/
structure StepsRestore (I : Interpretation) (model : Set Quad) (catalog : List CatalogRule)
    (st : Store) : Prop where
  /-- A triple of the model that is not there is derived. -/
  derived : ∀ q ∈ model, ¬ st.Visible q →
    Run.Eventually dred.step (dred.Derives q) (0, st) (dred.steps catalog)
  /-- A triple of the model that a step takes is derived again. -/
  restored : ∀ q ∈ model,
    Run.LeadsTo dred.step (dred.Takes q) (dred.Derives q) (0, st) (dred.steps catalog)
  /-- A visible triple outside of the model is taken. -/
  taken : ∀ q, q ∉ model → st.Visible q →
    Run.Eventually dred.step (dred.Takes q) (0, st) (dred.steps catalog)
  /-- A triple outside of the model that a step derives is taken later. -/
  undone : ∀ q, q ∉ model →
    Run.LeadsTo dred.step (dred.Misderives I model q) (dred.Takes q) (0, st) (dred.steps catalog)

variable {dred}

theorem mem_steps_rederive {catalog : List CatalogRule} {r : Rule}
    (h : .rederive r ∈ dred.steps catalog) : r ∈ activeCatalogRules catalog := by
  unfold steps at h
  split at h
  · simp only [List.mem_flatMap, List.mem_cons, reduceCtorEq, false_or, List.mem_map] at h
    obtain ⟨_, _, name, _, r', hr', same⟩ := h
    cases same
    obtain ⟨row, hrow, rfl⟩ := List.mem_map.mp hr'
    rw [List.mem_filter, Bool.and_eq_true] at hrow
    exact List.mem_map_of_mem (List.mem_filter.mpr ⟨hrow.1, hrow.2.2⟩)
  · cases h

/-- Outside of a model of the rules, steps only derive what they misderive. -/
theorem misderives_iff {model : Set Quad} {catalog : List CatalogRule} {q : Quad}
    {aggregate : AggregateLiteral → Set Quad → TermId} (outside : q ∉ model)
    (closed : ∀ r ∈ activeCatalogRules catalog, r.Simple dred.env.settings.ruleGraphScope →
      ∀ ρ chosen b, (dred.env.interpretation aggregate).Instance r ∅ ρ chosen b →
        (∀ c ∈ chosen, c ∈ model) → b ∈ model)
    (state : Int × Store) (step : Step) (hstep : step ∈ dred.steps catalog) :
    dred.Misderives (dred.env.interpretation aggregate) model q state step ↔
      dred.Derives q state step := by
  cases step with
  | overDelete d => exact Iff.rfl
  | rederive r =>
    refine and_iff_left_of_imp ?_
    intro derives simple
    obtain ⟨ρ, chosen, inst, visible⟩ := (simple.mem_stage_iff aggregate).mp derives
    refine ⟨ρ, chosen, inst, visible, ?_⟩
    by_contra supported
    push Not at supported
    exact outside (closed r (mem_steps_rederive hstep) simple ρ chosen q inst supported)

/-- The loop ends in `model` exactly under that condition. -/
theorem visible_eq_iff_stepsRestore {model : Set Quad} {catalog : List CatalogRule} {st : Store}
    {aggregate : AggregateLiteral → Set Quad → TermId}
    (closed : ∀ r ∈ activeCatalogRules catalog, r.Simple dred.env.settings.ruleGraphScope →
      ∀ ρ chosen b, (dred.env.interpretation aggregate).Instance r ∅ ρ chosen b →
        (∀ c ∈ chosen, c ∈ model) → b ∈ model)
    {state' : Int × Store} (ran : dred.runDredOnDelete catalog st = some state') :
    (∀ q, state'.2.Visible q ↔ q ∈ model) ↔
      dred.StepsRestore (dred.env.interpretation aggregate) model catalog st := by
  have present (q : Quad) : state'.2.Visible q ↔ _ :=
    Run.exec_observed_iff (visible_step q) not_derives_of_takes ran
  -- to be hidden is an observation as well, with the two effects exchanged
  have hides (q : Quad) (state : Int × Store) (step : Step) (state' : Int × Store)
      (stepped : dred.step state step = some state') :
      ¬ state'.2.Visible q ↔
        (¬ state.2.Visible q ∧ ¬ dred.Derives q state step) ∨ dred.Takes q state step := by
    rw [visible_step q state step state' stepped]
    have exclusive : dred.Takes q state step → ¬ dred.Derives q state step :=
      not_derives_of_takes state step
    tauto
  have absent (q : Quad) : ¬ state'.2.Visible q ↔ _ :=
    Run.exec_observed_iff (hides q)
      (fun state step derives takes => not_derives_of_takes state step takes derives) ran
  have undone (q : Quad) (hq : q ∉ model) :
      Run.LeadsTo dred.step (dred.Misderives (dred.env.interpretation aggregate) model q)
          (dred.Takes q) (0, st) (dred.steps catalog) ↔
        Run.LeadsTo dred.step (dred.Derives q) (dred.Takes q) (0, st) (dred.steps catalog) :=
    Run.leadsTo_congr fun state step hstep => misderives_iff hq closed state step hstep
  constructor
  · intro exact_
    refine ⟨?_, ?_, ?_, ?_⟩
    · intro q hq hidden
      exact ((present q).mp ((exact_ q).mpr hq)).1.resolve_left hidden
    · intro q hq
      exact ((present q).mp ((exact_ q).mpr hq)).2
    · intro q hq visible
      exact ((absent q).mp (mt (exact_ q).mp hq)).1.resolve_left (not_not_intro visible)
    · intro q hq
      exact (undone q hq).mpr ((absent q).mp (mt (exact_ q).mp hq)).2
  · intro cond q
    constructor
    · intro visible
      by_contra hq
      refine (absent q).mpr ⟨?_, (undone q hq).mp (cond.undone q hq)⟩ visible
      by_cases before : st.Visible q
      · exact .inr (cond.taken q hq before)
      · exact .inl before
    · intro hq
      refine (present q).mpr ⟨?_, cond.restored q hq⟩
      by_cases before : st.Visible q
      · exact .inl before
      · exact .inr (cond.derived q hq before)

/-- What the deleted triple supported is one step away from it, and no rule reads it. `st` is the
store after the delete. -/
structure OneLevel (dred : Dred) (I : Interpretation) (model : Set Quad)
    (catalog : List CatalogRule) (st : Store) : Prop where
  present : ∀ q ∈ model, st.Visible q
  /-- Stale triples are in `vp_rare`, under a predicate that has a turn, and share a term with the
  deleted triple. -/
  stale : ∀ q, q ∉ model → st.Visible q →
    dred.env.settings.dredEnabled = true ∧ q.p ∈ affectedPredIds catalog dred.deleted.p ∧
      sharesTerm dred.deleted q.key = true ∧ st.isDedicated q.p = false
  /-- One batch has room for all triples in question. -/
  batch : ∀ d ∈ affectedPredIds catalog dred.deleted.p, ∃ rows : List Key,
    rows.length ≤ dred.env.settings.dredBatchSize ∧
      ∀ q, q.p = d → sharesTerm dred.deleted q.key = true → q ∈ model ∨ st.Visible q → q.key ∈ rows
  /-- A triple of the model that a turn may take follows by an affected rule set from triples that
  no turn takes. -/
  supported : ∀ q ∈ model, q.p ∈ affectedPredIds catalog dred.deleted.p →
    sharesTerm dred.deleted q.key = true →
    ∃ name ∈ ruleSetNames catalog dred.deleted.p, ∃ r ∈ rulesOfSet catalog name,
      ∃ ρ chosen, I.Instance r ∅ ρ chosen q ∧
        ∀ c ∈ chosen, c ∈ model ∧ c.p ∉ affectedPredIds catalog dred.deleted.p
  simple : ∀ r ∈ activeCatalogRules catalog, r.Simple dred.env.settings.ruleGraphScope
  unread : ∀ r ∈ activeCatalogRules catalog, ∀ a ∈ r.positiveAtoms, ∀ q, q ∉ model →
    st.Visible q → a.p ≠ .const q.p

/-- What the steps of the loop keep. -/
structure Within (model : Set Quad) (affected : List TermId) (st st' : Store) : Prop where
  kept : ∀ q ∈ model, q.p ∉ affected → st'.Visible q
  noNew : ∀ q, q ∉ model → st'.Visible q → st.Visible q
  layout : ∀ d, st'.isDedicated d = st.isDedicated d

theorem isDedicated_step {state state' : Int × Store} {step : Step} {d : TermId}
    (stepped : dred.step state step = some state') :
    state'.2.isDedicated d = state.2.isDedicated d := by
  cases step with
  | overDelete d' =>
    have same : state' = (state.1 + (dred.overDelete d' state.2).1,
        (dred.overDelete d' state.2).2) := (Option.some.inj stepped).symm
    rw [same]
    unfold overDelete
    dsimp only
    split
    · exact Store.isDedicated_setTables
    · rfl
  | rederive r =>
    obtain ⟨⟨report, st'⟩, ran, stepped⟩ := Option.bind_eq_some_iff.mp stepped
    cases stepped
    exact isDedicated_runSeminaiveInner ran

theorem mem_steps_overDelete {catalog : List CatalogRule} {d : TermId} :
    .overDelete d ∈ dred.steps catalog ↔
      dred.env.settings.dredEnabled = true ∧ d ∈ affectedPredIds catalog dred.deleted.p := by
  unfold steps
  split
  · rename_i enabled
    simp [enabled]
  · rename_i disabled
    simp [disabled]

/-- After a turn has begun, each rule of the affected rule sets is run again. -/
theorem rederive_mem_of_split {catalog : List CatalogRule} {before after : List Step} {d : TermId}
    {name : String} {r : Rule} (split : dred.steps catalog = before ++ .overDelete d :: after)
    (hname : name ∈ ruleSetNames catalog dred.deleted.p) (hr : r ∈ rulesOfSet catalog name) :
    .rederive r ∈ after := by
  have turns (ds : List TermId) {rederives before : List Step}
      (only : ∀ d, .overDelete d ∉ rederives) (mem : .rederive r ∈ rederives)
      (split : (ds.flatMap fun d => .overDelete d :: rederives) =
        before ++ .overDelete d :: after) : .rederive r ∈ after := by
    induction ds generalizing before with
    | nil => simp at split
    | cons d' ds ih =>
      rw [List.flatMap_cons, List.cons_append, List.cons_eq_append_iff] at split
      obtain ⟨-, same⟩ | ⟨before, -, split⟩ := split
      · cases same
        exact List.mem_append_left _ mem
      · rw [List.append_eq_append_iff] at split
        obtain ⟨_, -, later⟩ | ⟨first, inside, rest⟩ := split
        · exact ih later
        · cases first with
          | nil => exact @ih [] rest.symm
          | cons step first =>
            cases rest
            exact absurd (inside ▸ List.mem_append_right _ List.mem_cons_self) (only d)
  unfold steps at split
  split at split
  · refine turns _ ?_ ?_ split
    · simp
    · exact List.mem_flatMap.mpr ⟨name, hname, List.mem_map_of_mem hr⟩
  · simp at split

theorem sharesTerm_of_mem_overRows (scans : ∀ rows, (dred.scan rows).Perm rows) {d : TermId}
    {st : Store} {k : Key} (mem : k ∈ dred.overRows d st) : sharesTerm dred.deleted k = true := by
  have candidate := (scans _).mem_iff.mp (List.mem_of_mem_take mem)
  unfold overCandidates at candidate
  split at candidate
  · exact (List.mem_filter.mp candidate).2
  · exact (List.mem_filter.mp candidate).2

section OneLevel

variable {I : Interpretation} {model : Set Quad} {catalog : List CatalogRule} {st : Store}
  {aggregate : AggregateLiteral → Set Quad → TermId}

/-- Where nothing stale is read, steps derive triples of the model only. -/
theorem OneLevel.mem_of_derives
    (h : dred.OneLevel (dred.env.interpretation aggregate) model catalog st)
    (closed : ∀ r ∈ activeCatalogRules catalog, r.Simple dred.env.settings.ruleGraphScope →
      ∀ ρ chosen b, (dred.env.interpretation aggregate).Instance r ∅ ρ chosen b →
        (∀ c ∈ chosen, c ∈ model) → b ∈ model)
    {state : Int × Store} (within : ∀ q, q ∉ model → state.2.Visible q → st.Visible q)
    {step : Step} (hstep : step ∈ dred.steps catalog) {q : Quad}
    (derives : dred.Derives q state step) : q ∈ model := by
  cases step with
  | overDelete d => exact derives.elim
  | rederive r =>
    have active := mem_steps_rederive hstep
    have simple := h.simple r active
    obtain ⟨ρ, chosen, inst, visible⟩ := (simple.mem_stage_iff aggregate).mp derives
    refine closed r active simple ρ chosen q inst ?_
    intro c hc
    by_contra stale
    obtain ⟨a, ha, isMatch⟩ := Fold.exists_right_of_forall₂ inst.atoms.flip hc
    obtain ⟨p, hp⟩ := Option.isSome_iff_exists.mp
      (simple.preds.2 _ (Rule.mem_positiveAtoms.mp ha))
    refine h.unread r active a ha c stale (within c stale (visible c hc)) ?_
    rw [eq_const_of_pred hp, Interpretation.pred_of_matches isMatch.1 hp]

theorem OneLevel.within_step
    (h : dred.OneLevel (dred.env.interpretation aggregate) model catalog st)
    (closed : ∀ r ∈ activeCatalogRules catalog, r.Simple dred.env.settings.ruleGraphScope →
      ∀ ρ chosen b, (dred.env.interpretation aggregate).Instance r ∅ ρ chosen b →
        (∀ c ∈ chosen, c ∈ model) → b ∈ model)
    {state state' : Int × Store} {step : Step} (hstep : step ∈ dred.steps catalog)
    (within : Within model (affectedPredIds catalog dred.deleted.p) st state.2)
    (stepped : dred.step state step = some state') :
    Within model (affectedPredIds catalog dred.deleted.p) st state'.2 where
  kept := by
    intro q hq unaffected
    refine (visible_step q state step state' stepped).mpr (.inl ⟨within.kept q hq unaffected, ?_⟩)
    intro takes
    cases step with
    | overDelete d => exact unaffected (takes.1 ▸ (mem_steps_overDelete.mp hstep).2)
    | rederive r => exact takes
  noNew := by
    intro q hq visible
    obtain ⟨before, -⟩ | derives := (visible_step q state step state' stepped).mp visible
    · exact within.noNew q hq before
    · exact absurd (h.mem_of_derives closed within.noNew hstep derives) hq
  layout := fun d => (isDedicated_step stepped).trans (within.layout d)

/-- The turn of its predicate takes a stale triple. -/
theorem OneLevel.takes (h : dred.OneLevel I model catalog st)
    (scans : ∀ rows, (dred.scan rows).Perm rows) {state : Int × Store}
    (within : Within model (affectedPredIds catalog dred.deleted.p) st state.2) {q : Quad}
    (stale : q ∉ model) (visible : state.2.Visible q) :
    dred.Takes q state (.overDelete q.p) := by
  obtain ⟨-, affected, shares, rare⟩ := h.stale q stale (within.noNew q stale visible)
  have notDedicated : state.2.isDedicated q.p = false := (within.layout q.p).trans rare
  have candidates : overCandidates dred.deleted q.p state.2 =
      ((state.2.rare.rows.filter fun r => r.quad.p = q.p).map fun r => r.quad.key).filter
        (sharesTerm dred.deleted) := by
    simp [overCandidates, notDedicated]
  -- distinct rows of one predicate have distinct keys, so the batch has room for all
  have distinct : (overCandidates dred.deleted q.p state.2).Nodup := by
    rw [candidates]
    refine (List.Nodup.map_on ?_ ?_).filter _
    · intro r hr r' hr' same
      have hp := of_decide_eq_true (List.mem_filter.mp hr).2
      have hp' := of_decide_eq_true (List.mem_filter.mp hr').2
      refine state.2.rare.eq_of_key_eq (List.mem_filter.mp hr).1 (List.mem_filter.mp hr').1 ?_
      rw [← Quad.key_quad r.quad, ← Quad.key_quad r'.quad, same, hp, hp']
    · exact (List.Nodup.of_map _ state.2.rare.unique).filter _
  obtain ⟨rows, room, all⟩ := h.batch q.p affected
  have covered : overCandidates dred.deleted q.p state.2 ⊆ rows := by
    intro k hk
    rw [candidates, List.mem_filter] at hk
    obtain ⟨hk, sharesTerm⟩ := hk
    obtain ⟨r, hr, rfl⟩ := List.mem_map.mp hk
    obtain ⟨stored, hp⟩ := List.mem_filter.mp hr
    refine all r.quad (of_decide_eq_true hp) sharesTerm ?_
    by_cases inModel : r.quad ∈ model
    · exact .inl inModel
    · exact .inr (within.noNew _ inModel (.inr (UniqueTable.HasKey.of_mem stored)))
  have short : (dred.scan (overCandidates dred.deleted q.p state.2)).length ≤
      dred.env.settings.dredBatchSize := by
    rw [(scans _).length_eq]
    exact (distinct.subperm covered).length_le.trans room
  refine ⟨rfl, ?_, fun dedicated => by rw [notDedicated] at dedicated; cases dedicated⟩
  rw [overRows, List.take_of_length_le short, (scans _).mem_iff, candidates, List.mem_filter]
  refine ⟨?_, shares⟩
  obtain ⟨dedicated, -⟩ | row := visible
  · rw [notDedicated] at dedicated
    cases dedicated
  · obtain ⟨r, hr, same⟩ := UniqueTable.hasKey_iff.mp row
    refine List.mem_map.mpr ⟨r, List.mem_filter.mpr ⟨hr, ?_⟩, by rw [same]⟩
    simp [same]

/-- If what the deleted triple supported is one step away, the loop restores the model. -/
theorem OneLevel.stepsRestore
    (h : dred.OneLevel (dred.env.interpretation aggregate) model catalog st)
    (scans : ∀ rows, (dred.scan rows).Perm rows)
    (closed : ∀ r ∈ activeCatalogRules catalog, r.Simple dred.env.settings.ruleGraphScope →
      ∀ ρ chosen b, (dred.env.interpretation aggregate).Instance r ∅ ρ chosen b →
        (∀ c ∈ chosen, c ∈ model) → b ∈ model)
    {state' : Int × Store} (ran : dred.runDredOnDelete catalog st = some state') :
    dred.StepsRestore (dred.env.interpretation aggregate) model catalog st := by
  have start : Within model (affectedPredIds catalog dred.deleted.p) st st :=
    ⟨fun q hq _ => h.present q hq, fun _ _ visible => visible, fun _ => rfl⟩
  have keeps (state : Int × Store) (step : Step) (hstep : step ∈ dred.steps catalog)
      (state' : Int × Store)
      (within : Within model (affectedPredIds catalog dred.deleted.p) st state.2)
      (stepped : dred.step state step = some state') :
      Within model (affectedPredIds catalog dred.deleted.p) st state'.2 :=
    h.within_step closed hstep within stepped
  refine ⟨?_, ?_, ?_, ?_⟩
  · exact fun q hq hidden => absurd (h.present q hq) hidden
  · intro q hq
    refine Run.leadsTo_of_split keeps start ran ?_
    intro before step after split state _ takes
    cases step with
    | rederive r => exact takes.elim
    | overDelete d =>
      obtain ⟨rfl, taken, -⟩ := takes
      have affected := (mem_steps_overDelete.mp (split ▸ List.mem_append_right _
        List.mem_cons_self)).2
      obtain ⟨name, hname, r, hr, ρ, chosen, inst, premises⟩ :=
        h.supported q hq affected (sharesTerm_of_mem_overRows scans taken)
      have again := rederive_mem_of_split split hname hr
      refine ⟨_, again, ?_⟩
      intro state within
      have active := mem_steps_rederive (split ▸ List.mem_append_right _
        (List.mem_cons_of_mem _ again))
      refine ((h.simple r active).mem_stage_iff aggregate).mpr ⟨ρ, chosen, inst, ?_⟩
      exact fun c hc => within.kept c (premises c hc).1 (premises c hc).2
  · intro q hq visible
    obtain ⟨enabled, affected, -, -⟩ := h.stale q hq visible
    have turn : Step.overDelete q.p ∈ dred.steps catalog :=
      mem_steps_overDelete.mpr ⟨enabled, affected⟩
    have takes (state : Int × Store)
        (inv : Within model (affectedPredIds catalog dred.deleted.p) st state.2 ∧
          state.2.Visible q) := h.takes scans inv.1 hq inv.2
    refine Run.eventually_of_mem ?_ ⟨start, visible⟩ ran turn takes
    intro state step hstep state' inv notTaken stepped
    exact ⟨keeps state step hstep state' inv.1 stepped,
      (visible_step q state step state' stepped).mpr (.inl ⟨inv.2, notTaken⟩)⟩
  · intro q hq
    refine Run.leadsTo_of_split keeps start ran ?_
    intro before step after split state within misderives
    have hstep : step ∈ dred.steps catalog := split ▸ List.mem_append_right _ List.mem_cons_self
    cases step with
    | overDelete d => exact misderives.elim
    | rederive r => exact absurd (h.mem_of_derives closed within.noNew hstep misderives.1) hq

end OneLevel

end Dred

/-- The visible triples are those of the model of the base triples without `t`. -/
def RetractsExactly (I : Interpretation) (rules : List Rule) (level : TermId → Nat)
    (base : Set Quad) (t : Quad) (st : Store) : Prop :=
  ∀ q, st.Visible q ↔ q ∈ I.stratifiedModel rules level (base \ {t})

/-- The copying rule, under another text. -/
def copyRuleAs (text : String) : Rule := { copyRule with ruleText := text }

section Copy

variable {text : String} {I : Interpretation} {N facts : Set Quad} {ρ : Valuation}
  {chosen : List Quad} {q : Quad} {level : TermId → Nat}

theorem positive_copyRuleAs : (copyRuleAs text).Positive :=
  positive_of_edges rfl (by simp [copyRuleAs, copyRule])

theorem simple_copyRuleAs (scope : GraphScope) : (copyRuleAs text).Simple scope where
  toConjunctive := by
    refine positive_copyRuleAs.conjunctive ⟨_, rfl, ?_, ?_⟩ scope
    · exact ⟨_, List.mem_singleton_self _, .inl rfl⟩
    · exact ⟨_, List.mem_singleton_self _, .inr (.inl rfl)⟩
  linear := (plain_copyRule scope).linear
  isPositive := positive_copyRuleAs.isPositive
  nonrecursive := by
    intro p hp
    cases hp
    rfl

theorem instance_copyRuleAs (inst : I.Instance (copyRuleAs text) N ρ chosen q) :
    ∃ b, chosen = [b] ∧ b.p = 21 ∧ q = ⟨b.s, 11, b.o, 0⟩ := by
  have atoms : List.Forall₂ (I.AtomMatches (copyRuleAs text) ρ) [edge "x" 21 "y"] chosen :=
    inst.atoms
  cases atoms with
  | cons isMatch rest =>
    cases rest
    rename_i b
    have concludes := inst.concludes rfl
    have subject : ρ "x" = b.s := isMatch.1.s
    have object : ρ "y" = b.o := isMatch.1.o
    have hs : ρ "x" = q.s := Option.some.inj concludes.s
    have hp : 11 = q.p := Option.some.inj concludes.p
    have ho : ρ "y" = q.o := Option.some.inj concludes.o
    have hg : 0 = q.g := concludes.g
    refine ⟨b, rfl, Interpretation.pred_of_matches isMatch.1 rfl, ?_⟩
    rw [← subject, ← object, hs, hp, ho, hg]

/-- The facts and their copies. -/
def withCopies (facts : Set Quad) : Set Quad :=
  {q | q ∈ facts ∨ ∃ b ∈ facts, b.p = 21 ∧ q = ⟨b.s, 11, b.o, 0⟩}

theorem mem_withCopies_of_instance (inst : I.Instance (copyRuleAs text) N ρ chosen q)
    (premises : I.premises (copyRuleAs text) chosen ⊆ withCopies facts) : q ∈ withCopies facts := by
  obtain ⟨c, rfl, pred, rfl⟩ := instance_copyRuleAs inst
  have premise := premises ((Interpretation.mem_premises (positive_copyRuleAs.not_temporal I)
    inst).mpr (List.mem_singleton_self c))
  refine .inr ⟨c, premise.resolve_right ?_, pred, rfl⟩
  rintro ⟨_, _, _, rfl⟩
  cases pred

/-- Each copy is the conclusion of an instance. -/
theorem exists_instance_copyRuleAs (scope : I.scope = .all) {b : Quad} (pred : b.p = 21) :
    ∃ ρ, I.Instance (copyRuleAs text) N ρ [b] ⟨b.s, 11, b.o, 0⟩ :=
  ⟨fun v => if v = "x" then b.s else b.o,
    positive_copyRuleAs.instance ⟨_, rfl, rfl, rfl, rfl, rfl⟩
      (.cons ⟨rfl, pred.symm, rfl, fun h => nomatch scope.symm.trans h⟩ .nil)⟩

/-- The model has the facts and their copies. -/
theorem mem_stratifiedModel_copyRuleAs (scope : I.scope = .all)
    (strat : Stratification [copyRuleAs text] level) :
    q ∈ I.stratifiedModel [copyRuleAs text] level facts ↔ q ∈ withCopies facts := by
  constructor
  · intro ⟨n, hn⟩
    induction n generalizing q with
    | zero => exact .inl hn
    | succ n ih =>
      have closed : I.stratum [copyRuleAs text] level facts (n + 1) ⊆ withCopies facts := by
        refine least_subset (fun b hb => ih hb) ?_
        rintro P b ⟨_, r, hr, ρ, chosen, inst, rfl⟩ premises
        cases List.mem_singleton.mp hr
        exact mem_withCopies_of_instance inst premises
      exact closed hn
  · rintro (stored | ⟨b, hb, pred, rfl⟩)
    · exact Interpretation.facts_subset_stratifiedModel stored
    · obtain ⟨ρ, inst⟩ := exists_instance_copyRuleAs scope pred
      refine Interpretation.mem_stratifiedModel (List.mem_singleton_self _) strat
        positive_copyRuleAs.constPreds inst ?_
      intro c ⟨_, pair, _⟩
      cases List.mem_singleton.mp (List.of_mem_zip pair).2
      exact Interpretation.facts_subset_stratifiedModel hb

theorem stratification_copyRuleAs : Stratification [copyRuleAs text] fun _ => 0 := by
  intro r hr h _ l hl
  cases List.mem_singleton.mp hr
  cases List.mem_singleton.mp hl
  exact fun _ _ => le_rfl

end Copy

/-- A catalog with only the copying rule. -/
def copyCatalog (text : String) : List CatalogRule := [⟨"rules", copyRuleAs text, true⟩]

theorem stratification_copyCatalog {text : String} :
    Stratification (activeCatalogRules (copyCatalog text)) fun _ => 0 := stratification_copyRuleAs

/-- A base triple and its copy. -/
def copied : Store := loaded [⟨101, 21, 102, 0⟩, ⟨101, 11, 102, 0⟩]

/-- The base triple is deleted. -/
def deletion : Dred := ⟨.bare, 0, id, ⟨101, 21, 102, 0⟩⟩

theorem visible_copied (q : Quad) :
    copied.Visible q ↔ q = ⟨101, 21, 102, 0⟩ ∨ q = ⟨101, 11, 102, 0⟩ := by
  rw [Store.visible_iff_mem_rare (by decide),
    show copied.rare.rows.map RareRow.quad = [⟨101, 21, 102, 0⟩, ⟨101, 11, 102, 0⟩] by decide]
  simp

theorem closed_copied {text : String} (q : Quad) :
    copied.Visible q ↔
      q ∈ (deletion.env.interpretation fun _ _ => 0).stratifiedModel
        (activeCatalogRules (copyCatalog text)) (fun _ => 0) {⟨101, 21, 102, 0⟩} := by
  rw [visible_copied]
  refine Iff.trans ?_ (mem_stratifiedModel_copyRuleAs rfl stratification_copyRuleAs).symm
  simp [withCopies]

/-- With the deleted base triple, its copy is gone from the model. -/
theorem model_deletion {text : String} :
    (deletion.env.interpretation fun _ _ => 0).stratifiedModel
      (activeCatalogRules (copyCatalog text)) (fun _ => 0)
      ({⟨101, 21, 102, 0⟩} \ {deletion.deleted}) = ∅ := by
  refine Set.eq_empty_of_forall_notMem ?_
  intro q hq
  have cases := (mem_stratifiedModel_copyRuleAs rfl stratification_copyRuleAs).mp hq
  simp [withCopies, deletion] at cases

/-- Rule texts contain IRIs. -/
def iriText : String :=
  "?x <https://dred.test/reach> ?y :- ?x <https://dred.test/edge> ?y ."

end PgRipple.Datalog
