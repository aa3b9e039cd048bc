import PgRipple.Lib.Worklist
import PgRipple.Datalog.Completeness
import PgRipple.Datalog.Soundness

/-!
# Inference on demand

`run_infer_demand` keeps the rules from which a demanded predicate can be derived, by a search
of the dependency graph of the rule set, and evaluates only these. Predicates under a negation
are not followed; that is no loss, since no statement looks for derived triples there.

The search reads the rules as they were written, and the constants are replaced by the
representatives of their `owl:sameAs` classes afterwards. A rule for another member of the class
of a needed predicate is dropped, although the full evaluation would derive the needed
predicate by it.
-/

namespace PgRipple.Datalog

open Storage

/-- `build_dep_graph`: the predicates of positive body atoms of the rules for a predicate. -/
def buildDepGraph (rules : List Rule) (p : TermId) : List TermId :=
  ((rules.filter fun r => r.headPred = some p).flatMap Rule.bodyPreds).dedup

/-- `find_relevant_predicates`. Every predicate enters the frontier once. -/
def findRelevantPredicates (rules : List Rule) (demandPreds : List TermId) : List TermId :=
  Worklist.search (buildDepGraph rules) (demandPreds.length + (rules.flatMap Rule.bodyPreds).length)
    demandPreds demandPreds

/-- The rules that are kept for the demanded predicates. -/
def demandedRules (rules : List Rule) (demandPreds : List TermId) : List Rule :=
  rules.filter fun r => r.headPred.any (· ∈ findRelevantPredicates rules demandPreds)

section Relevant

variable {rules : List Rule} {demandPreds : List TermId} {p b : TermId} {r : Rule}

theorem mem_buildDepGraph :
    b ∈ buildDepGraph rules p ↔ ∃ r ∈ rules, r.headPred = some p ∧ b ∈ r.bodyPreds := by
  simp only [buildDepGraph, List.mem_dedup, List.mem_flatMap, List.mem_filter, decide_eq_true_eq,
    and_assoc]

theorem mem_findRelevantPredicates_of_demand (demanded : p ∈ demandPreds) :
    p ∈ findRelevantPredicates rules demandPreds :=
  Worklist.subset_search _ _ _ _ demanded

/-- What a rule for a relevant predicate reads is relevant. -/
theorem mem_findRelevantPredicates_of_body (hr : r ∈ rules) (head : r.headPred = some p)
    (relevant : p ∈ findRelevantPredicates rules demandPreds) (body : b ∈ r.bodyPreds) :
    b ∈ findRelevantPredicates rules demandPreds := by
  refine Worklist.closed_search (U := rules.flatMap Rule.bodyPreds) ?_ ?_ ?_ p relevant b
    (mem_buildDepGraph.mpr ⟨r, hr, head, body⟩)
  · intro x y hy
    obtain ⟨r', hr', -, hy⟩ := mem_buildDepGraph.mp hy
    exact List.mem_flatMap.mpr ⟨r', hr', hy⟩
  · have fewer : Worklist.unseen (rules.flatMap Rule.bodyPreds) demandPreds ≤
        (rules.flatMap Rule.bodyPreds).length :=
      (Finset.card_le_card Finset.sdiff_subset).trans (List.toFinset_card_le _)
    omega
  · intro x hx fresh
    exact absurd hx fresh

end Relevant

section Engines

variable {ctx : Context} {rule : Rule} {head : Atom} {q : Query} {i : Nat}

/-- The plans of two variants differ in the tables they read. -/
def SameNames (plan plan' : Plan) : Prop :=
  plan'.from_.length = plan.from_.length ∧ plan'.varMap = plan.varMap

theorem SameNames.literal {j : Nat} {plan plan' next : Plan} {l : BodyLiteral}
    (same : SameNames plan plan') (compiled : variantLiteral ctx i plan l = .ok next) :
    ∃ next', variantLiteral ctx j plan' l = .ok next' ∧ SameNames next next' := by
  obtain ⟨length, names⟩ := same
  cases l with
  | positive a =>
    simp only [variantLiteral] at compiled ⊢
    split at compiled
    · rename_i p pred
      cases compiled
      refine ⟨_, rfl, ?_, ?_⟩
      · obtain ⟨_, items⟩ :=
          from_addAtom ctx plan (if plan.nextAlias = i then .delta p else .stored p) a []
        obtain ⟨_, items'⟩ :=
          from_addAtom ctx plan' (if plan'.nextAlias = j then .delta p else .stored p) a []
        rw [items, items', List.length_append, List.length_append, length]
        rfl
      · simp only [varMap_addAtom, Plan.nextAlias, length, names]
    · cases compiled
  | negated a =>
    simp only [variantLiteral] at compiled ⊢
    split at compiled
    · cases compiled
      exact ⟨_, rfl, length, names⟩
    · cases compiled
  | assign v l op r =>
    cases compiled
    exact ⟨_, rfl, length, by simp only [names]⟩
  | _ =>
    cases compiled
    exact ⟨_, rfl, length, names⟩

/-- Which atom reads derived triples makes no difference to whether a variant compiles. -/
theorem exists_compileRuleWithOneDeltaAtom (h : compileRuleWithOneDeltaAtom ctx rule head i = .ok q)
    (j : Nat) : ∃ q', compileRuleWithOneDeltaAtom ctx rule head j = .ok q' := by
  obtain ⟨plan, planned, h⟩ := Fold.bind_eq_ok.mp h
  have follows : ∀ l plan plan' next, SameNames plan plan' →
      variantLiteral ctx i plan l = .ok next →
      ∃ next', variantLiteral ctx j plan' l = .ok next' ∧ SameNames next next' :=
    fun _ _ _ _ same compiled => same.literal compiled
  obtain ⟨plan', planned', -, names⟩ :=
    Fold.foldlM_simulates follows (t := Plan.empty) ⟨rfl, rfl⟩ planned
  obtain ⟨s, o, hs, ho, rfl⟩ := finish_eq_ok.mp h
  rw [← names] at hs ho
  exact ⟨_, Fold.bind_eq_ok.mpr ⟨plan', planned', finish_eq_ok.mpr ⟨s, o, hs, ho, rfl⟩⟩⟩

/-- A variant reads the derived triples of a body predicate. -/
theorem mem_bodyPreds_of_delta (h : compileRuleWithOneDeltaAtom ctx rule head i = .ok q)
    {item : FromItem} (mem : item ∈ q.from_) {p : TermId} (source : item.source = .delta p) :
    p ∈ rule.bodyPreds := by
  obtain ⟨plan, planned, h⟩ := Fold.bind_eq_ok.mp h
  obtain ⟨s, o, -, -, rfl⟩ := finish_eq_ok.mp h
  have known : ∀ item ∈ plan.from_, ∀ p, item.source = .delta p →
      p ∈ (positives rule.body).filterMap Atom.pred? := by
    refine Fold.foldlM_prefix (P := fun pre (plan : Plan) => ∀ item ∈ plan.from_, ∀ p,
      item.source = .delta p → p ∈ (positives pre).filterMap Atom.pred?) ?_ ?_ planned
    · intro item hitem
      cases hitem
    · intro pre l plan next earlier compiled item hitem p source
      rw [positives_append, List.filterMap_append, List.mem_append]
      cases l with
      | positive a =>
        simp only [variantLiteral] at compiled
        split at compiled
        · rename_i p' pred
          cases compiled
          obtain ⟨_, items⟩ :=
            from_addAtom ctx plan (if plan.nextAlias = i then .delta p' else .stored p') a []
          rw [items, List.mem_append, List.mem_singleton] at hitem
          refine hitem.imp (fun old => earlier item old p source) ?_
          rintro rfl
          simp only at source
          split at source
          · cases source
            exact List.mem_filterMap.mpr ⟨a, List.mem_singleton_self a, by simp [Atom.pred?, pred]⟩
          · cases source
        · cases compiled
      | negated a =>
        simp only [variantLiteral] at compiled
        split at compiled
        · cases compiled
          exact .inl (earlier item hitem p source)
        · cases compiled
      | _ =>
        cases compiled
        exact .inl (earlier item hitem p source)
  exact known item mem p source

variable {derived derived' : List TermId} {rules rules' : List Rule} {a b : Quad}

/-- A step of the engine is an application of a rule to a triple of a body predicate. -/
theorem exists_rule_of_step (h : (ruleEngine ctx derived rules).step a b) :
    ∃ r ∈ rules, r.headPred = some b.p ∧ a.p ∈ r.bodyPreds ∧
      (ruleEngine ctx derived [r]).step a b := by
  obtain ⟨stmt, mem, yields⟩ := h
  obtain ⟨r, hr, variants, compiled, q, hq, rfl⟩ := mem_variantStmts.mp mem
  obtain ⟨head, hasHead, pred, i, hi, hquery⟩ := (mem_compileRuleDeltaVariantsTo compiled).mp hq
  refine ⟨r, hr, by simp [Rule.headPred, hasHead, Atom.pred?, pred], ?_, .select q, ?_, yields⟩
  · -- the row at the position of the delta table can only be `a`
    have bound : i < r.positiveAtoms.length := List.mem_range.mp (List.mem_filter.mp hi).1
    obtain ⟨inside, only⟩ := deltaAt_of_compile bound hquery
    obtain ⟨env, henv, -⟩ := yields
    obtain ⟨rows, -⟩ := Query.mem_envs.mp henv
    obtain ⟨k, hk⟩ := Fold.exists_left_of_forall₂ rows (List.getElem_mem inside)
    cases source : q.from_[i].source with
    | delta p =>
      rw [source] at hk
      have same := List.mem_singleton.mp (mem_rows_delta.mp hk.2)
      have pred : p = a.p := congrArg Quad.p same
      rw [← pred]
      exact mem_bodyPreds_of_delta hquery (List.getElem_mem inside) source
    | stored p =>
      have isDelta := (only i inside).mpr rfl
      rw [source] at isDelta
      cases isDelta
    | temporal p filters =>
      have isDelta := (only i inside).mpr rfl
      rw [source] at isDelta
      cases isDelta
  · exact mem_variantStmts.mpr ⟨r, List.mem_singleton_self r, variants, compiled, q, hq, rfl⟩

theorem step_of_rule (hr : rule ∈ rules) (h : (ruleEngine ctx derived [rule]).step a b) :
    (ruleEngine ctx derived rules).step a b := by
  obtain ⟨stmt, mem, yields⟩ := h
  obtain ⟨r, mem, rest⟩ := mem_variantStmts.mp mem
  cases List.mem_singleton.mp mem
  exact ⟨stmt, mem_variantStmts.mpr ⟨rule, hr, rest⟩, yields⟩

theorem seed_of_subset (subset : ∀ r ∈ rules, r ∈ rules') :
    (ruleEngine ctx derived rules).seed ⊆ (ruleEngine ctx derived' rules').seed := by
  intro b ⟨stmt, mem, yields⟩
  obtain ⟨r, hr, compiled⟩ := mem_seedStmts.mp mem
  exact ⟨stmt, mem_seedStmts.mpr ⟨r, subset r hr, compiled⟩, yields⟩

/-- With more derived predicates in its body, a rule applies to no fewer triples. -/
theorem step_mono (more : ∀ p ∈ rule.bodyPreds, p ∈ derived → p ∈ derived')
    (h : (ruleEngine ctx derived [rule]).step a b) : (ruleEngine ctx derived' [rule]).step a b := by
  obtain ⟨stmt, mem, yields⟩ := h
  obtain ⟨r, hr, variants, compiled, q, hq, rfl⟩ := mem_variantStmts.mp mem
  cases List.mem_singleton.mp hr
  obtain ⟨head, hasHead, pred, i, hi, hquery⟩ := (mem_compileRuleDeltaVariantsTo compiled).mp hq
  obtain ⟨variants', compiled'⟩ : ∃ variants', compileRuleDeltaVariantsTo ctx rule derived' =
      .ok variants' := by
    simp only [compileRuleDeltaVariantsTo, hasHead, pred]
    refine Fold.exists_mapM fun j _ => ?_
    obtain ⟨q', hq'⟩ := exists_compileRuleWithOneDeltaAtom hquery j
    exact ⟨(b.p, q'), Fold.bind_eq_ok.mpr ⟨q', hq', rfl⟩⟩
  have position : i ∈ deltaPositions rule derived' := by
    obtain ⟨inside, isDerived⟩ := List.mem_filter.mp hi
    refine List.mem_filter.mpr ⟨inside, ?_⟩
    obtain ⟨p, found, isDerived⟩ := (Option.any_eq_true _ _).mp isDerived
    obtain ⟨atom, mem, pred⟩ := Option.bind_eq_some_iff.mp found
    refine (Option.any_eq_true _ _).mpr ⟨p, found, decide_eq_true ?_⟩
    refine more p ?_ (of_decide_eq_true isDerived)
    exact List.mem_filterMap.mpr ⟨atom, List.mem_of_getElem? mem, pred⟩
  refine ⟨.select q, ?_, yields⟩
  refine mem_variantStmts.mpr ⟨rule, hr, variants', compiled', q, ?_, rfl⟩
  exact (mem_compileRuleDeltaVariantsTo compiled').mpr ⟨head, hasHead, pred, i, position, hquery⟩

/-- The engine of some of the rules finds no more than that of all rules. -/
theorem stage_subset_of_rules (subset : ∀ r ∈ rules, r ∈ rules') (n : Nat) :
    (ruleEngine ctx (derivedPredIds rules) rules).stage n ⊆
      (ruleEngine ctx (derivedPredIds rules') rules').stage n := by
  refine Engine.stage_subset_stage (seed_of_subset subset) ?_ n
  intro a b step
  obtain ⟨r, hr, -, -, single⟩ := exists_rule_of_step step
  refine step_of_rule (subset r hr) (step_mono ?_ single)
  intro p _ hp
  obtain ⟨r', hr', head⟩ := mem_derivedPredIds.mp hp
  exact mem_derivedPredIds.mpr ⟨r', subset r' hr', head⟩

/-- Two rule sets with the same rules for a set of predicates that is closed under their bodies
derive the same triples of these predicates. -/
theorem stage_subset_of_closed {X : Set TermId}
    (same : ∀ r p, r.headPred = some p → p ∈ X → (r ∈ rules ↔ r ∈ rules'))
    (closed : ∀ r ∈ rules, ∀ p, r.headPred = some p → p ∈ X → ∀ b ∈ r.bodyPreds, b ∈ X) (n : Nat)
    (hb : b ∈ (ruleEngine ctx (derivedPredIds rules) rules).stage n) (inX : b.p ∈ X) :
    b ∈ (ruleEngine ctx (derivedPredIds rules') rules').stage n := by
  have derivedIff (p : TermId) (hp : p ∈ X) :
      p ∈ derivedPredIds rules ↔ p ∈ derivedPredIds rules' := by
    rw [mem_derivedPredIds, mem_derivedPredIds]
    refine exists_congr fun r => ?_
    constructor
    · exact fun ⟨hr, head⟩ => ⟨(same r p head hp).mp hr, head⟩
    · exact fun ⟨hr, head⟩ => ⟨(same r p head hp).mpr hr, head⟩
  refine Engine.stage_inter_subset_stage (G := {b : Quad | b.p ∈ X}) ?_ ?_ n ⟨hb, inX⟩
  · intro b ⟨⟨stmt, mem, yields⟩, inX⟩
    obtain ⟨r, hr, compiled⟩ := mem_seedStmts.mp mem
    obtain ⟨head, hasHead, pred, -⟩ := compileSingleRuleTo_eq_ok.mp compiled
    have headPred : r.headPred = some b.p := by simp [Rule.headPred, hasHead, Atom.pred?, pred]
    exact ⟨stmt, mem_seedStmts.mpr ⟨r, (same r b.p headPred inX).mp hr, compiled⟩, yields⟩
  · intro a b step inX
    obtain ⟨r, hr, head, body, single⟩ := exists_rule_of_step step
    have bodyX := closed r hr b.p head inX
    refine ⟨bodyX a.p body, step_of_rule ((same r b.p head inX).mp hr) ?_⟩
    exact step_mono (fun p hp => (derivedIff p (bodyX p hp)).mp) single

end Engines

/-- A rule after canonicalization. -/
def canonicalRule (ctx : Context) (r : Rule) : Rule :=
  if ctx.settings.sameasReasoning then rewriteRule (canonicalizeId ctx) r else r

theorem canonicalRules_eq_map (ctx : Context) (rules : List Rule) :
    canonicalRules ctx rules = rules.map (canonicalRule ctx) := by
  unfold canonicalRules canonicalRule
  split
  · rfl
  · exact (List.map_id rules).symm

/-- The stores show the same triples of these predicates. -/
def SameFacts (preds : List TermId) (st st' : Store) : Prop :=
  ∀ q, q.p ∈ preds → (st.Visible q ↔ st'.Visible q)

/-- Every rule that is relevant after canonicalization is kept. -/
def KeepsRelevant (ctx : Context) (rules : List Rule) (demandPreds : List TermId) : Prop :=
  ∀ r ∈ rules, canonicalRule ctx r ∈ demandedRules (canonicalRules ctx rules) demandPreds →
    r ∈ demandedRules rules demandPreds

instance (ctx : Context) (rules : List Rule) (demandPreds : List TermId) :
    Decidable (KeepsRelevant ctx rules demandPreds) :=
  inferInstanceAs (Decidable (∀ r ∈ rules, _))

section Runs

variable {env : Environment} {session : Session} {rules : List Rule} {demandPreds : List TermId}
  {st st₁ st₂ : Store} {report₁ report₂ : Report}

/-- The engine of the kept rules. -/
def demandEngine (env : Environment) (rules : List Rule) (demandPreds : List TermId) (st : Store) :
    Engine Quad :=
  innerEngine env (canonicalRules (env.context st) (demandedRules rules demandPreds)) st

/-- A triple of a demanded predicate that all rules derive, in a chain that begins with the
application of a dropped rule, is stored or is derived by the kept rules too. -/
def RecoversDropped (env : Environment) (rules : List Rule) (demandPreds : List TermId)
    (st : Store) : Prop :=
  let all := innerEngine env (canonicalRules (env.context st) rules) st
  let kept := demandEngine env rules demandPreds st
  ∀ k ≤ maxIterations - 1, ∀ a, Engine.Leaves all kept k a →
    ∀ b ∈ (all.from_ a).stage (maxIterations - 1 - k), b.p ∈ demandPreds →
      st.Visible b ∨ b ∈ kept.stage (maxIterations - 1)

theorem kept_subset {ctx : Context} {r : Rule}
    (hr : r ∈ canonicalRules ctx (demandedRules rules demandPreds)) :
    r ∈ canonicalRules ctx rules := by
  rw [canonicalRules_eq_map] at hr ⊢
  obtain ⟨r₀, hr₀, rfl⟩ := List.mem_map.mp hr
  exact List.mem_map_of_mem (List.mem_of_mem_filter hr₀)

/-- The predicates that are relevant after canonicalization have the same rules in both runs. -/
theorem mem_kept_iff {ctx : Context} (keeps : KeepsRelevant ctx rules demandPreds) (r : Rule)
    (p : TermId) (head : r.headPred = some p)
    (relevant : p ∈ findRelevantPredicates (canonicalRules ctx rules) demandPreds) :
    r ∈ canonicalRules ctx rules ↔ r ∈ canonicalRules ctx (demandedRules rules demandPreds) := by
  refine ⟨fun hr => ?_, kept_subset⟩
  have demanded : r ∈ demandedRules (canonicalRules ctx rules) demandPreds := by
    refine List.mem_filter.mpr ⟨hr, ?_⟩
    simp [head, relevant]
  rw [canonicalRules_eq_map] at hr
  obtain ⟨r₀, hr₀, rfl⟩ := List.mem_map.mp hr
  rw [canonicalRules_eq_map ctx (demandedRules rules demandPreds)]
  exact List.mem_map_of_mem (keeps r₀ hr₀ demanded)

/-- The evaluation of the rules that demand keeps shows the same triples of the demanded
predicates as that of all rules, if and only if what was derived by dropped rules is recovered.
It is if canonicalization makes no dropped rule relevant. -/
theorem demand_agrees_iff
    (full : runSeminaiveInner env session (canonicalRules (env.context st) rules) st =
      some (report₁, st₁))
    (kept : runSeminaiveInner env session
      (canonicalRules (env.context st) (demandedRules rules demandPreds)) st =
        some (report₂, st₂)) :
    (SameFacts demandPreds st₁ st₂ ↔ RecoversDropped env rules demandPreds st) ∧
      (KeepsRelevant (env.context st) rules demandPreds → SameFacts demandPreds st₁ st₂) := by
  let all := innerEngine env (canonicalRules (env.context st) rules) st
  have ends₁ (q : Quad) : st₁.Visible q ↔ st.Visible q ∨ q ∈ all.stage (maxIterations - 1) :=
    visible_runSeminaiveInner full
  have ends₂ (q : Quad) : st₂.Visible q ↔
      st.Visible q ∨ q ∈ (demandEngine env rules demandPreds st).stage (maxIterations - 1) :=
    visible_runSeminaiveInner kept
  have fewer : (demandEngine env rules demandPreds st).stage (maxIterations - 1) ⊆
      all.stage (maxIterations - 1) := stage_subset_of_rules (fun _ => kept_subset) _
  -- the kept rules derive no more, so only one inclusion is in question
  have oneSided : SameFacts demandPreds st₁ st₂ ↔
      all.stage (maxIterations - 1) ∩ {q | q.p ∈ demandPreds} ⊆
        {q | st.Visible q} ∪ (demandEngine env rules demandPreds st).stage (maxIterations - 1) := by
    constructor
    · intro same q ⟨hq, demanded⟩
      exact (ends₂ q).mp ((same q demanded).mp ((ends₁ q).mpr (.inr hq)))
    · intro subset q demanded
      rw [ends₁, ends₂]
      constructor
      · exact fun h => h.elim .inl fun derived => subset ⟨derived, demanded⟩
      · exact fun h => h.imp_right fun derived => fewer derived
  constructor
  · rw [oneSided]
    exact Engine.stage_inter_subset_iff fun q hq => .inr hq.1
  · intro keeps
    refine oneSided.mpr fun q ⟨hq, demanded⟩ => .inr ?_
    refine stage_subset_of_closed (mem_kept_iff keeps) ?_ _ hq
      (mem_findRelevantPredicates_of_demand demanded)
    intro r hr p head relevant b body
    exact mem_findRelevantPredicates_of_body hr head relevant body

end Runs

/-- `?x <12> ?y :- ?x <22> ?y .` -/
def otherRule : Rule :=
  ⟨some (edge "x" 12 "y"), [.positive (edge "x" 22 "y")], "?x <12> ?y :- ?x <22> ?y ."⟩

/-- Nothing is lost if the dropped rule is for another predicate. -/
theorem demand_agrees_copyRule :
    ∃ report₁ st₁ report₂ st₂,
      runSeminaiveInner .bare 0 (canonicalRules (Environment.bare.context
        (loaded [⟨101, 21, 102, 0⟩, ⟨101, 22, 102, 0⟩])) [copyRule, otherRule])
        (loaded [⟨101, 21, 102, 0⟩, ⟨101, 22, 102, 0⟩]) = some (report₁, st₁) ∧
      runSeminaiveInner .bare 0 (canonicalRules (Environment.bare.context
        (loaded [⟨101, 21, 102, 0⟩, ⟨101, 22, 102, 0⟩])) (demandedRules [copyRule, otherRule] [11]))
        (loaded [⟨101, 21, 102, 0⟩, ⟨101, 22, 102, 0⟩]) = some (report₂, st₂) ∧
      SameFacts [11] st₁ st₂ := by
  obtain ⟨⟨report₁, st₁⟩, full⟩ := Option.isSome_iff_exists.mp (by decide :
    (runSeminaiveInner .bare 0 (canonicalRules (Environment.bare.context
      (loaded [⟨101, 21, 102, 0⟩, ⟨101, 22, 102, 0⟩])) [copyRule, otherRule])
      (loaded [⟨101, 21, 102, 0⟩, ⟨101, 22, 102, 0⟩])).isSome = true)
  obtain ⟨⟨report₂, st₂⟩, kept⟩ := Option.isSome_iff_exists.mp (by decide :
    (runSeminaiveInner .bare 0 (canonicalRules (Environment.bare.context
      (loaded [⟨101, 21, 102, 0⟩, ⟨101, 22, 102, 0⟩])) (demandedRules [copyRule, otherRule] [11]))
      (loaded [⟨101, 21, 102, 0⟩, ⟨101, 22, 102, 0⟩])).isSome = true)
  refine ⟨report₁, st₁, report₂, st₂, full, kept, ?_⟩
  exact (demand_agrees_iff full kept).2 (by decide)

/-- The dropped rule is for a predicate that is the same as the demanded one. -/
theorem not_demand_agrees :
    ¬ ∀ (env : Environment) (session : Session) (rules : List Rule) (demandPreds : List TermId)
        (st st₁ st₂ : Store) (report₁ report₂ : Report), demandPreds ≠ [] →
      runSeminaiveInner env session (canonicalRules (env.context st) rules) st =
        some (report₁, st₁) →
      runSeminaiveInner env session (canonicalRules (env.context st)
        (demandedRules rules demandPreds)) st = some (report₂, st₂) →
      report₁.iterationCount < maxIterations → report₂.iterationCount < maxIterations →
      SameFacts demandPreds st₁ st₂ := by
  intro promised
  obtain ⟨report₁, st₁, full, early₁, derived⟩ : ∃ report₁ st₁,
      runSeminaiveInner .bare 0 (canonicalRules (Environment.bare.context
        (loaded [⟨11, 1, 12, 0⟩, ⟨101, 22, 102, 0⟩])) [copyRule, otherRule])
        (loaded [⟨11, 1, 12, 0⟩, ⟨101, 22, 102, 0⟩]) = some (report₁, st₁) ∧
      report₁.iterationCount < maxIterations ∧ st₁.Visible ⟨101, 11, 102, 0⟩ :=
    Fold.exists_of_any (by decide)
  obtain ⟨report₂, st₂, kept, early₂, missing⟩ : ∃ report₂ st₂,
      runSeminaiveInner .bare 0 (canonicalRules (Environment.bare.context
        (loaded [⟨11, 1, 12, 0⟩, ⟨101, 22, 102, 0⟩])) (demandedRules [copyRule, otherRule] [11]))
        (loaded [⟨11, 1, 12, 0⟩, ⟨101, 22, 102, 0⟩]) = some (report₂, st₂) ∧
      report₂.iterationCount < maxIterations ∧ ¬ st₂.Visible ⟨101, 11, 102, 0⟩ :=
    Fold.exists_of_any (by decide)
  have same := promised .bare 0 [copyRule, otherRule] [11] _ st₁ st₂ report₁ report₂
    (List.cons_ne_nil _ _) full kept early₁ early₂
  exact missing ((same ⟨101, 11, 102, 0⟩ (List.mem_singleton_self _)).mp derived)

end PgRipple.Datalog
