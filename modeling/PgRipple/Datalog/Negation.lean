import PgRipple.Datalog.Completeness
import PgRipple.Datalog.Soundness
import PgRipple.Datalog.Stratify

/-!
# What the drivers add under stratified negation

`run_inference_seminaive` evaluates all strata in one loop, and its statements test
negated atoms against the stored triples. Until the end of the loop these do not
include what the rules derive, so a negated atom can succeed although the completed
relation satisfies it.

For plain rules that is the only way in which a triple outside of the stratified
model can be added. `OnlyEarlyNegation` collects that case and the rows of the
other rules, for which nothing is known: rules rewritten by canonicalization, rules
with other literals, and the transitive closures that seed self-recursive rules.
-/

namespace PgRipple.Datalog

open Storage Inference

section Single

variable {ctx : Context} {rules : List Rule} {derived : List TermId} {delta : List Quad} {b : Quad}

theorem produces_seedStmts_iff :
    Produces ctx delta (seedStmts ctx rules) b ↔
      ∃ r ∈ rules, Produces ctx delta (seedStmts ctx [r]) b := by
  simp only [Produces, mem_seedStmts, List.mem_singleton]
  constructor
  · rintro ⟨stmt, ⟨r, hr, compiled⟩, yields⟩
    exact ⟨r, hr, stmt, ⟨r, rfl, compiled⟩, yields⟩
  · rintro ⟨r, hr, stmt, ⟨_, rfl, compiled⟩, yields⟩
    exact ⟨stmt, ⟨_, hr, compiled⟩, yields⟩

theorem produces_variantStmts_iff :
    Produces ctx delta (variantStmts ctx derived rules) b ↔
      ∃ r ∈ rules, Produces ctx delta (variantStmts ctx derived [r]) b := by
  simp only [Produces, mem_variantStmts, List.mem_singleton]
  constructor
  · rintro ⟨stmt, ⟨r, hr, compiled⟩, yields⟩
    exact ⟨r, hr, stmt, ⟨r, rfl, compiled⟩, yields⟩
  · rintro ⟨r, hr, stmt, ⟨_, rfl, compiled⟩, yields⟩
    exact ⟨stmt, ⟨_, hr, compiled⟩, yields⟩

variable {I : Interpretation} {r : Rule}

/-- The rows of the seed of a plain rule that is not self-recursive. -/
theorem instance_of_produces_seed (plain : r.Plain ctx.settings.ruleGraphScope)
    (same : I.scope = ctx.settings.ruleGraphScope)
    (nonrecursive : ∀ p, r.headPred = some p → r.isRecursive p = false)
    (h : Produces ctx delta (seedStmts ctx [r]) b) :
    ∃ ρ chosen, I.Instance r ctx.facts ρ chosen b ∧ ∀ c ∈ chosen, c ∈ ctx.facts := by
  obtain ⟨stmt, hstmt, yields⟩ := h
  obtain ⟨r', hr', compiled⟩ := mem_seedStmts.mp hstmt
  cases List.mem_singleton.mp hr'
  obtain ⟨head, hh, hp, _⟩ := compileSingleRuleTo_eq_ok.mp compiled
  have pred : r.headPred = some b.p := by simp [Rule.headPred, hh, Atom.pred?, hp]
  have inst := instance_of_seed (I := I) plain same compiled (nonrecursive b.p pred) yields
  rwa [Quad.key_quad] at inst

/-- The rows of the variants of a plain rule. -/
theorem instance_of_produces_variant {a : Quad} (plain : r.Plain ctx.settings.ruleGraphScope)
    (same : I.scope = ctx.settings.ruleGraphScope)
    (h : Produces ctx [a] (variantStmts ctx derived [r]) b) :
    ∃ ρ chosen, I.Instance r ctx.facts ρ chosen b ∧
      ∃ i ∈ deltaPositions r derived, chosen[i]? = some a ∧
        ∀ j c, j ≠ i → chosen[j]? = some c → c ∈ ctx.facts := by
  obtain ⟨stmt, hstmt, yields⟩ := h
  obtain ⟨r', hr', variants, compiled, q, hq, rfl⟩ := mem_variantStmts.mp hstmt
  cases List.mem_singleton.mp hr'
  obtain ⟨head, hh, hp, i, position, compiledOne⟩ := (mem_compileRuleDeltaVariantsTo compiled).mp hq
  obtain ⟨_, _, atom, _, _⟩ := mem_deltaPositions.mp position
  obtain ⟨bound, _⟩ := List.getElem?_eq_some_iff.mp atom
  obtain ⟨env, joined, selected⟩ := yields
  obtain ⟨ρ, chosen, inst, here, others⟩ :=
    instance_of_variant (I := I) plain same hh hp bound compiledOne joined selected
  rw [Quad.key_quad] at inst
  exact ⟨ρ, chosen, inst, i, position, here, others⟩

end Single

/-- Whatever could add a triple outside of the model, in one step from a triple of
`found`, adds triples of the model only. The model judges negated atoms in `N`. -/
structure OnlyEarlyNegation (I : Interpretation) (ctx : Context) (derived : List TermId)
    (active rules : List Rule) (N model found : Set Quad) : Prop where
  /-- A negated atom that the stored triples do not satisfy, but `N` does. -/
  early : ∀ r ∈ active, r ∈ rules → r.Plain ctx.settings.ruleGraphScope → ∀ ρ chosen q,
    I.Instance r ctx.facts ρ chosen q →
    AtHand ctx derived found r chosen →
    (∃ a, .negated a ∈ r.body ∧ ¬ I.LiteralHolds r N ρ (.negated a)) → q ∈ model
  /-- The seeds of other rules, and of self-recursive ones. -/
  otherSeeds : ∀ r ∈ active,
    ¬ (r ∈ rules ∧ r.Plain ctx.settings.ruleGraphScope ∧
      ∀ p, r.headPred = some p → r.isRecursive p = false) →
    ∀ b, Produces ctx [] (seedStmts ctx [r]) b → b ∈ model
  /-- The variants of other rules. -/
  otherVariants : ∀ r ∈ active, ¬ (r ∈ rules ∧ r.Plain ctx.settings.ruleGraphScope) →
    ∀ a ∈ found, ∀ b, Produces ctx [a] (variantStmts ctx derived [r]) b → b ∈ model

/-- Fewer steps are in question from fewer triples. -/
theorem OnlyEarlyNegation.mono {I : Interpretation} {ctx : Context} {derived : List TermId}
    {active rules : List Rule} {N model found found' : Set Quad} (le : found' ⊆ found)
    (h : OnlyEarlyNegation I ctx derived active rules N model found) :
    OnlyEarlyNegation I ctx derived active rules N model found' where
  early r hr inRules plain ρ chosen q inst atHand :=
    h.early r hr inRules plain ρ chosen q inst (atHand.mono le)
  otherSeeds := h.otherSeeds
  otherVariants r hr unknown a ha := h.otherVariants r hr unknown a (le ha)

section Sound

variable {ctx : Context} {I : Interpretation} {derived : List TermId} {active rules : List Rule}
  {N model : Set Quad} {n : Nat}

/-- The model contains the stored triples and is closed under the instances of plain
rules. -/
structure IsModel (I : Interpretation) (ctx : Context) (rules : List Rule) (N model : Set Quad) :
    Prop where
  facts : ctx.facts ⊆ model
  closed : ∀ r ∈ rules, r.Plain ctx.settings.ruleGraphScope → ∀ ρ chosen q,
    I.Instance r N ρ chosen q → (∀ b ∈ chosen, b ∈ model) → q ∈ model

/-- An instance that reads the stored triples stays within the model unless a negated
atom was judged too early. -/
theorem IsModel.mem_of_instance {r : Rule} {ρ : Valuation} {chosen : List Quad} {q : Quad}
    (h : IsModel I ctx rules N model) (hr : r ∈ rules)
    (plain : r.Plain ctx.settings.ruleGraphScope) (inst : I.Instance r ctx.facts ρ chosen q)
    (premises : ∀ b ∈ chosen, b ∈ model)
    (early : (∃ a, .negated a ∈ r.body ∧ ¬ I.LiteralHolds r N ρ (.negated a)) → q ∈ model) :
    q ∈ model := by
  by_cases tooEarly : ∃ a, .negated a ∈ r.body ∧ ¬ I.LiteralHolds r N ρ (.negated a)
  · exact early tooEarly
  · have holds : ∀ l ∈ r.body, I.LiteralHolds r N ρ l := by
      intro l hl
      obtain ⟨a, rfl⟩ | ⟨a, rfl⟩ := plain.isAtom l hl
      · trivial
      · by_contra fails
        exact tooEarly ⟨a, hl, fails⟩
    exact h.closed r hr plain ρ chosen q ⟨inst.head, inst.atoms, holds⟩ premises

/-- The engine stays within a model exactly under that condition. -/
theorem stage_subset_model_iff (same : I.scope = ctx.settings.ruleGraphScope)
    (h : IsModel I ctx rules N model) :
    (ruleEngine ctx derived active).stage n ⊆ model ↔
      OnlyEarlyNegation I ctx derived active rules N model
        (model ∩ foundBefore (ruleEngine ctx derived active) n) := by
  constructor
  · intro sound
    refine ⟨?_, ?_, ?_⟩
    · intro r hr _ plain ρ chosen q inst atHand _
      refine sound (mem_stage_of_atHand hr plain.toConjunctive same inst (fun _ => subset_rfl) ?_)
      refine atHand.imp_right ?_
      intro ⟨i, position, a, ha, here⟩
      exact ⟨i, position, a, ha.2, here⟩
    · intro r hr _ b produced
      refine sound (Engine.seed_subset_stage n ?_)
      exact produces_seedStmts_iff.mpr ⟨r, hr, produced⟩
    · intro r hr _ a ⟨_, k, lt, ha⟩ b produced
      refine sound (Engine.mem_stage_of_step lt ha ?_)
      exact produces_variantStmts_iff.mpr ⟨r, hr, produced⟩
  · intro cond
    refine Engine.stage_subset_iff.mpr ⟨?_, ?_⟩
    · intro b seed
      obtain ⟨r, hr, produced⟩ := produces_seedStmts_iff.mp seed
      by_cases known : r ∈ rules ∧ r.Plain ctx.settings.ruleGraphScope ∧
          ∀ p, r.headPred = some p → r.isRecursive p = false
      · obtain ⟨inRules, plain, nonrecursive⟩ := known
        obtain ⟨ρ, chosen, inst, stored⟩ :=
          instance_of_produces_seed plain same nonrecursive produced
        refine h.mem_of_instance inRules plain inst (fun b hb => h.facts (stored b hb)) ?_
        exact cond.early r hr inRules plain ρ chosen b inst (.inl ⟨nonrecursive, stored⟩)
      · exact cond.otherSeeds r hr known b produced
    · intro k lt a ha inModel b produced
      have within : a ∈ model ∩ foundBefore (ruleEngine ctx derived active) n :=
        ⟨inModel, k, lt, ha⟩
      obtain ⟨r, hr, produced⟩ := produces_variantStmts_iff.mp produced
      by_cases known : r ∈ rules ∧ r.Plain ctx.settings.ruleGraphScope
      · obtain ⟨inRules, plain⟩ := known
        obtain ⟨ρ, chosen, inst, i, position, here, others⟩ :=
          instance_of_produces_variant plain same produced
        refine h.mem_of_instance inRules plain inst ?_ ?_
        · intro c hc
          obtain ⟨j, hj, rfl⟩ := List.getElem_of_mem hc
          by_cases atI : j = i
          · subst atI
            rw [List.getElem?_eq_getElem hj] at here
            cases here
            exact inModel
          · exact h.facts (others j _ atI (List.getElem?_eq_getElem hj))
        · exact cond.early r hr inRules plain ρ chosen b inst
            (.inr ⟨i, position, a, within, here, others⟩)
      · exact cond.otherVariants r hr known a within b produced

/-- The stratified model judges negated atoms in itself. -/
theorem isModel_stratifiedModel {level : TermId → Nat} (strat : Stratification rules level) :
    IsModel I ctx rules (I.stratifiedModel rules level ctx.facts)
      (I.stratifiedModel rules level ctx.facts) where
  facts := Interpretation.facts_subset_stratifiedModel
  closed := by
    intro r hr plain ρ chosen q inst premises
    refine Interpretation.mem_stratifiedModel hr strat plain.preds inst ?_
    intro b ⟨a, pair, _⟩
    exact premises b (List.of_mem_zip pair).2

end Sound

/-- Everything that becomes visible belongs to the stratified model. -/
def AddsOnlyModel (I : Interpretation) (rules : List Rule) (level : TermId → Nat)
    (st st' : Store) : Prop :=
  ∀ q, st'.Visible q → ¬ st.Visible q → q ∈ I.stratifiedModel rules level {b | st.Visible b}

theorem plain_copyRule (scope : GraphScope) : copyRule.Plain scope where
  toConjunctive := by
    refine positive_copyRule.conjunctive ⟨_, rfl, ?_, ?_⟩ scope
    · exact ⟨_, List.mem_singleton_self _, .inl rfl⟩
    · exact ⟨_, List.mem_singleton_self _, .inr (.inl rfl)⟩
  linear := by
    intro a ha
    cases List.mem_singleton.mp ha
    exact ⟨by simp [edge], by simp [edge], by simp [edge]⟩

/-- `?x <11> ?y :- ?x <22> ?y, NOT ?x <12> ?y .` -/
def exceptRule : Rule :=
  ⟨some (edge "x" 11 "y"), [.positive (edge "x" 22 "y"), .negated (edge "x" 12 "y")],
    "?x <11> ?y :- ?x <22> ?y, NOT ?x <12> ?y ."⟩

/-- `?x <12> ?y :- ?x <21> ?y .` -/
def exceptionRule : Rule :=
  ⟨some (edge "x" 12 "y"), [.positive (edge "x" 21 "y")], "?x <12> ?y :- ?x <21> ?y ."⟩

/-- The level of the only rule with negation. -/
def exceptLevel (p : TermId) : Nat := if p = 11 then 1 else 0

theorem stratification_exceptRule : Stratification [exceptionRule, exceptRule] exceptLevel := by
  intro r hr h hh l hl
  simp only [List.mem_cons, List.not_mem_nil, or_false] at hr
  obtain rfl | rfl := hr
  · cases hh
    cases List.mem_singleton.mp hl
    intro p hp
    cases hp
    decide
  · cases hh
    simp only [exceptRule, List.mem_cons, List.not_mem_nil, or_false] at hl
    obtain rfl | rfl := hl
    · intro p hp
      cases hp
      decide
    · intro p hp
      cases hp
      decide

/-- The exception holds, so the stratified model does not have the default. -/
theorem not_mem_stratifiedModel_except {I : Interpretation} {facts : Set Quad}
    (exception : ⟨101, 21, 102, 0⟩ ∈ facts) (unstored : ⟨101, 11, 102, 0⟩ ∉ facts)
    (scope : I.scope = .all) :
    ⟨101, 11, 102, 0⟩ ∉ I.stratifiedModel [exceptionRule, exceptRule] exceptLevel facts := by
  have positive : exceptionRule.Positive := positive_of_edges rfl (by simp [exceptionRule])
  let ρ₀ : Valuation := fun v => if v = "x" then 101 else 102
  have derived : ⟨101, 12, 102, 0⟩ ∈
      I.stratifiedModel [exceptionRule, exceptRule] exceptLevel facts := by
    have inst : I.Instance exceptionRule
        (I.stratifiedModel [exceptionRule, exceptRule] exceptLevel facts) ρ₀ [⟨101, 21, 102, 0⟩]
        ⟨101, 12, 102, 0⟩ :=
      positive.instance ⟨_, rfl, rfl, rfl, rfl, rfl⟩
        (.cons ⟨rfl, rfl, rfl, fun h => nomatch scope.symm.trans h⟩ .nil)
    refine Interpretation.mem_stratifiedModel List.mem_cons_self stratification_exceptRule
      positive.constPreds inst ?_
    intro b hb
    have chosen := (Interpretation.mem_premises (positive.not_temporal I) inst).mp hb
    cases List.mem_singleton.mp chosen
    exact Interpretation.facts_subset_stratifiedModel exception
  intro ⟨n, hn⟩
  induction n with
  | zero => exact unstored hn
  | succ n ih =>
    cases hn with
    | base old => exact ih old
    | infer step _ =>
      obtain ⟨here, r, hr, ρ, chosen, inst, _⟩ := step
      have here : (1 : Nat) = n := here
      subst here
      simp only [List.mem_cons, List.not_mem_nil, or_false] at hr
      obtain rfl | rfl := hr
      · have pred := (inst.concludes rfl).p
        cases pred
      · -- the negated atom matches the exception, which is complete at this level
        have concludes := inst.concludes rfl
        have holds := inst.literals (.negated (edge "x" 12 "y")) (by simp [exceptRule])
        refine holds _ (Interpretation.mem_stratum_of_level derived Nat.zero_lt_one) ρ
          (fun _ _ => rfl) ⟨?_, rfl, ?_, fun h => nomatch scope.symm.trans h⟩
        · exact Option.some.inj concludes.s
        · exact Option.some.inj concludes.o

end PgRipple.Datalog
