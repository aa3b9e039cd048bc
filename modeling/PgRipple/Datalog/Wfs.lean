import PgRipple.Datalog.Negation

/-!
# Well-founded semantics

`run_wfs` hands stratifiable rule sets to semi-naive inference. For the others it
runs two passes into temporary tables: the first with the rules that have no negated
literal, the second with all rules. What the first pass finds is classified as
certain and materialised, what only the second finds is classified as unknown.

Both passes read negated atoms from the stored triples, so the second pass assumes
every derived triple to be false; the passes are never iterated. The well-founded
model is the alternating fixpoint. `ClassifiesExactly` compares the two classes with
it. `SettlesAtOnce` is the condition on rules and store under which one alternation
reaches the fixpoint and the statements of the two passes follow it.
-/

namespace PgRipple.Datalog

open Storage Inference

/-- The classes of derived triples. -/
structure Classification where
  certain : List Quad
  unknown : List Quad
  deriving DecidableEq, Repr

/-- The counters that `run_wfs` returns. -/
structure WfsReport where
  certainCount : Int
  unknownCount : Int
  totalDerived : Int
  iterations : Nat
  wasStratifiable : Bool
  deriving DecidableEq, Repr

/-- `rules_purely_positive`. -/
def rulesPurelyPositive (rules : List Rule) : List Rule :=
  rules.filter fun r => r.body.all fun
    | .negated _ => false
    | _ => true

/-- `run_rules_into_temp`: the rows of the temporary tables. -/
def runRulesIntoTemp (ctx : Context) (rules : List Rule) (derived : List TermId) :
    Option (List Quad) :=
  if rules.isEmpty || derived.isEmpty then some []
  else (evaluate ctx (seedStmts ctx rules) (variantStmts ctx derived rules)
    ctx.settings.wfsMaxIterations).map Prod.fst

/-- `wfs_non_stratifiable`. -/
def wfsNonStratifiable (env : Environment) (session : Session) (rules : List Rule) (st : Store) :
    Option (Classification × WfsReport × Store) :=
  let ctx := env.context st
  let derived := derivedPredIds rules
  if derived.isEmpty then some (⟨[], []⟩, ⟨0, 0, 0, 0, false⟩, st)
  else do
    let positive ← runRulesIntoTemp ctx (rulesPurelyPositive rules) derived
    let all ← runRulesIntoTemp ctx rules derived
    let unknown := all.filter fun q => q ∉ positive
    let (_, st) := materialise session derived positive st
    let certainCount : Int := positive.length
    let unknownCount : Int := unknown.length
    return (⟨positive, unknown⟩,
      ⟨certainCount, unknownCount, certainCount + unknownCount, 2, false⟩, st)

/-- `run_wfs`. For a stratifiable rule set everything that is derived is certain. -/
def runWfs (env : Environment) (session : Session) (rules : List Rule) (st : Store) :
    Option (Classification × WfsReport × Store) :=
  if rules.isEmpty then some (⟨[], []⟩, ⟨0, 0, 0, 0, true⟩, st)
  else
    let allRules := canonicalRules (env.context st) rules
    match stratify allRules with
    | .ok _ => do
      let (report, st') ← runInferenceSeminaive env session rules st
      let added := (st'.rare.rows.map RareRow.quad).filter fun q => ¬ st.rare.HasKey q
      return (⟨added, []⟩,
        ⟨report.totalDerived, 0, report.totalDerived, report.iterationCount, true⟩, st')
    | .error _ => wfsNonStratifiable env session allRules st

section Passes

variable {ctx : Context} {rules all : List Rule}

@[simp] theorem mem_rulesPurelyPositive {r : Rule} :
    r ∈ rulesPurelyPositive rules ↔ r ∈ rules ∧ ∀ a, .negated a ∉ r.body := by
  simp only [rulesPurelyPositive, List.mem_filter, List.all_eq_true]
  refine and_congr_right fun _ => ?_
  constructor
  · intro h a ha
    exact absurd (h _ ha) (by simp)
  · intro h l hl
    cases l with
    | negated a => exact absurd hl (h a)
    | _ => rfl

/-- A pass finds the stage of its iteration limit. -/
theorem mem_runRulesIntoTemp {found : List Quad} (subset : ∀ r ∈ rules, r ∈ all)
    (h : runRulesIntoTemp ctx rules (derivedPredIds all) = some found) (q : Quad) :
    q ∈ found ↔
      q ∈ (ruleEngine ctx (derivedPredIds all) rules).stage ctx.settings.wfsMaxIterations := by
  unfold runRulesIntoTemp at h
  split at h
  · rename_i empty
    cases h
    refine iff_of_false List.not_mem_nil ?_
    intro stage
    obtain ⟨r, hr, pred⟩ := headPred_of_mem_stage stage
    have mem := mem_derivedPredIds.mpr ⟨r, subset r hr, pred⟩
    rw [Bool.or_eq_true, List.isEmpty_iff, List.isEmpty_iff] at empty
    cases empty with
    | inl noRules => simp [noRules] at hr
    | inr noPreds => simp [noPreds] at mem
  · obtain ⟨⟨found', iterations⟩, evaluated, same⟩ := Option.map_eq_some_iff.mp h
    cases same
    exact mem_evaluate evaluated q

/-- The engine of the first pass. -/
def positiveEngine (ctx : Context) (rules : List Rule) : Engine Quad :=
  ruleEngine ctx (derivedPredIds rules) (rulesPurelyPositive rules)

/-- The engine of the second pass. -/
def fullEngine (ctx : Context) (rules : List Rule) : Engine Quad :=
  ruleEngine ctx (derivedPredIds rules) rules

/-- The second pass finds at least as much as the first. -/
theorem positiveEngine_stage_subset (n : Nat) :
    (positiveEngine ctx rules).stage n ⊆ (fullEngine ctx rules).stage n := by
  have subset (r : Rule) (hr : r ∈ rulesPurelyPositive rules) : r ∈ rules :=
    (mem_rulesPurelyPositive.mp hr).1
  refine Engine.stage_subset_stage ?_ ?_ n
  · intro b seed
    obtain ⟨r, hr, produced⟩ := produces_seedStmts_iff.mp seed
    exact produces_seedStmts_iff.mpr ⟨r, subset r hr, produced⟩
  · intro a b step
    obtain ⟨r, hr, produced⟩ := produces_variantStmts_iff.mp step
    exact produces_variantStmts_iff.mpr ⟨r, subset r hr, produced⟩

variable {env : Environment} {session : Session} {st st' : Store} {cls : Classification}
  {report : WfsReport} {e : String}

/-- The two classes in terms of the two engines. -/
theorem mem_wfsNonStratifiable
    (h : wfsNonStratifiable env session rules st = some (cls, report, st')) (q : Quad) :
    (q ∈ cls.certain ↔
      q ∈ (positiveEngine (env.context st) rules).stage env.settings.wfsMaxIterations) ∧
    (q ∈ cls.unknown ↔
      q ∈ (fullEngine (env.context st) rules).stage env.settings.wfsMaxIterations ∧
        q ∉ (positiveEngine (env.context st) rules).stage env.settings.wfsMaxIterations) := by
  unfold wfsNonStratifiable at h
  dsimp only at h
  split at h
  · rename_i empty
    cases h
    have nothing : q ∉ (fullEngine (env.context st) rules).stage env.settings.wfsMaxIterations := by
      intro stage
      obtain ⟨r, hr, pred⟩ := headPred_of_mem_stage stage
      have mem := mem_derivedPredIds.mpr ⟨r, hr, pred⟩
      rw [List.isEmpty_iff.mp empty] at mem
      cases mem
    refine ⟨iff_of_false List.not_mem_nil ?_, iff_of_false List.not_mem_nil ?_⟩
    · exact fun stage => nothing (positiveEngine_stage_subset _ stage)
    · exact fun both => nothing both.1
  · obtain ⟨positive, hpositive, h⟩ := Option.bind_eq_some_iff.mp h
    obtain ⟨all, hall, h⟩ := Option.bind_eq_some_iff.mp h
    cases h
    have first := mem_runRulesIntoTemp (fun r hr => (mem_rulesPurelyPositive.mp hr).1) hpositive q
    have second := mem_runRulesIntoTemp (fun r hr => hr) hall q
    refine ⟨first, ?_⟩
    rw [List.mem_filter, decide_eq_true_eq, first, second]
    rfl

/-- Rule sets that cannot be stratified go through the two passes. -/
theorem mem_runWfs (cyclic : stratify (canonicalRules (env.context st) rules) = .error e)
    (h : runWfs env session rules st = some (cls, report, st')) (q : Quad) :
    (q ∈ cls.certain ↔ q ∈ (positiveEngine (env.context st)
      (canonicalRules (env.context st) rules)).stage env.settings.wfsMaxIterations) ∧
    (q ∈ cls.unknown ↔
      q ∈ (fullEngine (env.context st)
          (canonicalRules (env.context st) rules)).stage env.settings.wfsMaxIterations ∧
        q ∉ (positiveEngine (env.context st)
          (canonicalRules (env.context st) rules)).stage env.settings.wfsMaxIterations) := by
  unfold runWfs at h
  split at h
  · rename_i empty
    rw [List.isEmpty_iff.mp empty, canonicalRules_nil] at cyclic
    cases cyclic
  · simp only [cyclic] at h
    exact mem_wfsNonStratifiable h q

end Passes

/-- The two classes are those of the well-founded model. A stored triple may be
derived again, but counts as derived only if it was not stored. -/
structure ClassifiesExactly (I : Interpretation) (rules : List Rule) (facts : Set Quad)
    (cls : Classification) : Prop where
  certain : ∀ q, q ∉ facts → (q ∈ cls.certain ↔ q ∈ I.wellFoundedTrue rules facts)
  unknown : ∀ q, q ∈ cls.unknown ↔ q ∈ I.wellFoundedUndefined rules facts
  neither : ∀ q, q ∉ facts → q ∉ cls.certain → q ∉ cls.unknown →
    q ∉ I.wellFoundedPossible rules facts

/-- With negation judged in `N`, the instances that the statements of a pass do not
perform conclude nothing that is neither stored nor found by it. -/
def PassMissesNothing (I : Interpretation) (ctx : Context) (derived : List TermId)
    (active rules : List Rule) (N : Set Quad) (n : Nat) : Prop :=
  ∀ r ∈ rules, ∀ ρ chosen q, I.Instance r N ρ chosen q →
    ¬ (r ∈ active ∧ r.Conjunctive ctx.settings.ruleGraphScope ∧
      AtHand ctx derived (foundBefore (ruleEngine ctx derived active) n) r chosen) →
    I.premises r chosen ⊆ I.leastModel rules N ctx.facts ∩
      (ctx.facts ∪ (ruleEngine ctx derived active).stage n) →
    q ∈ ctx.facts ∪ (ruleEngine ctx derived active).stage n

/-- The exact condition for two passes to replace the alternating fixpoint. -/
structure TwoPassesSuffice (I : Interpretation) (ctx : Context) (canonical rules : List Rule)
    (n : Nat) : Prop where
  /-- The first pass stays within the true triples. -/
  positiveSound : OnlyEarlyNegation I ctx (derivedPredIds canonical)
    (rulesPurelyPositive canonical) rules (I.wellFoundedPossible rules ctx.facts)
    (I.wellFoundedTrue rules ctx.facts)
    (I.wellFoundedTrue rules ctx.facts ∩ foundBefore (positiveEngine ctx canonical) n)
  /-- No true triple needs a rule with negation, or a premise that is not at hand. -/
  positiveComplete : PassMissesNothing I ctx (derivedPredIds canonical)
    (rulesPurelyPositive canonical) rules (I.wellFoundedPossible rules ctx.facts) n
  /-- The second pass, which takes derived triples to be false, finds no false triple. -/
  fullSound : OnlyEarlyNegation I ctx (derivedPredIds canonical) canonical rules
    (I.wellFoundedTrue rules ctx.facts) (I.wellFoundedPossible rules ctx.facts)
    (I.wellFoundedPossible rules ctx.facts ∩ foundBefore (fullEngine ctx canonical) n)
  fullComplete : PassMissesNothing I ctx (derivedPredIds canonical) canonical rules
    (I.wellFoundedTrue rules ctx.facts) n
  /-- A stored triple that the second pass reaches through a rule with negation is also
  found by the first. -/
  storedCertain : ∀ k ≤ n, ∀ a, Engine.Leaves (fullEngine ctx canonical)
    (positiveEngine ctx canonical) k a →
    ∀ b ∈ ((fullEngine ctx canonical).from_ a).stage (n - k), b ∈ ctx.facts →
      b ∈ (positiveEngine ctx canonical).stage n

/-- Chains of instances of `active`, with negation judged in the stored triples. The first has
stored premises and a rule that is not self-recursive; each further one needs the triple before
it, at a body position of a derived predicate, and stored triples. -/
def coveredChains (I : Interpretation) (ctx : Context) (derived : List TermId)
    (active : List Rule) : Engine Quad where
  seed := {q | ∃ r ∈ active, r.Conjunctive ctx.settings.ruleGraphScope ∧ ∃ ρ chosen,
    I.Instance r ctx.facts ρ chosen q ∧ AtHand ctx derived ∅ r chosen}
  step a q := ∃ r ∈ active, r.Conjunctive ctx.settings.ruleGraphScope ∧ ∃ ρ chosen,
    I.Instance r ctx.facts ρ chosen q ∧ AtHand ctx derived {a} r chosen

/-- The triples that need no negation. -/
def Interpretation.unconditional (I : Interpretation) (rules : List Rule) (facts : Set Quad) :
    Set Quad :=
  I.leastModel (rulesPurelyPositive rules) ∅ facts

/-- The triples that follow if negation is judged in the stored triples. -/
def Interpretation.conceivable (I : Interpretation) (rules : List Rule) (facts : Set Quad) :
    Set Quad :=
  I.leastModel rules facts facts

/-- The alternating fixpoint ends with the first pair of sets, chains of covered instances follow
it within `n` steps, and rows of other statements stay within. -/
structure SettlesAtOnce (I : Interpretation) (ctx : Context) (canonical rules : List Rule)
    (n : Nat) : Prop where
  certain : I.leastModel rules (I.conceivable rules ctx.facts) ctx.facts ⊆
    I.unconditional rules ctx.facts
  possible : I.conceivable rules ctx.facts ⊆
    I.leastModel rules (I.unconditional rules ctx.facts) ctx.facts
  certainFound : I.unconditional rules ctx.facts ⊆ ctx.facts ∪
    (coveredChains I ctx (derivedPredIds canonical) (rulesPurelyPositive canonical)).stage n
  possibleFound : I.conceivable rules ctx.facts ⊆ ctx.facts ∪
    (coveredChains I ctx (derivedPredIds canonical) canonical).stage n
  certainRows : OnlyEarlyNegation I ctx (derivedPredIds canonical)
    (rulesPurelyPositive canonical) rules (I.conceivable rules ctx.facts)
    (I.unconditional rules ctx.facts) (I.unconditional rules ctx.facts)
  possibleRows : OnlyEarlyNegation I ctx (derivedPredIds canonical) canonical rules ctx.facts
    (I.conceivable rules ctx.facts) (I.conceivable rules ctx.facts)
  /-- Stored triples of derived predicates are derived without negation as well. -/
  storedCertain : ∀ b ∈ ctx.facts, b.p ∈ derivedPredIds canonical →
    b ∈ (coveredChains I ctx (derivedPredIds canonical) (rulesPurelyPositive canonical)).stage n

section Compare

variable {I : Interpretation} {ctx : Context} {derived : List TermId} {active rules : List Rule}
  {N : Set Quad} {n : Nat}

/-- A pass finds a least model exactly if it misses nothing. -/
theorem leastModel_subset_stage_iff (same : I.scope = ctx.settings.ruleGraphScope)
    (stored : ctx.facts ⊆ N) :
    I.leastModel rules N ctx.facts ⊆ ctx.facts ∪ (ruleEngine ctx derived active).stage n ↔
      PassMissesNothing I ctx derived active rules N n := by
  constructor
  · intro complete r hr ρ chosen q inst _ premises
    refine complete (mem_least_of_infer ⟨r, hr, ρ, chosen, inst, rfl⟩ ?_)
    exact fun b hb => (premises hb).1
  · intro others
    refine least_subset_iff.mpr ⟨Set.subset_union_left, ?_⟩
    rintro P q ⟨r, hr, ρ, chosen, inst, rfl⟩ premises
    by_cases performed : r ∈ active ∧ r.Conjunctive ctx.settings.ruleGraphScope ∧
        AtHand ctx derived (foundBefore (ruleEngine ctx derived active) n) r chosen
    · obtain ⟨hactive, conj, atHand⟩ := performed
      exact .inr (mem_stage_of_atHand hactive conj same inst (fun _ => stored) atHand)
    · exact others r hr ρ chosen q inst performed premises

theorem isModel_leastModel (N : Set Quad) :
    IsModel I ctx rules N (I.leastModel rules N ctx.facts) where
  facts := base_subset_least
  closed := by
    intro r hr _ ρ chosen q inst premises
    refine mem_least_of_infer ⟨r, hr, ρ, chosen, inst, rfl⟩ ?_
    intro b ⟨a, pair, _⟩
    exact premises b (List.of_mem_zip pair).2

/-- The true triples are a model relative to the possible ones, and the other way
round. -/
theorem isModel_wellFoundedTrue (normal : ∀ r ∈ rules, r.Normal) :
    IsModel I ctx rules (I.wellFoundedPossible rules ctx.facts)
      (I.wellFoundedTrue rules ctx.facts) := by
  have isModel : IsModel I ctx rules (I.wellFoundedPossible rules ctx.facts) _ :=
    isModel_leastModel (I.wellFoundedPossible rules ctx.facts)
  rwa [Interpretation.leastModel_wellFoundedPossible normal] at isModel

theorem twoPassesSuffice_iff {canonical : List Rule}
    (same : I.scope = ctx.settings.ruleGraphScope) (normal : ∀ r ∈ rules, r.Normal) :
    (((positiveEngine ctx canonical).stage n ⊆ I.wellFoundedTrue rules ctx.facts ∧
        I.wellFoundedTrue rules ctx.facts ⊆ ctx.facts ∪ (positiveEngine ctx canonical).stage n) ∧
      ((fullEngine ctx canonical).stage n ⊆ I.wellFoundedPossible rules ctx.facts ∧
        I.wellFoundedPossible rules ctx.facts ⊆ ctx.facts ∪ (fullEngine ctx canonical).stage n) ∧
      (fullEngine ctx canonical).stage n ∩ ctx.facts ⊆ (positiveEngine ctx canonical).stage n) ↔
    TwoPassesSuffice I ctx canonical rules n := by
  have trueModel : IsModel I ctx rules _ _ := isModel_wellFoundedTrue normal
  have possibleModel : IsModel I ctx rules (I.wellFoundedTrue rules ctx.facts)
      (I.wellFoundedPossible rules ctx.facts) := isModel_leastModel _
  have soundFirst :
      (positiveEngine ctx canonical).stage n ⊆ I.wellFoundedTrue rules ctx.facts ↔ _ :=
    stage_subset_model_iff same trueModel
  have soundSecond : (fullEngine ctx canonical).stage n ⊆
      I.wellFoundedPossible rules ctx.facts ↔ _ := stage_subset_model_iff same possibleModel
  have completeFirst : I.wellFoundedTrue rules ctx.facts ⊆
      ctx.facts ∪ (positiveEngine ctx canonical).stage n ↔
        PassMissesNothing I ctx (derivedPredIds canonical) (rulesPurelyPositive canonical) rules
          (I.wellFoundedPossible rules ctx.facts) n := by
    rw [← Interpretation.leastModel_wellFoundedPossible normal]
    exact leastModel_subset_stage_iff same possibleModel.facts
  have completeSecond : I.wellFoundedPossible rules ctx.facts ⊆
      ctx.facts ∪ (fullEngine ctx canonical).stage n ↔ _ :=
    leastModel_subset_stage_iff same trueModel.facts
  have stored := Engine.stage_inter_subset_iff (E := fullEngine ctx canonical) (n := n)
    (G := ctx.facts) (Set.inter_subset_left (s := (positiveEngine ctx canonical).stage n))
  rw [soundFirst, soundSecond, completeFirst, completeSecond, stored]
  constructor
  · intro ⟨⟨positiveSound, positiveComplete⟩, ⟨fullSound, fullComplete⟩, storedCertain⟩
    exact ⟨positiveSound, positiveComplete, fullSound, fullComplete, storedCertain⟩
  · intro h
    exact ⟨⟨h.positiveSound, h.positiveComplete⟩, ⟨h.fullSound, h.fullComplete⟩, h.storedCertain⟩

variable {facts certain full : Set Quad} {cls : Classification}

/-- The classes are right exactly if the two passes find the true and the possible
triples, and no stored triple only in the second pass. -/
theorem classifiesExactly_iff (normal : ∀ r ∈ rules, r.Normal) (le : certain ⊆ full)
    (hcertain : ∀ q, q ∈ cls.certain ↔ q ∈ certain)
    (hunknown : ∀ q, q ∈ cls.unknown ↔ q ∈ full ∧ q ∉ certain) :
    ClassifiesExactly I rules facts cls ↔
      (certain ⊆ I.wellFoundedTrue rules facts ∧
        I.wellFoundedTrue rules facts ⊆ facts ∪ certain) ∧
      (full ⊆ I.wellFoundedPossible rules facts ∧
        I.wellFoundedPossible rules facts ⊆ facts ∪ full) ∧ full ∩ facts ⊆ certain := by
  have possible : I.wellFoundedTrue rules facts ⊆ I.wellFoundedPossible rules facts :=
    Interpretation.wellFoundedTrue_subset_possible normal
  have isTrue : facts ⊆ I.wellFoundedTrue rules facts := by
    rw [← Interpretation.leastModel_wellFoundedPossible normal]
    exact base_subset_least
  constructor
  · intro h
    have sound : certain ⊆ I.wellFoundedTrue rules facts := by
      intro q hq
      by_cases stored : q ∈ facts
      · exact isTrue stored
      · exact (h.certain q stored).mp ((hcertain q).mpr hq)
    have complete : I.wellFoundedTrue rules facts ⊆ facts ∪ certain := by
      intro q hq
      by_cases stored : q ∈ facts
      · exact .inl stored
      · exact .inr ((hcertain q).mp ((h.certain q stored).mpr hq))
    refine ⟨⟨sound, complete⟩, ⟨?_, ?_⟩, ?_⟩
    · intro q hq
      by_cases found : q ∈ certain
      · exact possible (sound found)
      · exact ((h.unknown q).mp ((hunknown q).mpr ⟨hq, found⟩)).1
    · intro q hq
      by_cases holds : q ∈ I.wellFoundedTrue rules facts
      · exact (complete holds).imp_right fun found => le found
      · exact .inr ((hunknown q).mp ((h.unknown q).mpr ⟨hq, holds⟩)).1
    · intro q ⟨hq, stored⟩
      by_contra missing
      exact ((h.unknown q).mp ((hunknown q).mpr ⟨hq, missing⟩)).2 (isTrue stored)
  · intro ⟨⟨sound, complete⟩, ⟨fullSound, fullComplete⟩, storedCertain⟩
    have undefined (q : Quad) : q ∈ cls.unknown ↔ q ∈ I.wellFoundedUndefined rules facts := by
      rw [hunknown]
      constructor
      · intro ⟨hq, missing⟩
        refine ⟨fullSound hq, ?_⟩
        intro holds
        exact missing ((complete holds).elim (fun stored => storedCertain ⟨hq, stored⟩) id)
      · intro ⟨hq, notTrue⟩
        refine ⟨(fullComplete hq).resolve_left fun stored => notTrue (isTrue stored), ?_⟩
        exact fun found => notTrue (sound found)
    have decided (q : Quad) (unstored : q ∉ facts) :
        q ∈ cls.certain ↔ q ∈ I.wellFoundedTrue rules facts := by
      rw [hcertain]
      exact ⟨fun hq => sound hq, fun holds => (complete holds).resolve_left unstored⟩
    refine ⟨decided, undefined, ?_⟩
    intro q unstored notCertain notUnknown hq
    have notTrue := fun holds => notCertain ((decided q unstored).mpr holds)
    exact notUnknown ((undefined q).mpr ⟨hq, notTrue⟩)

/-- The rows of a pass include the chains of covered instances. -/
theorem coveredChains_stage_subset (same : I.scope = ctx.settings.ruleGraphScope) :
    (coveredChains I ctx derived active).stage n ⊆ (ruleEngine ctx derived active).stage n := by
  have conclude {found : Set Quad} {q : Quad} (covered : ∃ r ∈ active,
      r.Conjunctive ctx.settings.ruleGraphScope ∧ ∃ ρ chosen,
        I.Instance r ctx.facts ρ chosen q ∧ AtHand ctx derived found r chosen) :
      q ∈ (ruleEngine ctx derived active).seed ∨
        ∃ a ∈ found, (ruleEngine ctx derived active).step a q := by
    obtain ⟨r, hr, conj, ρ, chosen, inst, atHand⟩ := covered
    exact produces_of_atHand hr conj same inst (fun _ => subset_rfl) atHand
  induction n with
  | zero =>
    intro q seed
    exact (conclude seed).resolve_right fun ⟨a, ha, _⟩ => ha
  | succ n ih =>
    intro q hq
    obtain old | ⟨a, ha, step⟩ := Engine.mem_stage_succ.mp hq
    · exact Engine.stage_subset_succ n (ih old)
    · cases conclude step with
      | inl seed => exact Engine.seed_subset_stage _ seed
      | inr row =>
        obtain ⟨_, rfl, row⟩ := row
        exact Engine.mem_stage_of_step (Nat.lt_succ_self n) (ih ha) row

/-- Rules without negation conclude the same wherever negation is judged. -/
theorem unconditional_subset (normal : ∀ r ∈ rules, r.Normal) (N facts : Set Quad) :
    I.unconditional rules facts ⊆ I.leastModel rules N facts := by
  refine least_mono subset_rfl ?_
  rintro P q ⟨r, hr, ρ, chosen, inst, rfl⟩
  obtain ⟨inRules, noNegation⟩ := mem_rulesPurelyPositive.mp hr
  refine ⟨r, inRules, ρ, chosen, ⟨inst.head, inst.atoms, ?_⟩, rfl⟩
  intro l hl
  have holds := inst.literals l hl
  cases l with
  | negated a => exact absurd hl (noNegation a)
  | aggregate a => exact absurd hl (normal r inRules a)
  | _ => exact holds

namespace SettlesAtOnce

variable {canonical : List Rule}

/-- The true triples need no negation. -/
theorem wellFoundedTrue_eq (normal : ∀ r ∈ rules, r.Normal)
    (h : SettlesAtOnce I ctx canonical rules n) :
    I.wellFoundedTrue rules ctx.facts = I.unconditional rules ctx.facts := by
  have conceivable : I.leastModel rules (I.unconditional rules ctx.facts) ctx.facts =
      I.conceivable rules ctx.facts := by
    refine subset_antisymm (Interpretation.leastModel_anti normal base_subset_least) h.possible
  refine subset_antisymm ?_ ?_
  · intro q hq
    refine hq _ ?_
    rw [conceivable]
    exact h.certain
  · intro q hq S closed
    exact closed (unconditional_subset normal _ _ hq)

theorem wellFoundedPossible_eq (normal : ∀ r ∈ rules, r.Normal)
    (h : SettlesAtOnce I ctx canonical rules n) :
    I.wellFoundedPossible rules ctx.facts = I.conceivable rules ctx.facts := by
  rw [Interpretation.wellFoundedPossible, h.wellFoundedTrue_eq normal]
  exact subset_antisymm (Interpretation.leastModel_anti normal base_subset_least) h.possible

/-- Two passes suffice when the alternating fixpoint settles at once. -/
theorem twoPassesSuffice (same : I.scope = ctx.settings.ruleGraphScope)
    (normal : ∀ r ∈ rules, r.Normal) (h : SettlesAtOnce I ctx canonical rules n) :
    TwoPassesSuffice I ctx canonical rules n := by
  have followsFirst : (coveredChains I ctx (derivedPredIds canonical)
      (rulesPurelyPositive canonical)).stage n ⊆ (positiveEngine ctx canonical).stage n :=
    coveredChains_stage_subset same
  have followsSecond : (coveredChains I ctx (derivedPredIds canonical) canonical).stage n ⊆
      (fullEngine ctx canonical).stage n := coveredChains_stage_subset same
  have trueModel : IsModel I ctx rules _ _ := isModel_wellFoundedTrue normal
  rw [h.wellFoundedPossible_eq normal, h.wellFoundedTrue_eq normal] at trueModel
  refine (twoPassesSuffice_iff same normal).mp ?_
  rw [h.wellFoundedTrue_eq normal, h.wellFoundedPossible_eq normal]
  refine ⟨⟨?_, ?_⟩, ⟨?_, ?_⟩, ?_⟩
  · exact (stage_subset_model_iff same trueModel).mpr (h.certainRows.mono Set.inter_subset_left)
  · exact h.certainFound.trans (Set.union_subset_union_right _ followsFirst)
  · exact (stage_subset_model_iff same (isModel_leastModel ctx.facts)).mpr
      (h.possibleRows.mono Set.inter_subset_left)
  · exact h.possibleFound.trans (Set.union_subset_union_right _ followsSecond)
  · intro b ⟨found, stored⟩
    obtain ⟨r, hr, pred⟩ := headPred_of_mem_stage found
    exact followsFirst (h.storedCertain b stored (mem_derivedPredIds.mpr ⟨r, hr, pred⟩))

end SettlesAtOnce

end Compare

/-- `?x <11> ?y :- ?x <21> ?y, NOT ?x <11> ?y .` -/
def liarRule : Rule :=
  ⟨some (edge "x" 11 "y"), [.positive (edge "x" 21 "y"), .negated (edge "x" 11 "y")],
    "?x <11> ?y :- ?x <21> ?y, NOT ?x <11> ?y ."⟩

section Liar

variable {I : Interpretation} {facts N : Set Quad} {ρ : Valuation} {chosen : List Quad} {q : Quad}

theorem plain_liarRule : liarRule.Plain .all where
  body := ⟨[edge "x" 11 "y"], rfl⟩
  preds := ⟨rfl, by simp [liarRule, edge, Atom.pred?]⟩
  negatable := by
    intro a ha
    obtain rfl : a = edge "x" 11 "y" := by simpa [liarRule] using ha
    refine ⟨?_, rfl, rfl⟩
    intro v hv
    exact ⟨_, List.mem_singleton_self _, hv.imp_right .inl⟩
  head := ⟨_, rfl, rfl, ⟨_, List.mem_singleton_self _, .inl rfl⟩,
    ⟨_, List.mem_singleton_self _, .inr (.inl rfl)⟩⟩
  linear := by
    intro a ha
    cases List.mem_singleton.mp ha
    exact ⟨by simp [edge], by simp [edge], by simp [edge]⟩

/-- An instance has one premise, and the rule denies its own conclusion. -/
theorem instance_liarRule (inst : I.Instance liarRule N ρ chosen q) (scope : I.scope = .all) :
    q.p = 11 ∧ q ∉ N ∧ ∃ b, chosen = [b] ∧ I.premises liarRule chosen = {b} ∧ b.p = 21 := by
  have concludes := inst.concludes rfl
  refine ⟨(Option.some.inj concludes.p).symm, ?_, ?_⟩
  · intro hq
    have denied := inst.literals (.negated (edge "x" 11 "y")) (by simp [liarRule])
    refine denied q hq ρ (fun _ _ => rfl) ⟨?_, ?_, ?_, fun h => nomatch scope.symm.trans h⟩
    · exact Option.some.inj concludes.s
    · exact Option.some.inj concludes.p
    · exact Option.some.inj concludes.o
  · have atoms : List.Forall₂ (I.AtomMatches liarRule ρ) [edge "x" 21 "y"] chosen := inst.atoms
    cases atoms with
    | cons isMatch rest =>
      cases rest
      refine ⟨_, rfl, Set.ext fun c => ?_, Interpretation.pred_of_matches isMatch.1 rfl⟩
      have timeless (a : Atom) : ¬ I.Temporal liarRule a := fun temporal => temporal.1 rfl
      rw [Interpretation.mem_premises timeless inst, List.mem_singleton, Set.mem_singleton_iff]

/-- Without triples of the head predicate, negation does not matter. -/
theorem Interpretation.Instance.liarRule_of_no_head (inst : I.Instance liarRule N ρ chosen q)
    {N' : Set Quad} (none : ∀ b ∈ N', b.p ≠ 11) : I.Instance liarRule N' ρ chosen q := by
  refine ⟨inst.head, inst.atoms, ?_⟩
  intro l hl
  simp only [liarRule, List.mem_cons, List.not_mem_nil, or_false] at hl
  obtain rfl | rfl := hl
  · trivial
  · intro b hb ρ' _ isMatch
    exact none b hb (Interpretation.pred_of_matches isMatch rfl)

/-- One alternation settles the rule that denies its own conclusion: nothing is derived without
negation. -/
theorem settlesAtOnce_liarRule {ctx : Context} {n : Nat}
    (same : I.scope = ctx.settings.ruleGraphScope) (scope : I.scope = .all)
    (none : ∀ b ∈ ctx.facts, b.p ≠ 11) : SettlesAtOnce I ctx [liarRule] [liarRule] n := by
  have plain : liarRule.Plain ctx.settings.ruleGraphScope := by
    rw [← same, scope]
    exact plain_liarRule
  have nonrecursive : ∀ p, liarRule.headPred = some p → liarRule.isRecursive p = false := by
    rintro p ⟨⟩
    decide
  have positive : rulesPurelyPositive [liarRule] = [] := by decide
  have unconditional : I.unconditional [liarRule] ctx.facts ⊆ ctx.facts := by
    refine least_subset subset_rfl ?_
    rintro P q ⟨r, hr, -⟩ -
    rw [positive] at hr
    cases hr
  -- the premise of an instance has a predicate that no rule derives
  have stored {N facts : Set Quad} {ρ chosen q} (inst : I.Instance liarRule N ρ chosen q)
      (premises : I.premises liarRule chosen ⊆ I.leastModel [liarRule] N facts) :
      ∀ b ∈ chosen, b ∈ facts := by
    obtain ⟨_, _, b, rfl, same, pred⟩ := instance_liarRule inst scope
    rw [same, Set.singleton_subset_iff] at premises
    intro c hc
    cases List.mem_singleton.mp hc
    refine mem_facts_of_underived ?_ premises
    intro r hr
    cases List.mem_singleton.mp hr
    exact ⟨rfl, by simp [liarRule, edge, Rule.headPred, Atom.pred?, pred]⟩
  refine ⟨?_, ?_, ?_, ?_, ?_, ?_, ?_⟩
  · refine least_subset base_subset_least ?_
    rintro P q ⟨r, hr, ρ, chosen, inst, rfl⟩ premises
    cases List.mem_singleton.mp hr
    have follows : I.premises liarRule chosen ⊆ I.conceivable [liarRule] ctx.facts :=
      premises.trans (unconditional.trans base_subset_least)
    refine absurd ?_ (instance_liarRule inst scope).2.1
    exact mem_least_of_infer ⟨_, hr, ρ, chosen, inst.liarRule_of_no_head none, rfl⟩ follows
  · refine least_mono subset_rfl ?_
    rintro P q ⟨r, hr, ρ, chosen, inst, rfl⟩
    cases List.mem_singleton.mp hr
    refine ⟨_, hr, ρ, chosen, inst.liarRule_of_no_head ?_, rfl⟩
    exact fun b hb => none b (unconditional hb)
  · exact unconditional.trans Set.subset_union_left
  · refine least_subset_iff.mpr ⟨Set.subset_union_left, ?_⟩
    rintro P q ⟨r, hr, ρ, chosen, inst, rfl⟩ premises
    cases List.mem_singleton.mp hr
    refine .inr (Engine.seed_subset_stage n ⟨_, hr, plain.toConjunctive, ρ, chosen, inst, ?_⟩)
    exact .inl ⟨nonrecursive, stored inst fun b hb => (premises hb).1⟩
  · rw [positive]
    constructor <;> exact fun _ hr => absurd hr List.not_mem_nil
  · refine ⟨?_, ?_, ?_⟩
    · rintro r hr - - ρ chosen q inst - ⟨a, ha, denied⟩
      exact absurd (inst.literals _ ha) denied
    · intro r hr unknown
      cases List.mem_singleton.mp hr
      exact absurd ⟨hr, plain, nonrecursive⟩ unknown
    · intro r hr unknown
      cases List.mem_singleton.mp hr
      exact absurd ⟨hr, plain⟩ unknown
  · intro b hb derived
    have preds : derivedPredIds [liarRule] = [11] := by decide
    rw [preds, List.mem_singleton] at derived
    exact absurd derived (none b hb)

end Liar

/-- A rule with negation that depends on no cycle, beside a rule that does. -/
def mixedRules : List Rule := [exceptRule, liarRule]

/-- Nothing of predicate `12` is possible when none is stored. -/
theorem wellFoundedPossible_mixedRules {I : Interpretation} {facts : Set Quad}
    (none : ∀ b ∈ facts, b.p ≠ 12) : ∀ b ∈ I.wellFoundedPossible mixedRules facts, b.p ≠ 12 := by
  have all : I.wellFoundedPossible mixedRules facts ⊆ {b : Quad | b.p ≠ 12} := by
    refine least_subset none ?_
    rintro P b ⟨r, hr, ρ, chosen, inst, -⟩ -
    have pred : b.p = 11 := by
      simp only [mixedRules, List.mem_cons, List.not_mem_nil, or_false] at hr
      obtain rfl | rfl := hr
      · exact (Option.some.inj (inst.concludes rfl).p).symm
      · exact (Option.some.inj (inst.concludes rfl).p).symm
    rw [Set.mem_ofPred_eq, pred]
    decide
  exact fun b hb => all hb

/-- The default holds, as its exception is false. -/
theorem mem_wellFoundedTrue_mixedRules {I : Interpretation} {facts : Set Quad}
    (scope : I.scope = .all) (none : ∀ b ∈ facts, b.p ≠ 12) (stored : ⟨101, 22, 102, 0⟩ ∈ facts)
    (normal : ∀ r ∈ mixedRules, r.Normal) :
    ⟨101, 11, 102, 0⟩ ∈ I.wellFoundedTrue mixedRules facts := by
  rw [← Interpretation.leastModel_wellFoundedPossible normal]
  let ρ : Valuation := fun v => if v = "x" then 101 else 102
  have isMatch : (edge "x" 22 "y").Matches I.scope ρ ⟨101, 22, 102, 0⟩ :=
    ⟨rfl, rfl, rfl, by simp [scope, Term.AcceptsGraph, edge]⟩
  have inst : I.Instance exceptRule (I.wellFoundedPossible mixedRules facts) ρ
      [⟨101, 22, 102, 0⟩] ⟨101, 11, 102, 0⟩ := by
    refine ⟨⟨_, rfl, rfl, rfl, rfl, rfl⟩, .cons ⟨isMatch, fun temporal => absurd rfl temporal.1⟩
      .nil, ?_⟩
    intro l hl
    simp only [exceptRule, List.mem_cons, List.not_mem_nil, or_false] at hl
    obtain rfl | rfl := hl
    · trivial
    · intro b hb ρ' _ matched
      exact wellFoundedPossible_mixedRules none b hb (Interpretation.pred_of_matches matched rfl)
  refine mem_least_of_infer ⟨_, List.mem_cons_self, ρ, _, inst, rfl⟩ ?_
  rintro b ⟨_, pair, _⟩
  cases List.mem_singleton.mp (List.of_mem_zip pair).2
  exact base_subset_least stored

end PgRipple.Datalog
