import PgRipple.Datalog.Coverage

/-!
# How much of the least model the drivers find

For a positive program the drivers should leave every triple of the least model
visible. What they do find is what chains of rows reach: a chain starts with a row
of a seed statement and continues with rows of delta variants, each of which joins
one derived triple with stored ones. An instance with two premises that are not
stored is a row of no statement, and neither is an instance of a self-recursive
rule with stored premises only, because such a rule is seeded differently.

`Handled` says which instances the statements do cover. The least model is found
exactly when the other instances conclude nothing new.
-/

namespace PgRipple.Datalog

open Storage Inference

/-- A rule of positive atoms with constant predicates, without graphs. -/
structure Rule.Positive (r : Rule) : Prop where
  head : ∃ h p, r.head = some h ∧ h.p = .const p ∧ h.g = .defaultGraph
  body : ∀ l ∈ r.body, ∃ a p, l = .positive a ∧ a.p = .const p ∧ a.g = .defaultGraph

/-- The variables of the head occur in the body. -/
def Rule.Safe (r : Rule) : Prop := ∃ h, r.head = some h ∧ r.Determines h.s ∧ r.Determines h.o

section Positive

variable {r : Rule}

theorem body_of_all_positive {body : List BodyLiteral} (h : ∀ l ∈ body, ∃ a, l = .positive a) :
    body = (positives body).map .positive := by
  induction body with
  | nil => rfl
  | cons l body ih =>
    obtain ⟨a, rfl⟩ := h l List.mem_cons_self
    have rest := ih fun l' hl' => h l' (List.mem_cons_of_mem _ hl')
    calc .positive a :: body = .positive a :: (positives body).map .positive := by rw [← rest]
      _ = (positives (.positive a :: body)).map .positive := rfl

namespace Rule.Positive

theorem isPositive (h : r.Positive) : ∀ l ∈ r.body, ∃ a, l = .positive a := by
  intro l hl
  obtain ⟨a, _, rfl, _⟩ := h.body l hl
  exact ⟨a, rfl⟩

theorem constPreds (h : r.Positive) : r.ConstPreds := by
  obtain ⟨head, p, hh, hp, _⟩ := h.head
  refine ⟨by simp [Rule.headPred, hh, Atom.pred?, hp], ?_⟩
  intro l hl
  obtain ⟨a, p, rfl, ha, _⟩ := h.body l hl
  simp [Atom.pred?, ha]

theorem conjunctive (h : r.Positive) (safe : r.Safe) (scope : GraphScope) :
    r.Conjunctive scope where
  body := by
    refine ⟨[], ?_⟩
    rw [List.map_nil, List.append_nil]
    exact body_of_all_positive h.isPositive
  preds := h.constPreds
  negatable := by
    intro a ha
    obtain ⟨_, same⟩ := h.isPositive _ ha
    cases same
  head := by
    obtain ⟨head, _, hh, _, graph⟩ := h.head
    obtain ⟨head', hh', s, o⟩ := safe
    rw [hh] at hh'
    cases hh'
    exact ⟨head, hh, graph, s, o⟩

theorem not_temporal (h : r.Positive) (I : Interpretation) (a : Atom) : ¬ I.Temporal r a := by
  intro ⟨filters, _⟩
  refine filters (List.filterMap_eq_nil_iff.mpr ?_)
  intro l hl
  obtain ⟨_, rfl⟩ := h.isPositive l hl
  rfl

end Rule.Positive

end Positive

/-- The premises of an instance are the chosen triples, unless some are temporal. -/
theorem Interpretation.mem_premises {I : Interpretation} {r : Rule} {N : Set Quad} {ρ : Valuation}
    {chosen : List Quad} {q b : Quad} (timeless : ∀ a, ¬ I.Temporal r a)
    (inst : I.Instance r N ρ chosen q) : b ∈ I.premises r chosen ↔ b ∈ chosen := by
  constructor
  · intro ⟨a, pair, _⟩
    exact (List.of_mem_zip pair).2
  · intro hb
    obtain ⟨j, hj, rfl⟩ := List.getElem_of_mem hb
    have hj' : j < r.positiveAtoms.length := inst.atoms.length_eq ▸ hj
    refine ⟨r.positiveAtoms[j], ?_, timeless _⟩
    rw [List.mem_iff_getElem?]
    exact ⟨j, by simp [hj, hj']⟩

/-- Matching triples are all that an instance of a positive rule needs. -/
theorem Rule.Positive.instance {I : Interpretation} {r : Rule} {N : Set Quad} {ρ : Valuation}
    {chosen : List Quad} {q : Quad} (positive : r.Positive)
    (head : ∃ h, r.head = some h ∧ h.Concludes ρ q)
    (atoms : List.Forall₂ (fun a b => a.Matches I.scope ρ b) r.positiveAtoms chosen) :
    I.Instance r N ρ chosen q where
  head := head
  atoms := atoms.imp fun a _ isMatch =>
    ⟨isMatch, fun temporal => absurd temporal (positive.not_temporal I a)⟩
  literals := by
    intro l hl
    obtain ⟨a, rfl⟩ := positive.isPositive l hl
    trivial

/-- An application of a positive rule within the least model. -/
theorem mem_leastModel_of_matches {I : Interpretation} {rules : List Rule} {N facts : Set Quad}
    {r : Rule} {q : Quad} (ρ : Valuation) (chosen : List Quad) (hr : r ∈ rules)
    (positive : r.Positive) (head : ∃ h, r.head = some h ∧ h.Concludes ρ q)
    (atoms : List.Forall₂ (fun a b => a.Matches I.scope ρ b) r.positiveAtoms chosen)
    (premises : ∀ b ∈ chosen, b ∈ I.leastModel rules N facts) : q ∈ I.leastModel rules N facts := by
  have inst : I.Instance r N ρ chosen q := positive.instance head atoms
  refine mem_least_of_infer ⟨r, hr, ρ, chosen, inst, rfl⟩ ?_
  intro b hb
  exact premises b ((Interpretation.mem_premises (positive.not_temporal I) inst).mp hb)

/-- A triple of the least model is stored if no rule has its predicate in the head. -/
theorem mem_facts_of_underived {I : Interpretation} {rules : List Rule} {N facts : Set Quad}
    {q : Quad} (underived : ∀ r ∈ rules, r.headPred.isSome ∧ r.headPred ≠ some q.p)
    (h : q ∈ I.leastModel rules N facts) : q ∈ facts := by
  cases h with
  | base stored => exact stored
  | infer step _ =>
    obtain ⟨r, hr, ρ, chosen, inst, -⟩ := step
    obtain ⟨named, other⟩ := underived r hr
    exact absurd (Interpretation.headPred_of_instance inst named) other

/-- The statements of the active rules cover an instance with these premises: the
rule is not self-recursive and all premises are stored, or exactly one premise, of a
derived predicate, is not stored. -/
def Handled (ctx : Context) (derived : List TermId) (active : List Rule) (r : Rule)
    (chosen : List Quad) : Prop :=
  r ∈ active ∧ r.Safe ∧
    (((∀ p, r.headPred = some p → r.isRecursive p = false) ∧ ∀ b ∈ chosen, b ∈ ctx.facts) ∨
      ∃ i ∈ deltaPositions r derived, ∀ j b, chosen[j]? = some b → (b ∈ ctx.facts ↔ j ≠ i))

/-- The inferences of the covered instances. -/
def InfersCovered (I : Interpretation) (ctx : Context) (derived : List TermId)
    (active rules : List Rule) (P : Set Quad) (q : Quad) : Prop :=
  ∃ r ∈ rules, ∃ ρ chosen, I.Instance r ∅ ρ chosen q ∧ Handled ctx derived active r chosen ∧
    P = I.premises r chosen

/-- Every triple of the least model follows from the stored ones by covered instances. -/
def FollowsCovered (I : Interpretation) (ctx : Context) (derived : List TermId)
    (active rules : List Rule) : Prop :=
  I.leastModel rules ∅ ctx.facts ⊆ least ctx.facts (InfersCovered I ctx derived active rules)

/-- Instances that the statements do not cover conclude nothing that is neither
stored nor reached by a chain of rows. -/
def NothingMissed (I : Interpretation) (ctx : Context) (derived : List TermId)
    (active rules : List Rule) : Prop :=
  ∀ r ∈ rules, ∀ ρ chosen q, I.Instance r ∅ ρ chosen q → ¬ Handled ctx derived active r chosen →
    (∀ b ∈ chosen, b ∈ I.leastModel rules ∅ ctx.facts ∧
      b ∈ ctx.facts ∪ (ruleEngine ctx derived active).reach) →
    q ∈ ctx.facts ∪ (ruleEngine ctx derived active).reach

section Reach

variable {ctx : Context} {I : Interpretation} {derived : List TermId} {active rules : List Rule}
  {r : Rule} {ρ : Valuation} {chosen : List Quad} {q : Quad}

/-- Handled instances conclude what chains reach. -/
theorem mem_reach_of_handled (same : I.scope = ctx.settings.ruleGraphScope) (positive : r.Positive)
    (inst : I.Instance r ∅ ρ chosen q) (handled : Handled ctx derived active r chosen)
    (premises : ∀ b ∈ chosen, b ∈ ctx.facts ∪ (ruleEngine ctx derived active).reach) :
    q ∈ (ruleEngine ctx derived active).reach := by
  obtain ⟨hr, safe, covered⟩ := handled
  have noNegation : ¬ ∃ a, .negated a ∈ r.body := by
    intro ⟨a, ha⟩
    obtain ⟨_, impossible⟩ := positive.isPositive _ ha
    cases impossible
  have atHand : AtHand ctx derived (ruleEngine ctx derived active).reach r chosen := by
    refine covered.imp_right ?_
    intro ⟨i, position, only⟩
    obtain ⟨a, _, ha, _, _⟩ := mem_deltaPositions.mp position
    obtain ⟨bound, rfl⟩ := List.getElem?_eq_some_iff.mp ha
    have bound' : i < chosen.length := inst.atoms.length_eq ▸ bound
    have hi : chosen[i]? = some chosen[i] := List.getElem?_eq_getElem bound'
    refine ⟨i, position, chosen[i], ?_, hi, fun j c ne hc => (only j c hc).mpr ne⟩
    cases premises _ (List.getElem_mem bound') with
    | inl stored => exact absurd rfl ((only i _ hi).mp stored)
    | inr reached => exact reached
  have conj := positive.conjunctive safe ctx.settings.ruleGraphScope
  cases produces_of_atHand hr conj same inst (fun negation => absurd negation noNegation)
    atHand with
  | inl seed => exact ⟨0, seed⟩
  | inr step =>
    obtain ⟨a, reached, step⟩ := step
    exact Engine.mem_reach_of_step reached step

/-- The least model is within reach exactly when the instances that are not handled
conclude nothing new. -/
theorem leastModel_subset_reach_iff (same : I.scope = ctx.settings.ruleGraphScope)
    (positive : ∀ r ∈ rules, r.Positive) :
    (∀ q ∈ I.leastModel rules ∅ ctx.facts, q.p ∈ derivedPredIds rules →
        q ∈ ctx.facts ∪ (ruleEngine ctx derived active).reach) ↔
      NothingMissed I ctx derived active rules := by
  constructor
  · intro complete r hr ρ chosen q inst _ premises
    have pred : r.headPred = some q.p :=
      Interpretation.headPred_of_instance inst (positive r hr).constPreds.1
    refine complete q ?_ (mem_derivedPredIds.mpr ⟨r, hr, pred⟩)
    refine mem_least_of_infer ⟨r, hr, ρ, chosen, inst, rfl⟩ ?_
    intro b hb
    have chosenHere := (Interpretation.mem_premises ((positive r hr).not_temporal I) inst).mp hb
    exact (premises b chosenHere).1
  · intro others
    have all : I.leastModel rules ∅ ctx.facts ⊆
        ctx.facts ∪ (ruleEngine ctx derived active).reach := by
      refine least_subset_iff.mpr ⟨Set.subset_union_left, ?_⟩
      rintro P q ⟨r, hr, ρ, chosen, inst, rfl⟩ premises
      have each (b : Quad) (hb : b ∈ chosen) :=
        premises ((Interpretation.mem_premises ((positive r hr).not_temporal I) inst).mpr hb)
      by_cases handled : Handled ctx derived active r chosen
      · refine .inr (mem_reach_of_handled same (positive r hr) inst handled ?_)
        exact fun b hb => (each b hb).2
      · exact others r hr ρ chosen q inst handled each
    exact fun q hq _ => all hq

/-- Chains of rows reach whatever follows by covered instances. -/
theorem FollowsCovered.nothingMissed (same : I.scope = ctx.settings.ruleGraphScope)
    (positive : ∀ r ∈ rules, r.Positive) (follows : FollowsCovered I ctx derived active rules) :
    NothingMissed I ctx derived active rules := by
  have reached : least ctx.facts (InfersCovered I ctx derived active rules) ⊆
      ctx.facts ∪ (ruleEngine ctx derived active).reach := by
    refine least_subset Set.subset_union_left ?_
    rintro P q ⟨r, hr, ρ, chosen, inst, handled, rfl⟩ premises
    refine .inr (mem_reach_of_handled same (positive r hr) inst handled ?_)
    exact fun b hb =>
      premises ((Interpretation.mem_premises ((positive r hr).not_temporal I) inst).mpr hb)
  refine (leastModel_subset_reach_iff same positive).mp ?_
  exact fun q hq _ => reached (follows hq)

end Reach

/-- Every triple of the least model with a head predicate is visible in `st'`. -/
def ShowsLeastModel (I : Interpretation) (rules : List Rule) (st st' : Store) : Prop :=
  ∀ q ∈ I.leastModel rules ∅ {b | st.Visible b}, q.p ∈ derivedPredIds rules → st'.Visible q

theorem showsLeastModel_iff {env : Environment} {derived : List TermId} {active rules : List Rule}
    {st st' : Store} (aggregate : AggregateLiteral → Set Quad → TermId)
    (positive : ∀ r ∈ rules, r.Positive)
    (after : ∀ q, st'.Visible q ↔
      st.Visible q ∨ q ∈ (ruleEngine (env.context st) derived active).reach) :
    ShowsLeastModel (env.interpretation aggregate) rules st st' ↔
      NothingMissed (env.interpretation aggregate) (env.context st) derived active rules := by
  have facts : (env.context st).facts = {b | st.Visible b} := Set.ext fun _ => mem_facts_context
  have shown (q : Quad) : st'.Visible q ↔
      q ∈ (env.context st).facts ∪ (ruleEngine (env.context st) derived active).reach := by
    rw [after q, Set.mem_union, mem_facts_context]
  unfold ShowsLeastModel
  simp only [shown, ← facts]
  exact leastModel_subset_reach_iff rfl positive

/-- A pattern of two variables. -/
def edge (x : String) (p : TermId) (y : String) : Atom :=
  ⟨.var x, .const p, .var y, .defaultGraph⟩

/-- `?x <11> ?y :- ?x <21> ?y .` -/
def copyRule : Rule :=
  ⟨some (edge "x" 11 "y"), [.positive (edge "x" 21 "y")], "?x <11> ?y :- ?x <21> ?y ."⟩

/-- Predicate `13` joins two predicates that are derived themselves. -/
def joinRules : List Rule := [
  ⟨some (edge "x" 13 "z"), [.positive (edge "x" 11 "y"), .positive (edge "y" 12 "z")],
    "?x <13> ?z :- ?x <11> ?y, ?y <12> ?z ."⟩,
  copyRule,
  ⟨some (edge "x" 12 "y"), [.positive (edge "x" 22 "y")], "?x <12> ?y :- ?x <22> ?y ."⟩]

theorem positive_of_edges {r : Rule} {x p y} (head : r.head = some (edge x p y))
    (body : ∀ l ∈ r.body, ∃ x p y, l = .positive (edge x p y)) : r.Positive where
  head := ⟨edge x p y, p, head, rfl, rfl⟩
  body := by
    intro l hl
    obtain ⟨x, p, y, rfl⟩ := body l hl
    exact ⟨edge x p y, p, rfl, rfl, rfl⟩

theorem positive_copyRule : copyRule.Positive :=
  positive_of_edges rfl (by simp [copyRule])

theorem positive_joinRules : ∀ r ∈ joinRules, r.Positive := by
  intro r hr
  simp only [joinRules, List.mem_cons, List.not_mem_nil, or_false] at hr
  obtain rfl | rfl | rfl := hr
  · exact positive_of_edges rfl (by simp)
  · exact positive_copyRule
  · exact positive_of_edges rfl (by simp)

/-- Copies of stored triples are covered. -/
theorem followsCovered_copyRule {I : Interpretation} {ctx : Context} {derived : List TermId} :
    FollowsCovered I ctx derived [copyRule] [copyRule] := by
  refine least_subset_iff.mpr ⟨base_subset_least, ?_⟩
  rintro P q ⟨r, hr, ρ, chosen, inst, rfl⟩ premises
  cases List.mem_singleton.mp hr
  have stored : ∀ b ∈ chosen, b ∈ ctx.facts := by
    intro b hb
    obtain ⟨a, ha, isMatch⟩ := Fold.exists_right_of_forall₂ inst.atoms.flip hb
    cases List.mem_singleton.mp ha
    have pred : b.p = 21 := Interpretation.pred_of_matches isMatch.1 rfl
    have follows := (premises ((Interpretation.mem_premises
      (positive_copyRule.not_temporal I) inst).mpr hb)).1
    refine mem_facts_of_underived ?_ follows
    intro r hr
    cases List.mem_singleton.mp hr
    exact ⟨rfl, by simp [copyRule, edge, Rule.headPred, Atom.pred?, pred]⟩
  refine mem_least_of_infer ⟨copyRule, hr, ρ, chosen, inst, ⟨hr, ?_, .inl ⟨?_, stored⟩⟩, rfl⟩
    fun b hb => (premises hb).2
  · exact ⟨_, rfl, ⟨_, List.mem_singleton_self _, .inl rfl⟩,
      ⟨_, List.mem_singleton_self _, .inr (.inl rfl)⟩⟩
  · intro p hp
    cases hp
    decide

end PgRipple.Datalog
