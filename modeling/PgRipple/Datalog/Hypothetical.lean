import PgRipple.Datalog.Dred
import Mathlib.Data.List.ReduceOption
import Mathlib.Order.CompletePartialOrder

/-!
# What-if inference

`hypothetical_inference` applies a list of asserts and a list of retracts in a
sub-transaction, wipes the head predicates of the rule set, runs inference, and
reports how the triples of the head predicates differ from before. Then it rolls
back.

The wipe does not distinguish between derived triples and triples that were stored
or asserted under a head predicate. So the report compares the present state with
what follows from the other predicates alone. `NothingWiped` is the exact condition
for that to be the difference that the hypotheses make.

`run_inference` is a parameter, of which it is assumed that it computes the least
model of the store that it is given.
-/

namespace PgRipple.Datalog

open Storage Inference

/-- The JSON argument. An entry that `parse_json_triple` does not understand is `none`. -/
structure Hypotheses where
  assert : List (Option Quad)
  retract : List (Option Quad)
  deriving DecidableEq, Repr

namespace Hypotheses

/-- `parsed_asserts`. -/
def parsedAsserts (h : Hypotheses) : List Quad := h.assert.reduceOption

/-- `parsed_retracts`. -/
def parsedRetracts (h : Hypotheses) : List Quad := h.retract.reduceOption

end Hypotheses

/-- `head_preds`; `0` is not the id of a term. -/
def headPreds (rules : List Rule) : List TermId := (derivedPredIds rules).filter fun id => id ≠ 0

/-- `snapshot_all_triples`. -/
def snapshotAllTriples (preds : List TermId) (st : Store) : List Quad :=
  preds.flatMap fun p => (vpReadExpr st p).map (Key.quad · p)

/-- The part of `clear_all_for_predicates` for one predicate. Tombstones are kept. -/
def clearPredicate (st : Store) (p : TermId) : Store :=
  let st := if st.isDedicated p then
      st.setTables p { st.tables p with delta := UniqueTable.empty Row.key, main := [] }
    else st
  { st with rare := st.rare.deleteWhere fun r => r.quad.p = p }

/-- `clear_all_for_predicates`. -/
def clearAllForPredicates (preds : List TermId) (st : Store) : Store :=
  preds.foldl clearPredicate st

/-- The asserts, then the retracts. -/
def applyHypotheses (session : Session) (h : Hypotheses) (st : Store) : Store :=
  let st := h.parsedAsserts.foldl (fun st q => (st.insertEncodedTriple session q).2) st
  h.parsedRetracts.foldl (fun st q => (st.deleteTriple session q).2) st

/-- The store on which inference is run. -/
def speculativeStore (session : Session) (rules : List Rule) (h : Hypotheses)
    (st : Store) : Store :=
  clearAllForPredicates (headPreds rules) (applyHypotheses session h st)

/-- The JSON result, before terms are decoded and sorted. -/
structure WhatIf where
  derived : List Quad
  retracted : List Quad
  deriving DecidableEq, Repr

/-- `hypothetical_inference_impl`. The rollback restores everything but the sequence. -/
def hypotheticalInference (env : Environment) (session : Session) (runInference : Store → Store)
    (rules : List Rule) (h : Hypotheses) (st : Store) : Except String (WhatIf × Store) :=
  let maxAssertions := env.settings.hypotheticalMaxAssertions
  if maxAssertions < h.assert.length then
    .error ("PT0450: hypothetical_inference called with " ++ toString h.assert.length ++
      " assertions, which exceeds pg_ripple.hypothetical_max_assertions = " ++
      toString maxAssertions)
  else if (headPreds rules).isEmpty then .ok (⟨[], []⟩, st)
  else
    let before := snapshotAllTriples (headPreds rules) st
    let assertedHeadTriples := h.parsedAsserts.filter fun q => q.p ∈ headPreds rules
    let inferred := runInference (speculativeStore session rules h st)
    let after := snapshotAllTriples (headPreds rules) inferred
    .ok (⟨(after.filter fun q => q ∉ before).filter fun q => q ∉ assertedHeadTriples,
        before.filter fun q => q ∉ after⟩, { st with seq := inferred.seq })

section Stores

variable {st : Store} {q : Quad} {preds : List TermId}

@[simp] theorem mem_snapshotAllTriples :
    q ∈ snapshotAllTriples preds st ↔ q.p ∈ preds ∧ st.Visible q := by
  simp only [snapshotAllTriples, List.mem_flatMap, List.mem_map, mem_vpReadExpr]
  constructor
  · rintro ⟨p, hp, k, visible, rfl⟩
    exact ⟨hp, visible⟩
  · rintro ⟨hp, visible⟩
    exact ⟨q.p, hp, q.key, visible, rfl⟩

@[simp] theorem visible_clearPredicate {p : TermId} :
    (clearPredicate st p).Visible q ↔ st.Visible q ∧ q.p ≠ p := by
  have deleted := UniqueTable.hasKey_deleteWhere (t := st.rare) (k := q)
    fun q => decide (q.p = p)
  have rare : (clearPredicate st p).rare.HasKey q ↔ st.rare.HasKey q ∧ q.p ≠ p := by
    simp only [clearPredicate]
    split <;> simpa using deleted
  have dedicated : (clearPredicate st p).isDedicated q.p = st.isDedicated q.p := by
    simp only [clearPredicate]
    split <;> rfl
  rw [Store.Visible, Store.Visible, rare, dedicated]
  by_cases same : q.p = p
  · subst same
    have empty : st.isDedicated q.p = true → ¬ ((clearPredicate st q.p).tables q.p).Shows
        q.key := by
      intro isDedicated shown
      have tables : (clearPredicate st q.p).tables q.p =
          { st.tables q.p with delta := UniqueTable.empty Row.key, main := [] } := by
        simp only [clearPredicate, isDedicated, if_true]
        exact Store.setTables_tables_self
      rw [tables, HtapTables.shows_iff] at shown
      simp [HtapTables.MainVisible, HtapTables.InMain, HtapTables.InDelta] at shown
    simp only [ne_eq, not_true_eq_false, and_false, or_false, iff_false, not_and]
    exact empty
  · have tables : (clearPredicate st p).tables q.p = st.tables q.p := by
      simp only [clearPredicate]
      split
      · exact Store.setTables_tables_of_ne same
      · rfl
    simp [tables, same]

/-- The wipe hides the triples of its predicates. -/
@[simp] theorem visible_clearAllForPredicates :
    (clearAllForPredicates preds st).Visible q ↔ st.Visible q ∧ q.p ∉ preds := by
  induction preds generalizing st with
  | nil => simp [clearAllForPredicates]
  | cons p preds ih =>
    have rest : (clearAllForPredicates (p :: preds) st).Visible q ↔
        (clearPredicate st p).Visible q ∧ q.p ∉ preds := ih
    rw [rest, visible_clearPredicate, List.mem_cons, not_or, and_assoc]

end Stores

/-- The report is the difference that the hypotheses make to the triples of the head
predicates, and the store is as before. -/
structure TrueDifference (I : Interpretation) (rules : List Rule) (base : Set Quad)
    (h : Hypotheses) (st : Store) (report : WhatIf) (st' : Store) : Prop where
  derived : ∀ q, q ∈ report.derived ↔ q.p ∈ headPreds rules ∧
    q ∈ I.leastModel rules ∅ ((base ∪ {q | q ∈ h.parsedAsserts}) \ {q | q ∈ h.parsedRetracts}) ∧
    ¬ st.Visible q ∧ q ∉ h.parsedAsserts
  retracted : ∀ q, q ∈ report.retracted ↔ q.p ∈ headPreds rules ∧ st.Visible q ∧
    q ∉ I.leastModel rules ∅ ((base ∪ {q | q ∈ h.parsedAsserts}) \ {q | q ∈ h.parsedRetracts})
  unchanged : ∀ q, st'.Visible q ↔ st.Visible q

/-- The triples that the report is about: those of head predicates, unless they are
asserted for the first time. -/
def Reported (rules : List Rule) (h : Hypotheses) (st : Store) : Set Quad :=
  {q | q.p ∈ headPreds rules ∧ (st.Visible q ∨ q ∉ h.parsedAsserts)}

/-- The wipe of the head predicates does not show in the report. `base` are the base
triples under the hypotheses, `rest` those that are left when inference starts. -/
structure NothingWiped (I : Interpretation) (rules : List Rule) (F base rest : Set Quad) :
    Prop where
  /-- Base triples of head predicates follow from what is left. -/
  baseFollows : base ∩ F ⊆ I.leastModel rules ∅ rest
  /-- Nothing is concluded from triples that do not follow from what is left: triples
  asserted under a head predicate. -/
  noneLost : ∀ P q, I.Infers rules ∅ P q → P ⊆ I.leastModel rules ∅ base →
    P ∩ F ⊆ I.leastModel rules ∅ rest → ¬ P ⊆ I.leastModel rules ∅ rest → q ∈ F →
    q ∈ I.leastModel rules ∅ rest
  /-- Nothing is concluded from triples that are left although they do not follow: triples
  whose retraction failed. -/
  noneAdded : ∀ P q, I.Infers rules ∅ P q → P ⊆ I.leastModel rules ∅ rest →
    P ∩ F ⊆ I.leastModel rules ∅ base → ¬ P ⊆ I.leastModel rules ∅ base → q ∈ F →
    q ∈ I.leastModel rules ∅ base

section Difference

variable {I : Interpretation} {rules : List Rule} {h : Hypotheses} {st st' : Store}
  {F base rest : Set Quad}

/-- Two bases have the same consequences in `F` if nothing was wiped. -/
theorem nothingWiped_iff (outside : Disjoint rest F) :
    (∀ q ∈ F, q ∈ I.leastModel rules ∅ rest ↔ q ∈ I.leastModel rules ∅ base) ↔
      NothingWiped I rules F base rest := by
  have lost : I.leastModel rules ∅ base ∩ F ⊆ I.leastModel rules ∅ rest ↔ _ :=
    least_inter_subset_iff
  have added : I.leastModel rules ∅ rest ∩ F ⊆ I.leastModel rules ∅ base ↔ _ :=
    least_inter_subset_iff
  have empty : rest ∩ F ⊆ I.leastModel rules ∅ base := by
    rw [outside.inter_eq]
    exact Set.empty_subset _
  constructor
  · intro same
    have none := lost.mp fun q hq => (same q hq.2).mpr hq.1
    exact ⟨none.1, none.2, (added.mp fun q hq => (same q hq.2).mp hq.1).2⟩
  · intro wiped q hF
    constructor
    · intro hq
      exact added.mpr ⟨empty, wiped.noneAdded⟩ ⟨hq, hF⟩
    · intro hq
      exact lost.mpr ⟨wiped.baseFollows, wiped.noneLost⟩ ⟨hq, hF⟩

/-- The report in terms of what follows from the wiped store. -/
theorem trueDifference_iff {report : WhatIf} {follows : Set Quad}
    (derived : ∀ q, q ∈ report.derived ↔
      q.p ∈ headPreds rules ∧ q ∈ follows ∧ ¬ st.Visible q ∧ q ∉ h.parsedAsserts)
    (retracted : ∀ q, q ∈ report.retracted ↔
      q.p ∈ headPreds rules ∧ st.Visible q ∧ q ∉ follows)
    (unchanged : ∀ q, st'.Visible q ↔ st.Visible q) :
    TrueDifference I rules base h st report st' ↔
      ∀ q ∈ Reported rules h st, q ∈ follows ↔ q ∈ I.leastModel rules ∅
        ((base ∪ {q | q ∈ h.parsedAsserts}) \ {q | q ∈ h.parsedRetracts}) := by
  constructor
  · intro difference q ⟨head, reported⟩
    by_cases visible : st.Visible q
    · have same := (retracted q).symm.trans (difference.retracted q)
      simp only [head, visible, true_and] at same
      exact not_iff_not.mp same
    · have same := (derived q).symm.trans (difference.derived q)
      have fresh := reported.resolve_left visible
      simpa only [head, visible, fresh, not_false_eq_true, and_true, true_and] using same
  · intro same
    refine ⟨?_, ?_, unchanged⟩
    · intro q
      rw [derived q]
      refine and_congr_right fun head => ?_
      by_cases fresh : ¬ st.Visible q ∧ q ∉ h.parsedAsserts
      · rw [same q ⟨head, .inr fresh.2⟩]
      · simp only [fresh, and_false]
    · intro q
      rw [retracted q]
      refine and_congr_right fun head => and_congr_right fun visible => ?_
      rw [same q ⟨head, .inl visible⟩]

end Difference

section Report

variable {env : Environment} {session : Session} {runInference : Store → Store}
  {rules : List Rule} {h : Hypotheses} {st : Store}

/-- What is left when inference starts. -/
def restOf (session : Session) (rules : List Rule) (h : Hypotheses) (st : Store) : Set Quad :=
  {q | (applyHypotheses session h st).Visible q ∧ q.p ∉ headPreds rules}

theorem visible_speculativeStore {q : Quad} :
    (speculativeStore session rules h st).Visible q ↔ q ∈ restOf session rules h st :=
  visible_clearAllForPredicates

/-- Within the limit there is always a report. -/
theorem exists_hypotheticalInference {I : Interpretation}
    (computes : ∀ q, (runInference (speculativeStore session rules h st)).Visible q ↔
      q ∈ I.leastModel rules ∅ {b | (speculativeStore session rules h st).Visible b})
    (within : h.assert.length ≤ env.settings.hypotheticalMaxAssertions) :
    ∃ report st', hypotheticalInference env session runInference rules h st = .ok (report, st') ∧
      (∀ q, q ∈ report.derived ↔ q.p ∈ headPreds rules ∧
        q ∈ I.leastModel rules ∅ (restOf session rules h st) ∧ ¬ st.Visible q ∧
          q ∉ h.parsedAsserts) ∧
      (∀ q, q ∈ report.retracted ↔ q.p ∈ headPreds rules ∧ st.Visible q ∧
        q ∉ I.leastModel rules ∅ (restOf session rules h st)) ∧
      ∀ q, st'.Visible q ↔ st.Visible q := by
  have left : {b | (speculativeStore session rules h st).Visible b} = restOf session rules h st :=
    Set.ext fun _ => visible_speculativeStore
  rw [left] at computes
  simp only [hypotheticalInference, Nat.not_lt.mpr within, if_false]
  split
  · rename_i none
    refine ⟨_, _, rfl, ?_, ?_, fun _ => Iff.rfl⟩
    · simp [List.isEmpty_iff.mp none]
    · simp [List.isEmpty_iff.mp none]
  · refine ⟨_, _, rfl, ?_, ?_, fun _ => Iff.rfl⟩
    · intro q
      simp only [List.mem_filter, decide_eq_true_eq, mem_snapshotAllTriples, computes]
      tauto
    · intro q
      simp only [List.mem_filter, decide_eq_true_eq, mem_snapshotAllTriples, computes]
      tauto

end Report

/-- `hypothetical_inference` reports the true difference if and only if the number of
asserts is within its limit and nothing that matters is wiped. -/
theorem hypothetical_true_iff {env : Environment} {session : Session}
    {runInference : Store → Store} {I : Interpretation} {rules : List Rule} {h : Hypotheses}
    {st : Store} (base : Set Quad)
    (computes : ∀ q, (runInference (speculativeStore session rules h st)).Visible q ↔
      q ∈ I.leastModel rules ∅ {b | (speculativeStore session rules h st).Visible b}) :
    (∃ report st', hypotheticalInference env session runInference rules h st = .ok (report, st') ∧
        TrueDifference I rules base h st report st') ↔
      h.assert.length ≤ env.settings.hypotheticalMaxAssertions ∧
        NothingWiped I rules (Reported rules h st)
          ((base ∪ {q | q ∈ h.parsedAsserts}) \ {q | q ∈ h.parsedRetracts})
          (restOf session rules h st) := by
  have outside : Disjoint (restOf session rules h st) (Reported rules h st) := by
    refine Set.disjoint_left.mpr ?_
    intro q hrest reported
    exact hrest.2 reported.1
  constructor
  · intro ⟨report, st', ran, difference⟩
    have within : h.assert.length ≤ env.settings.hypotheticalMaxAssertions := by
      by_contra tooMany
      simp [hypotheticalInference, Nat.lt_of_not_le tooMany] at ran
    obtain ⟨report', st'', ran', derived, retracted, unchanged⟩ :=
      exists_hypotheticalInference computes within
    rw [ran] at ran'
    cases ran'
    refine ⟨within, (nothingWiped_iff outside).mp ?_⟩
    exact (trueDifference_iff derived retracted unchanged).mp difference
  · intro ⟨within, wiped⟩
    obtain ⟨report, st', ran, derived, retracted, unchanged⟩ :=
      exists_hypotheticalInference computes within
    refine ⟨report, st', ran, (trueDifference_iff derived retracted unchanged).mpr ?_⟩
    exact (nothingWiped_iff outside).mpr wiped

/-- Inference for the copying rule: copy what is visible. -/
def copyInference (st : Store) : Store :=
  (materialise 0 [11] ((vpReadExpr st 21).map fun k => ⟨k.s, 11, k.o, 0⟩) st).2

theorem leastModel_copyRuleAs {text : String} {I : Interpretation} {N facts : Set Quad}
    (scope : I.scope = .all) : I.leastModel [copyRuleAs text] N facts = withCopies facts := by
  refine subset_antisymm (least_subset (fun _ hb => .inl hb) ?_) ?_
  · rintro P q ⟨r, hr, ρ, chosen, inst, rfl⟩ premises
    cases List.mem_singleton.mp hr
    exact mem_withCopies_of_instance inst premises
  · rintro q (stored | ⟨b, hb, pred, rfl⟩)
    · exact base_subset_least stored
    · obtain ⟨ρ, inst⟩ := exists_instance_copyRuleAs scope pred
      refine mem_least_of_infer ⟨_, List.mem_singleton_self _, ρ, [b], inst, rfl⟩ ?_
      intro c ⟨_, pair, _⟩
      cases List.mem_singleton.mp (List.of_mem_zip pair).2
      exact base_subset_least hb

/-- It computes the least model of every store. -/
theorem visible_copyInference {text : String} {I : Interpretation} (scope : I.scope = .all)
    (st : Store) (q : Quad) :
    (copyInference st).Visible q ↔
      q ∈ I.leastModel [copyRuleAs text] ∅ {b | st.Visible b} := by
  rw [leastModel_copyRuleAs scope, copyInference, visible_materialise]
  refine or_congr_right ?_
  simp only [List.mem_map, mem_vpReadExpr, List.mem_singleton]
  constructor
  · rintro ⟨⟨k, visible, rfl⟩, -⟩
    exact ⟨k.quad 21, visible, rfl, rfl⟩
  · rintro ⟨b, visible, pred, rfl⟩
    refine ⟨⟨b.key, ?_, rfl⟩, rfl⟩
    rw [← pred]
    exact visible

/-- Asserting a triple of another predicate is answered rightly. -/
theorem hypothetical_true_copyRule :
    ∃ report st', hypotheticalInference .bare 0 copyInference [copyRuleAs iriText]
        ⟨[some ⟨101, 21, 102, 0⟩], []⟩ Store.initial = .ok (report, st') ∧
      TrueDifference (Environment.bare.interpretation fun _ _ => 0) [copyRuleAs iriText] ∅
        ⟨[some ⟨101, 21, 102, 0⟩], []⟩ Store.initial report st' := by
  refine (hypothetical_true_iff ∅ (visible_copyInference rfl _)).mpr ⟨by decide, ?_⟩
  have rest : restOf 0 [copyRuleAs iriText] ⟨[some ⟨101, 21, 102, 0⟩], []⟩ Store.initial =
      {⟨101, 21, 102, 0⟩} := by
    apply Set.ext
    intro q
    have none : (applyHypotheses 0 ⟨[some ⟨101, 21, 102, 0⟩], []⟩
        Store.initial).dedicatedPredicates = [] := by decide
    have rows : (applyHypotheses 0 ⟨[some ⟨101, 21, 102, 0⟩], []⟩
        Store.initial).rare.rows.map RareRow.quad = [⟨101, 21, 102, 0⟩] := by decide
    have preds : headPreds [copyRuleAs iriText] = [11] := by decide
    rw [restOf, Set.mem_ofPred_eq, Store.visible_iff_mem_rare none, rows, preds]
    simp only [List.mem_singleton, Set.mem_singleton_iff]
    refine and_iff_left_of_imp ?_
    rintro rfl
    decide
  have same : ((∅ ∪ {q | q ∈ (⟨[some ⟨101, 21, 102, 0⟩], []⟩ : Hypotheses).parsedAsserts}) \
      {q | q ∈ (⟨[some ⟨101, 21, 102, 0⟩], []⟩ : Hypotheses).parsedRetracts}) =
        ({⟨101, 21, 102, 0⟩} : Set Quad) := by
    apply Set.ext
    intro q
    simp [Hypotheses.parsedAsserts, Hypotheses.parsedRetracts, List.reduceOption_cons_of_some]
  rw [rest, same]
  refine ⟨?_, ?_, ?_⟩
  · exact fun q hq => base_subset_least hq.1
  · intro P q _ premises _ outside
    exact absurd premises outside
  · intro P q _ premises _ outside
    exact absurd premises outside

/-- A base triple of a head predicate is reported as retracted when nothing changes. -/
theorem not_hypothetical_true :
    ¬ ∀ (env : Environment) (session : Session) (runInference : Store → Store)
        (rules : List Rule) (h : Hypotheses) (base : Set Quad) (st : Store),
      (∀ r ∈ rules, r.Positive) →
      (∀ st q, (runInference st).Visible q ↔
        q ∈ (env.interpretation fun _ _ => 0).leastModel rules ∅ {b | st.Visible b}) →
      (∀ q, st.Visible q ↔ q ∈ (env.interpretation fun _ _ => 0).leastModel rules ∅ base) →
      h.assert.length ≤ env.settings.hypotheticalMaxAssertions →
      ∃ report st', hypotheticalInference env session runInference rules h st =
          .ok (report, st') ∧
        TrueDifference (env.interpretation fun _ _ => 0) rules base h st report st' := by
  intro promised
  have positive : ∀ r ∈ [copyRuleAs iriText], r.Positive := by
    intro r hr
    cases List.mem_singleton.mp hr
    exact positive_copyRuleAs
  have closed (q : Quad) : (loaded [⟨101, 11, 102, 0⟩]).Visible q ↔
      q ∈ (Environment.bare.interpretation fun _ _ => 0).leastModel [copyRuleAs iriText] ∅
        {⟨101, 11, 102, 0⟩} := by
    have rows : (loaded [⟨101, 11, 102, 0⟩]).rare.rows.map RareRow.quad =
        [⟨101, 11, 102, 0⟩] := by decide
    rw [leastModel_copyRuleAs rfl, Store.visible_iff_mem_rare (by decide), rows]
    simp [withCopies]
  obtain ⟨report, st', ran, difference⟩ := promised .bare 0 copyInference [copyRuleAs iriText]
    ⟨[], []⟩ {⟨101, 11, 102, 0⟩} (loaded [⟨101, 11, 102, 0⟩]) positive
    (visible_copyInference rfl) closed (by decide)
  have wrong : (hypotheticalInference .bare 0 copyInference [copyRuleAs iriText] ⟨[], []⟩
      (loaded [⟨101, 11, 102, 0⟩])).toOption.all (fun result =>
        ⟨101, 11, 102, 0⟩ ∈ result.1.retracted) = true := by decide
  rw [ran] at wrong
  have reported : ⟨101, 11, 102, 0⟩ ∈ report.retracted := by simpa [Except.toOption] using wrong
  refine ((difference.retracted _).mp reported).2.2 (base_subset_least ?_)
  simp [Hypotheses.parsedAsserts, Hypotheses.parsedRetracts]

end PgRipple.Datalog
