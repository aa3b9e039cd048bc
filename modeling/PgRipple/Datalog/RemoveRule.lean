import PgRipple.Datalog.Accepted
import PgRipple.Datalog.Dred

/-!
# Removing a rule

`remove_rule_by_id` deactivates a rule and is meant to retract what only this rule supported. If
`check_dred_safety` has no objection, it deletes the rows of the rule's head predicate that are
marked `source = 1` and runs the statements of the remaining rules for that predicate once;
otherwise, and if `dred_enabled` is off, it runs the inference again.

Inference inserts its results with the default `source = 0`. So the rows that are deleted are base
triples, if there are any, and a triple that was derived stays whatever happens. The statements
of the remaining rules name the columns `s`, `o` and `g` only, and `p` of `vp_rare` must not be
null: unless the predicate is dedicated, the first row that such a statement selects is an error.

`Dispensable` is the exact condition on the outcome of the chosen path. `Redundant` is a condition
on the rules and on the store before the removal under which it holds.
-/

namespace PgRipple.Datalog

open Storage Inference

/-- `_pg_ripple.rules`, with the ids of its rows. -/
abbrev Catalog := List (Int × CatalogRule)

/-- The active rules of a rule set. -/
def Catalog.rulesOf (catalog : Catalog) (ruleSet : String) : List Rule :=
  rulesOfSet (catalog.map Prod.snd) ruleSet

/-- `UPDATE _pg_ripple.rules SET active = false WHERE id = $1`. -/
def Catalog.deactivate (catalog : Catalog) (ruleId : Int) : Catalog :=
  catalog.map fun (id, row) => (id, if id = ruleId then { row with active := false } else row)

/-- `check_dred_safety`: no rule text contains the digits of another derived predicate. -/
def checkDredSafety (ruleSet : String) (rules : List Rule) : Except String Unit :=
  rules.forM fun r =>
    match r.headPred with
    | none => .ok ()
    | some p =>
      (derivedPredIds rules).forM fun other =>
        if other = p then .ok ()
        else if likeId r.ruleText other then
          .error ("PT530: DRed cycle detected in rule set '" ++ ruleSet ++
            "': derived predicate " ++ toString p ++ " depends on " ++ toString other ++
            " which may also depend on " ++ toString p ++ "; falling back to full recompute")
        else .ok ()

/-- Delete the rows of a predicate that are marked as derived. Rows of a dedicated predicate are
not counted. -/
def clearDerived (p : TermId) (st : Store) : Int × Store :=
  if st.isDedicated p then
    let t := st.tables p
    (0, st.setTables p { t with delta := t.delta.deleteWhere fun r => r.source = 1 })
  else
    ((st.rare.rows.filter fun r => r.quad.p = p ∧ r.source = 1).length,
      { st with rare := st.rare.deleteWhere fun r => r.quad.p = p ∧ r.source = 1 })

/-- `INSERT INTO {target} (s, o, g) … ON CONFLICT DO NOTHING`; an error for rows of `vp_rare`, whose
column `p` has no default. -/
def insertColumns (session : Session) (p : TermId) (rows : List Key) (st : Store) : Option Store :=
  if st.isDedicated p then
    let (stamped, seq) := st.seq.stamp session rows
    let t := st.tables p
    some ({ st with seq := seq }.setTables p
      { t with delta := t.delta.insertAll (stamped.map fun (k, i) => ⟨k, i, 0⟩) })
  else if rows.isEmpty then some st
  else none

/-- Run the statement of a remaining rule. A rule that does not compile is skipped. -/
def rederiveRule (env : Environment) (session : Session) (p : TermId) (st : Store) (rule : Rule) :
    Option Store :=
  match compileSingleRuleTo (env.context st) rule with
  | .error _ => some st
  | .ok (_, stmt) => do
    let rows ← stmt.exec (env.context st).toDatabase []
    insertColumns session p rows st

/-- What follows the deactivation. -/
inductive Removal
  | keep
  | recompute
  | rederive (p : TermId)
  deriving DecidableEq, Repr

namespace Removal

/-- The choice, for the head predicate of the removed rule and the remaining rules. -/
def choose (settings : Settings) (ruleSet : String) (remaining : List Rule) :
    Option TermId → Removal
  | none => .keep
  | some p =>
    if settings.dredEnabled then
      match checkDredSafety ruleSet remaining with
      | .ok () => .rederive p
      | .error _ => .recompute
    else .recompute

/-- The number that is returned, and the store; `none` for an error in a statement. -/
def run (env : Environment) (session : Session) (remaining : List Rule) (st : Store) :
    Removal → Option (Int × Store)
  | .keep => some (0, st)
  | .recompute => do
    let (report, st) ← runInferenceSeminaive env session remaining st
    return (report.totalDerived, st)
  | .rederive p => do
    let (deleted, st) := clearDerived p st
    let st ← Run.exec (rederiveRule env session p) st
      (remaining.filter fun r => r.headPred = some p)
    return (deleted, st)

end Removal

/-- Why a removal fails; the transaction is rolled back. -/
inductive RemoveError
  | unknown (message : String)
  | statement
  deriving DecidableEq, Repr

/-- `remove_rule_by_id`. -/
def removeRuleById (env : Environment) (session : Session) (ruleId : Int) (catalog : Catalog)
    (st : Store) : Except RemoveError (Int × Catalog × Store) :=
  match catalog.find? fun row => row.1 = ruleId with
  | none => .error (.unknown ("no rule with id " ++ toString ruleId))
  | some (_, row) =>
    let catalog := catalog.deactivate ruleId
    let remaining := catalog.rulesOf row.ruleSet
    match (Removal.choose env.settings row.ruleSet remaining row.rule.headPred).run env session
      remaining st with
    | none => .error .statement
    | some (retracted, st) => .ok (retracted, catalog, st)

section Clear

variable {p : TermId} {st st₀ : Store} {q : Quad}

/-- The triple is there only by a row that is marked as derived, in the table that is cleared. -/
def Marked (p : TermId) (st : Store) (q : Quad) : Prop :=
  q.p = p ∧
    if st.isDedicated p then
      (∃ row ∈ (st.tables p).delta.rows, row.key = q.key ∧ row.source = 1) ∧
        ¬ (st.tables p).MainVisible q.key ∧ ¬ st.rare.HasKey q
    else ∃ row ∈ st.rare.rows, row.quad = q ∧ row.source = 1

theorem visible_clearDerived :
    (clearDerived p st).2.Visible q ↔ st.Visible q ∧ ¬ Marked p st q := by
  by_cases dedicated : st.isDedicated p = true
  · by_cases same : q.p = p
    · subst same
      have kept := (st.tables q.p).delta.hasKey_deleteWhere_iff
          (fun r => decide (r.source = 1)) q.key
      simp only [decide_eq_true_eq] at kept
      have after : (clearDerived q.p st).2.Visible q ↔
          ((st.tables q.p).MainVisible q.key ∨
            ((st.tables q.p).delta.deleteWhere fun r => r.source = 1).HasKey q.key) ∨
              st.rare.HasKey q := by
        simp only [clearDerived, dedicated, if_true, Store.Visible, Store.isDedicated_setTables,
          Store.setTables_tables_self, Store.setTables_rare, true_and, HtapTables.shows_iff]
        exact Iff.rfl
      rw [after, kept]
      simp only [Marked, Store.Visible, dedicated, if_true, true_and, HtapTables.shows_iff,
        HtapTables.InDelta]
      generalize (st.tables q.p).MainVisible q.key = main
      generalize (∃ r ∈ (st.tables q.p).delta.rows, r.key = q.key ∧ r.source = 1) = marked
      tauto
    · simp only [clearDerived, Marked, dedicated, if_true, Store.Visible,
        Store.isDedicated_setTables, Store.setTables_tables_of_ne same, Store.setTables_rare, same,
        false_and, not_false_eq_true, and_true]
  · have rare : st.isDedicated p = false := by simpa using dedicated
    have kept := st.rare.hasKey_deleteWhere_iff
      (fun r => decide (r.quad.p = p ∧ r.source = 1)) q
    simp only [decide_eq_true_eq] at kept
    have after : (clearDerived p st).2.Visible q ↔
        (st.isDedicated q.p = true ∧ (st.tables q.p).Shows q.key) ∨
          (st.rare.deleteWhere fun r => r.quad.p = p ∧ r.source = 1).HasKey q := by
      simp only [clearDerived, rare, Bool.false_eq_true, if_false, Store.Visible]
      exact Iff.rfl
    rw [after, kept]
    simp only [Marked, rare, Bool.false_eq_true, if_false, Store.Visible]
    by_cases same : q.p = p
    · subst same
      simp only [rare, Bool.false_eq_true, false_and, false_or, true_and]
      refine and_congr_right fun _ => not_congr ?_
      exact exists_congr fun r => and_congr_right fun _ => and_congr_right fun eq => by simp [eq]
    · have other : ¬ ∃ r ∈ st.rare.rows, r.quad = q ∧ r.quad.p = p ∧ r.source = 1 := by
        rintro ⟨r, -, rfl, pred, -⟩
        exact same pred
      simp only [other, same, false_and, not_false_eq_true, and_true]

variable {session : Session} {found : List Quad}

/-- Derived triples are stored as if they were base triples. -/
def NewRowsUnmarked (st₀ st : Store) : Prop :=
  st.tables = st₀.tables ∧ (∀ p, st.isDedicated p = st₀.isDedicated p) ∧
    ∀ row ∈ st.rare.rows, row ∈ st₀.rare.rows ∨ row.source = 0

theorem newRowsUnmarked_materialise {derived : List TermId} :
    NewRowsUnmarked st (materialise session derived found st).2 := by
  refine @materialise_invariant st session found (NewRowsUnmarked st) ?_ derived
    ⟨rfl, fun _ => rfl, fun _ h => .inl h⟩
  intro acc p ⟨tables, dedicated, rows⟩
  refine ⟨tables_materialisePred.trans tables, ?_, ?_⟩
  · exact fun p' => isDedicated_materialisePred.trans (dedicated p')
  · intro row mem
    rw [materialisePred_rare] at mem
    obtain old | new := UniqueTable.mem_of_mem_insertAll mem
    · exact rows row old
    · obtain ⟨_, _, rfl⟩ := List.mem_map.mp new
      exact .inr rfl

theorem newRowsUnmarked_runInferenceSeminaive {env : Environment} {rules : List Rule}
    {report : Report} (ran : runInferenceSeminaive env session rules st₀ = some (report, st)) :
    NewRowsUnmarked st₀ st := by
  unfold runInferenceSeminaive at ran
  split at ran
  · cases ran
    exact ⟨rfl, fun _ => rfl, fun _ h => .inl h⟩
  · obtain ⟨_, -, ran⟩ := Option.bind_eq_some_iff.mp ran
    cases ran
    exact newRowsUnmarked_materialise

/-- So only base triples are ever deleted. -/
theorem NewRowsUnmarked.visible_of_marked (h : NewRowsUnmarked st₀ st) (marked : Marked p st q) :
    st₀.Visible q := by
  obtain ⟨tables, dedicated, rows⟩ := h
  obtain ⟨rfl, row⟩ := marked
  split at row
  · rename_i isDedicated
    obtain ⟨⟨row, mem, key, -⟩, -⟩ := row
    rw [tables] at mem
    refine .inl ⟨(dedicated q.p).symm.trans isDedicated, HtapTables.shows_iff.mpr (.inr ?_)⟩
    exact UniqueTable.hasKey_iff.mpr ⟨row, mem, key⟩
  · obtain ⟨row, mem, quad, source⟩ := row
    obtain old | new := rows row mem
    · exact .inr (UniqueTable.hasKey_iff.mpr ⟨row, old, quad⟩)
    · rw [new] at source
      cases source

end Clear

section Rederive

variable {env : Environment} {session : Session} {p : TermId} {st st' : Store} {q : Quad}
  {rule : Rule}

/-- The statement of the rule selects the triple, as one of predicate `p`. -/
def Selects (env : Environment) (p : TermId) (q : Quad) (st : Store) (rule : Rule) : Prop :=
  q.p = p ∧ ∃ p' stmt, compileSingleRuleTo (env.context st) rule = .ok (p', stmt) ∧
    stmt.Yields (env.context st).toDatabase [] q.key

theorem visible_insertColumns {rows : List Key}
    (done : insertColumns session p rows st = some st') :
    st'.Visible q ↔ st.Visible q ∨ (q.p = p ∧ q.key ∈ rows) := by
  unfold insertColumns at done
  split at done
  · rename_i dedicated
    cases done
    by_cases same : q.p = p
    · subst same
      have drawn : (st.seq.stamp session rows).1.map (fun x => x.1) = rows := Sequence.map_fst_stamp
      have isDedicated (seq : Sequence) : ({ st with seq := seq }).isDedicated q.p = true :=
          dedicated
      simp only [Store.Visible, Store.isDedicated_setTables, isDedicated,
        Store.setTables_tables_self, Store.setTables_rare, true_and, HtapTables.shows_iff,
        HtapTables.InDelta, UniqueTable.hasKey_insertAll, List.map_map, Function.comp_def, drawn]
      rw [← or_assoc, or_right_comm]
      exact Iff.rfl
    · have isDedicated (seq : Sequence) :
          ({ st with seq := seq }).isDedicated q.p = st.isDedicated q.p := rfl
      simp only [Store.Visible, Store.isDedicated_setTables, isDedicated,
        Store.setTables_tables_of_ne same, Store.setTables_rare, same, false_and, or_false]
  · split at done
    · rename_i empty
      cases done
      rw [List.isEmpty_iff.mp empty]
      simp
    · cases done

theorem visible_rederiveRule (done : rederiveRule env session p st rule = some st') :
    st'.Visible q ↔ st.Visible q ∨ Selects env p q st rule := by
  unfold rederiveRule at done
  split at done
  · rename_i failed
    cases done
    refine (or_iff_left ?_).symm
    rintro ⟨-, p', stmt, compiled, -⟩
    rw [failed] at compiled
    cases compiled
  · rename_i p' stmt compiled
    obtain ⟨rows, executed, inserted⟩ := Option.bind_eq_some_iff.mp done
    rw [visible_insertColumns inserted, Stmt.mem_exec executed]
    refine or_congr_right (and_congr_right fun _ => ?_)
    constructor
    · exact fun yields => ⟨p', stmt, compiled, yields⟩
    · rintro ⟨p'', stmt', compiled', yields⟩
      rw [compiled] at compiled'
      cases compiled'
      exact yields

theorem isDedicated_rederiveRule {p' : TermId}
    (done : rederiveRule env session p st rule = some st') :
    st'.isDedicated p' = st.isDedicated p' := by
  unfold rederiveRule at done
  split at done
  · cases done
    rfl
  · obtain ⟨rows, -, inserted⟩ := Option.bind_eq_some_iff.mp done
    unfold insertColumns at inserted
    split at inserted
    · cases inserted
      exact Store.isDedicated_setTables
    · split at inserted
      · cases inserted
        rfl
      · cases inserted

/-- The remaining rules add what one of them selects when its turn comes. -/
theorem visible_rederive {rules : List Rule}
    (done : Run.exec (rederiveRule env session p) st rules = some st') :
    st'.Visible q ↔
      st.Visible q ∨ Run.Eventually (rederiveRule env session p) (Selects env p q) st rules := by
  induction rules generalizing st with
  | nil =>
    cases done
    exact (or_iff_left id).symm
  | cons rule rules ih =>
    obtain ⟨mid, first, rest⟩ := Option.bind_eq_some_iff.mp done
    rw [ih rest, visible_rederiveRule first, Run.eventually_cons first, or_assoc]

end Rederive

namespace Removal

variable (env : Environment) (session : Session) (remaining : List Rule) (st : Store) (q : Quad)

/-- The triple is deleted. -/
def Drops : Removal → Prop
  | .rederive p => Marked p st q
  | _ => False

/-- The triple is derived by the remaining rules. -/
def Adds : Removal → Prop
  | .keep => False
  | .recompute => q ∈ (inferenceEngine env remaining st).stage (maxIterations - 1)
  | .rederive p => Run.Eventually (rederiveRule env session p) (Selects env p q)
      (clearDerived p st).2
      (remaining.filter fun r => r.headPred = some p)

variable {env session remaining st q}

theorem visible_run {removal : Removal} {retracted : Int} {st' : Store}
    (done : removal.run env session remaining st = some (retracted, st')) :
    st'.Visible q ↔
      (st.Visible q ∧ ¬ removal.Drops st q) ∨ removal.Adds env session remaining st q := by
  cases removal with
  | keep =>
    cases done
    simp [Drops, Adds]
  | recompute =>
    obtain ⟨⟨report, st₁⟩, ran, done⟩ := Option.bind_eq_some_iff.mp done
    cases done
    rw [visible_runInferenceSeminaive ran]
    simp [Drops, Adds]
  | rederive p =>
    obtain ⟨st₁, ran, done⟩ := Option.bind_eq_some_iff.mp done
    obtain ⟨-, rfl⟩ := Prod.mk.inj (Option.some.inj done)
    have ran : Run.exec (rederiveRule env session p) (clearDerived p st).2
      (remaining.filter fun r => r.headPred = some p) = some st₁ := ran
    rw [visible_rederive ran, visible_clearDerived]
    exact Iff.rfl

end Removal

/-- The store that inference left over the base store `st₀` can do without the removed rule. -/
structure Dispensable (env : Environment) (session : Session) (rules remaining : List Rule)
    (removal : Removal) (model : Set Quad) (st₀ st : Store) : Prop where
  /-- Everything that was derived can be derived by the remaining rules. -/
  alone : ∀ q ∈ (inferenceEngine env rules st₀).stage (maxIterations - 1), q ∈ model
  /-- No statement fails. -/
  ends : (removal.run env session remaining st).isSome = true
  /-- What the remaining rules derive is right. -/
  sound : ∀ q, removal.Adds env session remaining st q → q ∈ model
  /-- What they do not derive was there and is not deleted. -/
  complete : ∀ q ∈ model, removal.Adds env session remaining st q ∨
    (st.Visible q ∧ ¬ removal.Drops st q)

/-- The rule is positive, not self-recursive, and compiles to statements that PostgreSQL accepts. -/
structure Rule.Runnable (scope : GraphScope) (r : Rule) : Prop extends r.Simple scope where
  nonempty : r.positiveAtoms ≠ []
  anchored : ∀ a ∈ r.positiveAtoms, a.Anchored scope

/-- The removed rule supported nothing alone, no triple of its head predicate is marked, and the
remaining rules can be run. `st` is the store before the removal. -/
structure Redundant (env : Environment) (I : Interpretation) (remaining : List Rule)
    (removal : Removal) (model : Set Quad) (st : Store) : Prop where
  shown : ∀ q, st.Visible q ↔ q ∈ model
  unmarked : ∀ q, ¬ removal.Drops st q
  runnable : ∀ r ∈ remaining, r.Runnable env.settings.ruleGraphScope
  /-- `owl:sameAs` leaves the remaining rules alone. -/
  unchanged : removal = .recompute →
    ∀ r ∈ activeRules (canonicalRules (env.context st) remaining), r ∈ remaining
  /-- If the head predicate is not dedicated, the remaining rules for it have no instance. -/
  idle : ∀ p, removal = .rederive p → st.isDedicated p = false → ∀ r ∈ remaining,
    r.headPred = some p → ∀ ρ chosen q, I.Instance r ∅ ρ chosen q → ∃ c ∈ chosen, ¬ st.Visible c

section Redundant

variable {env : Environment} {session : Session} {remaining : List Rule} {removal : Removal}
  {model : Set Quad} {st : Store} {aggregate : AggregateLiteral → Set Quad → TermId} {r : Rule}

theorem Rule.Runnable.accepted_seed {ctx : Context} (h : r.Runnable ctx.settings.ruleGraphScope)
    {p : TermId} {stmt : Stmt} (compiled : compileSingleRuleTo ctx r = .ok (p, stmt)) :
    stmt.accepted = true ∧ stmt.Total ctx.toDatabase := by
  obtain ⟨head, hh, graph, -⟩ := h.head
  refine ⟨Datalog.accepted_seed h.isPositive h.preds h.nonempty h.anchored ?_ compiled,
    total_seed h.isPositive h.preds compiled⟩
  intro head' hh'
  cases hh.symm.trans hh'
  exact graph

/-- The inference of such rules ends normally. -/
theorem isSome_runInferenceSeminaive
    (runnable : ∀ r ∈ activeRules (canonicalRules (env.context st) remaining),
      r.Runnable env.settings.ruleGraphScope) :
    (runInferenceSeminaive env session remaining st).isSome = true := by
  unfold runInferenceSeminaive
  split
  · rfl
  · have seeds : ∀ s ∈ seedStmts (env.context st)
        (activeRules (canonicalRules (env.context st) remaining)),
        s.2.accepted = true ∧ s.2.Total (env.context st).toDatabase := by
      intro s hs
      obtain ⟨r, hr, compiled⟩ := mem_seedStmts.mp hs
      exact (runnable r hr).accepted_seed compiled
    have variants : ∀ s ∈ variantStmts (env.context st)
        (derivedPredIds (canonicalRules (env.context st) remaining))
        (activeRules (canonicalRules (env.context st) remaining)),
        s.2.accepted = true ∧ s.2.Total (env.context st).toDatabase := by
      intro s hs
      obtain ⟨r, hr, variants, compiled, q, hq, same⟩ := mem_variantStmts.mp hs
      obtain ⟨head, hh, _, i, _, one⟩ := (mem_compileRuleDeltaVariantsTo compiled).mp hq
      have known := runnable r hr
      obtain ⟨head', hh', graph, -⟩ := known.head
      cases hh.symm.trans hh'
      rw [same]
      exact ⟨accepted_variant known.isPositive known.preds known.nonempty known.anchored graph one,
        total_variant known.isPositive known.preds one⟩
    have rounds : 0 < maxIterations - 1 := by decide
    have ends := (isSome_evaluate_iff (fun s hs => (seeds s hs).2)
      (fun s hs => (variants s hs).2) rounds).mpr
      ⟨fun s hs => (seeds s hs).1, fun s hs => (variants s hs).1⟩
    obtain ⟨⟨found, iterations⟩, evaluated⟩ := Option.isSome_iff_exists.mp ends
    have evaluated : evaluateRules (env.context st)
        (derivedPredIds (canonicalRules (env.context st) remaining))
        (activeRules (canonicalRules (env.context st) remaining)) = some (found, iterations) :=
      evaluated
    simp [evaluated]

/-- What the statement of a simple rule selects is an instance over the visible triples. -/
theorem instance_of_selects {p : TermId} {q : Quad} (I : Interpretation)
    (same : I.scope = env.settings.ruleGraphScope) (simple : r.Simple env.settings.ruleGraphScope)
    (selects : Selects env p q st r) (headPred : r.headPred = some p) :
    ∃ ρ chosen, I.Instance r ∅ ρ chosen q ∧ ∀ c ∈ chosen, st.Visible c := by
  obtain ⟨rfl, p', stmt, compiled, yields⟩ := selects
  obtain ⟨head, hh, hp, _⟩ := compileSingleRuleTo_eq_ok.mp compiled
  have pred : p' = q.p := by
    have : r.headPred = some p' := by simp [Rule.headPred, hh, Atom.pred?, hp]
    exact Option.some.inj (this.symm.trans headPred)
  subst pred
  obtain ⟨ρ, chosen, inst, stored⟩ := instance_of_seed (I := I) simple.toPlain same compiled
    (simple.nonrecursive _ headPred) yields
  rw [Quad.key_quad] at inst
  exact ⟨ρ, chosen, inst.of_positive simple.isPositive _,
    fun c hc => mem_facts_context.mp (stored c hc)⟩

namespace Redundant

variable (h : Redundant env (env.interpretation aggregate) remaining removal model st)
  (closed : ∀ r ∈ remaining, r.Simple env.settings.ruleGraphScope → ∀ ρ chosen q,
    (env.interpretation aggregate).Instance r ∅ ρ chosen q → (∀ c ∈ chosen, c ∈ model) →
      q ∈ model)

include closed in
/-- The remaining rules select triples of the model only, as long as nothing else is visible. -/
theorem mem_of_selects (simple : ∀ r ∈ remaining, r.Simple env.settings.ruleGraphScope)
    {st : Store} (within : ∀ q, st.Visible q → q ∈ model) {p : TermId} {q : Quad}
    (hr : r ∈ remaining) (headPred : r.headPred = some p) (selects : Selects env p q st r) :
    q ∈ model := by
  obtain ⟨ρ, chosen, inst, visible⟩ :=
    instance_of_selects (env.interpretation aggregate) rfl (simple r hr) selects headPred
  exact closed r hr (simple r hr) ρ chosen q inst fun c hc => within c (visible c hc)

include h closed

/-- No statement of the chosen path fails. -/
theorem ends : (removal.run env session remaining st).isSome = true := by
  cases removal with
  | keep => rfl
  | recompute =>
    have active : ∀ r ∈ activeRules (canonicalRules (env.context st) remaining),
        r.Runnable env.settings.ruleGraphScope :=
      fun r hr => h.runnable r (h.unchanged rfl r hr)
    obtain ⟨⟨report, st'⟩, ran⟩ := Option.isSome_iff_exists.mp
      (@isSome_runInferenceSeminaive env session remaining st active)
    simp [Removal.run, ran]
  | rederive p =>
    -- the store stays within the model, and the head predicate keeps its tables
    have start : (∀ q, (clearDerived p st).2.Visible q → q ∈ model) ∧
        (clearDerived p st).2.isDedicated p = st.isDedicated p := by
      refine ⟨fun q visible => (h.shown q).mp (visible_clearDerived.mp visible).1, ?_⟩
      unfold clearDerived
      split
      · exact Store.isDedicated_setTables
      · rfl
    have possible (st' : Store) (r : Rule)
        (hr : r ∈ remaining.filter fun r => r.headPred = some p)
        (inv : (∀ q, st'.Visible q → q ∈ model) ∧ st'.isDedicated p = st.isDedicated p) :
        ∃ st'', rederiveRule env session p st' r = some st'' ∧
          (∀ q, st''.Visible q → q ∈ model) ∧ st''.isDedicated p = st.isDedicated p := by
      obtain ⟨inRemaining, headPred⟩ := List.mem_filter.mp hr
      have headPred : r.headPred = some p := of_decide_eq_true headPred
      have runnable := h.runnable r inRemaining
      obtain ⟨st'', done⟩ : ∃ st'', rederiveRule env session p st' r = some st'' := by
        unfold rederiveRule
        split
        · exact ⟨st', rfl⟩
        · rename_i p' stmt compiled
          obtain ⟨accepted, total⟩ := runnable.accepted_seed compiled
          obtain ⟨rows, executed⟩ :=
            Option.isSome_iff_exists.mp ((isSome_exec_iff [] total).mpr accepted)
          by_cases dedicated : st'.isDedicated p = true
          · simp [executed, insertColumns, dedicated]
          · have rare : st.isDedicated p = false := by rw [← inv.2]; simpa using dedicated
            have none : rows = [] := by
              refine List.eq_nil_iff_forall_not_mem.mpr fun k hk => ?_
              have selects : Selects env p (k.quad p) st' r :=
                ⟨rfl, p', stmt, compiled, (Stmt.mem_exec executed).mp hk⟩
              obtain ⟨ρ, chosen, inst, visible⟩ := instance_of_selects
                (env.interpretation aggregate) rfl runnable.toSimple selects headPred
              obtain ⟨c, hc, hidden⟩ := h.idle p rfl rare r inRemaining headPred ρ chosen _ inst
              exact hidden ((h.shown c).mpr (inv.1 c (visible c hc)))
            simp [executed, insertColumns, dedicated, none]
      refine ⟨st'', done, fun q visible => ?_, (isDedicated_rederiveRule done).trans inv.2⟩
      obtain before | selects := (visible_rederiveRule done).mp visible
      · exact inv.1 q before
      · exact mem_of_selects closed (fun r hr => (h.runnable r hr).toSimple) inv.1 inRemaining
          headPred selects
    obtain ⟨st', ran⟩ := Option.isSome_iff_exists.mp (Run.isSome_exec possible start)
    simp [Removal.run, ran]

/-- What the chosen path derives was derivable before. -/
theorem sound {q : Quad} (adds : removal.Adds env session remaining st q) : q ∈ model := by
  have simple : ∀ r ∈ remaining, r.Simple env.settings.ruleGraphScope :=
    fun r hr => (h.runnable r hr).toSimple
  cases removal with
  | keep => exact adds.elim
  | recompute =>
    have isModel : IsModel (env.interpretation aggregate) (env.context st) remaining ∅ model := by
      refine ⟨fun q hq => (h.shown q).mp (mem_facts_context.mp hq), ?_⟩
      exact fun r hr _ => closed r hr (simple r hr)
    exact (stage_subset_model_iff rfl isModel).mpr
      (onlyEarlyNegation_of_simple (h.unchanged rfl) simple) adds
  | rederive p =>
    have keeps (st' : Store) (r : Rule)
        (hr : r ∈ remaining.filter fun r => r.headPred = some p) (st'' : Store)
        (within : ∀ q, st'.Visible q → q ∈ model)
        (done : rederiveRule env session p st' r = some st'') (q : Quad)
        (visible : st''.Visible q) : q ∈ model := by
      obtain ⟨inRemaining, headPred⟩ := List.mem_filter.mp hr
      obtain before | selects := (visible_rederiveRule done).mp visible
      · exact within q before
      · exact mem_of_selects closed simple within inRemaining (of_decide_eq_true headPred) selects
    have start (q : Quad) (visible : (clearDerived p st).2.Visible q) : q ∈ model :=
      (h.shown q).mp (visible_clearDerived.mp visible).1
    obtain ⟨st', r, hr, within, selects⟩ := Run.exists_of_eventually keeps start adds
    obtain ⟨inRemaining, headPred⟩ := List.mem_filter.mp hr
    exact mem_of_selects closed simple within inRemaining (of_decide_eq_true headPred) selects

/-- A rule that supported nothing alone can be removed. -/
theorem dispensable {rules : List Rule} {st₀ : Store}
    (derived : ∀ q ∈ (inferenceEngine env rules st₀).stage (maxIterations - 1), st.Visible q) :
    Dispensable env session rules remaining removal model st₀ st where
  alone q hq := (h.shown q).mp (derived q hq)
  ends := h.ends closed
  sound _ := h.sound closed
  complete q hq := .inr ⟨(h.shown q).mpr hq, h.unmarked q⟩

end Redundant

end Redundant

/-- The triples that the remaining rules derive from the base triples. -/
def remainingModel (env : Environment) (aggregate : AggregateLiteral → Set Quad → TermId)
    (level : TermId → Nat) (remaining : List Rule) (st₀ : Store) : Set Quad :=
  (env.interpretation aggregate).stratifiedModel remaining level {b | st₀.Visible b}

/-- The removal succeeds, and exactly the triples of the model are visible afterwards. -/
def RemovesExactly (env : Environment) (session : Session) (ruleId : Int) (catalog : Catalog)
    (st : Store) (model : Set Quad) : Prop :=
  ∃ retracted catalog' st', removeRuleById env session ruleId catalog st =
    .ok (retracted, catalog', st') ∧ ∀ q, st'.Visible q ↔ q ∈ model

theorem stratifiedModel_nil {I : Interpretation} {level : TermId → Nat} {facts : Set Quad} :
    I.stratifiedModel [] level facts = facts := by
  refine Set.Subset.antisymm ?_ Interpretation.facts_subset_stratifiedModel
  rintro q ⟨n, hq⟩
  induction n with
  | zero => exact hq
  | succ n ih =>
    refine ih (least_subset Set.Subset.rfl ?_ hq)
    rintro P b ⟨-, r, none, -⟩
    cases none

/-- A catalog with only the copying rule, under the id `1`. -/
def copyRuleCatalog : Catalog := [(1, ⟨"rules", copyRule, true⟩)]

end PgRipple.Datalog
