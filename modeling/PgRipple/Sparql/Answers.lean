import PgRipple.Maintenance.MergeWorker
import PgRipple.Sparql.BgpCorrect

/-!
# Queries after writes

A basic graph pattern is answered from what the calls of a run were for, wherever promotions
and merge cycles have put the rows by then.
-/

namespace PgRipple.Sparql

open Storage

/-- `Solution`, on a plain set of quads. -/
def SolutionIn (env : Env) (quads : Set Quad) (graphFilter : Option TermId)
    (patterns : List TriplePattern) (μ : Slot → TermId) : Prop :=
  ∀ tp ∈ patterns, ∃ s p o, tp.subject.denote env μ = some s ∧
    tp.predicate.denote env μ = some p ∧ tp.object.denote env μ = some o ∧
    ∃ g, graphCondition graphFilter (env.serviceExcl graphFilter) g = true ∧ ⟨s, p, o, g⟩ ∈ quads

theorem tableOid_of_rare {st : Store} (inv : st.Inv) (sited : st.Sited) {q : Quad}
    (hq : st.rare.HasKey q) : st.tableOid q.p = some false := by
  have rare := inv.rare q hq
  rw [Store.isDedicated_eq_tableOid] at rare
  cases oid : st.tableOid q.p with
  | none =>
    rw [Store.tableOid, Option.map_eq_none_iff, UniqueTable.find?_eq_none_iff] at oid
    exact absurd (sited.registered q hq) oid
  | some b =>
    rw [oid] at rare
    exact congrArg some rare

/-- After every run in which no delete uncovers a row of `main`, with merge cycles of any
workers in between, the rows of a translated pattern are its solutions in the intended set, and
each comes once if the triples that are asked for lie in one graph. -/
theorem answers_after_run {events : List PoolEvent} {st : Store} {quads : Set Quad}
    (covered : Run.Along PoolEvent.step PoolEvent.Covered (.initial, ∅) events)
    (ran : Run.exec PoolEvent.step (.initial, ∅) events = some (st, quads)) {env : Env}
    (source : ∀ p, env.vpSource p = catalogSource st p)
    (union : ∀ preds, env.unionPredicates = some preds → preds = st.dedicatedPredicates)
    {patterns : List TriplePattern} (plain : ∀ tp ∈ patterns, tp.Plain)
    (few : AsksAllPredicates patterns → env.unionPredicates ≠ none)
    (names : NamesDistinct env patterns) {κ : Type} [LT κ] [DecidableLT κ] (bgpReorder : Bool)
    (estimate : PatternCost κ) (graphFilter : Option TermId) (quoted : List QuotedRow) (n : Nat) :
    ∃ frag n', translateBgp env bgpReorder estimate graphFilter n patterns = some (frag, n') ∧
      (∀ values, values ∈ slotValues env ⟨st, quoted⟩ frag patterns ↔
        ∃ μ, values = (slotsOf patterns).map (fun x => some (μ x)) ∧
          SolutionIn env quads graphFilter patterns μ) ∧
      (SingleGraph env st graphFilter → (slotValues env ⟨st, quoted⟩ frag patterns).Nodup) := by
  obtain ⟨⟨inv, sited⟩, shown⟩ := Store.shown_of_exec covered ran
  obtain rfl : st.Shown = quads := shown
  have right : CatalogRight env (⟨st, quoted⟩ : Db).store :=
    ⟨source, union, fun _ => tableOid_of_rare inv sited⟩
  obtain ⟨frag, n', placed, translated, translates, covers⟩ :=
    exists_translateBgp env bgpReorder estimate graphFilter n plain few
  refine ⟨frag, n', translated, fun values => translates.mem_slotValues covers right names, ?_⟩
  intro single
  exact translates.nodup_slotValues covers right (fun _ _ _ p _ => single.inOneGraph p) names

def stolenEnv : Env :=
  let st := Store.stealingCycle.run Store.promotedStore
  { firstQuery with
    lookupIri := fun _ => some 2
    vpSource := catalogSource st
    unionPredicates := some st.dedicatedPredicates }

def stolenQuery : List TriplePattern := [⟨.var "x", .namedNode "p", .var "y"⟩]

/-- The triple that worker 1 has merged. -/
theorem answers_after_run_stolen :
    ∃ frag n', translateBgp stolenEnv false (fun _ _ _ => (0 : Nat)) none 0 stolenQuery =
        some (frag, n') ∧
      [some 1, some 3] ∈ slotValues stolenEnv
        ⟨Store.stealingCycle.run Store.promotedStore, []⟩ frag stolenQuery := by
  have covered : Run.Along PoolEvent.step PoolEvent.Covered (.initial, ∅)
      [.call (.insertEncodedTriple 0 ⟨1, 2, 3, 0⟩) trivial, .call (.promotePredicate 2) trivial,
        .cycle Store.stealingCycle] := ⟨trivial, trivial, trivial, trivial⟩
  have source : ∀ p, stolenEnv.vpSource p = catalogSource _ p := fun _ => rfl
  have names : NamesDistinct stolenEnv stolenQuery := by
    unfold NamesDistinct
    decide
  obtain ⟨frag, n', translated, answers, -⟩ := answers_after_run covered rfl source
    (fun _ found => (Option.some.inj found).symm) (by simp [stolenQuery, TriplePattern.Plain])
    (fun _ => Option.some_ne_none _) names false (fun _ _ _ => (0 : Nat)) none [] 0
  refine ⟨frag, n', translated, (answers _).mpr ⟨fun x => if x = .var "x" then 1 else 3, rfl, ?_⟩⟩
  rw [SolutionIn, stolenQuery, List.forall_mem_singleton]
  exact ⟨1, 2, 3, rfl, rfl, rfl, 0, rfl, .inl rfl⟩

end PgRipple.Sparql
