import PgRipple.Lib.Least
import PgRipple.Datalog.Compiler

/-!
# What a rule set means

The meaning of rules, independent of how they are evaluated. A rule instance fixes
a valuation of the variables and one matching triple for each positive atom. The
other literals are judged under the valuation; negated atoms and aggregates are
judged in a given set of triples, so that the same notion serves every semantics:

* the least model of a positive program ignores that set;
* the stratified model evaluates level `n` against the levels below it;
* the well-founded model iterates the operator that maps the set to the least
  model relative to it.
-/

namespace PgRipple.Datalog

open Storage Inference

/-- Values for the variables of a rule. -/
abbrev Valuation := String → TermId

/-- How the parts of a rule that are not triple patterns are understood. -/
structure Interpretation where
  ext : External
  scope : GraphScope
  /-- The encoded result of an aggregate over the triples that match its atom. -/
  aggregate : AggregateLiteral → Set Quad → TermId

/-- The value of a term; a wildcard has none. -/
def Term.value (ρ : Valuation) : Term → Option TermId
  | .var v => some (ρ v)
  | .const id => some id
  | .wildcard => none
  | .defaultGraph => some 0

/-- A subject, predicate or object position accepts a value. -/
def Term.Accepts (ρ : Valuation) : Term → TermId → Prop
  | .var v, x => ρ v = x
  | .const id, x => id = x
  | .wildcard, _ => True
  | .defaultGraph, _ => True

/-- A graph position accepts a value. Without a `GRAPH` clause the scope decides. -/
def Term.AcceptsGraph (scope : GraphScope) (ρ : Valuation) : Term → TermId → Prop
  | .var v, x => ρ v = x
  | .const id, x => id = x
  | .wildcard, x => scope = .default → x = 0
  | .defaultGraph, x => scope = .default → x = 0

namespace Atom

/-- A triple matches a pattern under a valuation. -/
structure Matches (scope : GraphScope) (ρ : Valuation) (a : Atom) (q : Quad) : Prop where
  s : a.s.Accepts ρ q.s
  p : a.p.Accepts ρ q.p
  o : a.o.Accepts ρ q.o
  g : a.g.AcceptsGraph scope ρ q.g

/-- The triple that a head stands for; without a graph it goes to the default graph. -/
structure Concludes (ρ : Valuation) (head : Atom) (q : Quad) : Prop where
  s : head.s.value ρ = some q.s
  p : head.p.value ρ = some q.p
  o : head.o.value ρ = some q.o
  g : (head.g.value ρ).getD 0 = q.g

/-- The variable occurs in the pattern. -/
def Mentions (a : Atom) (v : String) : Prop :=
  a.s = .var v ∨ a.p = .var v ∨ a.o = .var v ∨ a.g = .var v

end Atom

namespace Rule

/-- The body determines the variable outside of negation. -/
def Binds (r : Rule) (v : String) : Prop :=
  (∃ a ∈ r.positiveAtoms, a.Mentions v) ∨ (∃ l op t, .assign v l op t ∈ r.body) ∨
    ∃ a, .aggregate a ∈ r.body ∧ a.resultVar = v

end Rule

namespace Interpretation

variable (I : Interpretation)

/-- The positive atom is read from `temporal_facts`. -/
def Temporal (r : Rule) (a : Atom) : Prop :=
  temporalFilters r ≠ [] ∧ ∃ p, a.p = .const p ∧ I.ext.isTemporalPredicate p = true

/-- A triple matches a positive atom of the rule. -/
def AtomMatches (r : Rule) (ρ : Valuation) (a : Atom) (q : Quad) : Prop :=
  a.Matches I.scope ρ q ∧
    (I.Temporal r a → q.key ∈ I.ext.temporalReadExprFiltered q.p (temporalFilters r))

/-- The arguments of a sequential filter. -/
def sequentialArgs (ρ : Valuation) : TemporalFilter → List (Option (Option TermId))
  | .sequence s1 _ o1 s2 _ o2 _ =>
    [s1, o1, s2, o2].map fun tok =>
      let tok := tok.trimAscii.toString
      if tok.startsWith "?" then some (some (ρ (tok.drop 1).toString))
      else some (some (resolvePredicateId I.ext tok))
  | _ => []

/-- The triples of `N` that an aggregate ranges over. -/
def aggregated (N : Set Quad) (ρ : Valuation) (a : AggregateLiteral) : Set Quad :=
  {q | q ∈ N ∧ ∃ ρ' : Valuation, (∀ v, v ≠ a.aggVar → ρ' v = ρ v) ∧ a.atom.Matches I.scope ρ' q}

/-- A literal other than a positive atom holds. Variables that only occur under the
negation range over everything. -/
def LiteralHolds (r : Rule) (N : Set Quad) (ρ : Valuation) : BodyLiteral → Prop
  | .positive _ => True
  | .negated a =>
    ∀ q ∈ N, ∀ ρ' : Valuation, (∀ v, r.Binds v → ρ' v = ρ v) → ¬ a.Matches I.scope ρ' q
  | .compare l op r => ∃ x y, l.value ρ = some x ∧ r.value ρ = some y ∧ op.test x y = true
  | .stringBuiltin b => ∃ b', b.traverse (Term.value ρ) = some b' ∧ I.ext.stringBuiltin b' = true
  | .assign v l op r => ∃ x y, l.value ρ = some x ∧ r.value ρ = some y ∧ op.apply x y = some (ρ v)
  | .aggregate a =>
    (I.aggregated N ρ a).Nonempty ∧ ρ a.resultVar = I.aggregate a (I.aggregated N ρ a)
  | .temporalFilter f => f.isSequential = true → I.ext.sequential f (I.sequentialArgs ρ f) = true

/-- An instance of a rule: `chosen` has one triple for each positive atom. -/
structure Instance (r : Rule) (N : Set Quad) (ρ : Valuation) (chosen : List Quad) (q : Quad) :
    Prop where
  head : ∃ h, r.head = some h ∧ h.Concludes ρ q
  atoms : List.Forall₂ (I.AtomMatches r ρ) r.positiveAtoms chosen
  literals : ∀ l ∈ r.body, I.LiteralHolds r N ρ l

/-- The chosen triples that have to be derived; temporal ones are looked up. -/
def premises (r : Rule) (chosen : List Quad) : Set Quad :=
  {b | ∃ a, (a, b) ∈ r.positiveAtoms.zip chosen ∧ ¬ I.Temporal r a}

/-- The inferences of a rule set, with negation judged in `N`. -/
def Infers (rules : List Rule) (N : Set Quad) (P : Set Quad) (q : Quad) : Prop :=
  ∃ r ∈ rules, ∃ ρ chosen, I.Instance r N ρ chosen q ∧ P = I.premises r chosen

/-- The least model over `facts`, with negation judged in `N`. -/
def leastModel (rules : List Rule) (N facts : Set Quad) : Set Quad :=
  least facts (I.Infers rules N)

end Interpretation

/-- All predicates of the rule are constants. -/
def Rule.ConstPreds (r : Rule) : Prop :=
  r.headPred.isSome ∧ ∀ l ∈ r.body,
    match l with
    | .positive a => a.pred?.isSome
    | .negated a => a.pred?.isSome
    | .aggregate a => a.atom.pred?.isSome
    | _ => True

/-- Levels of predicates such that a head depends on its own level at most, and on
lower levels only through negation and aggregates. -/
def Stratification (rules : List Rule) (level : TermId → Nat) : Prop :=
  ∀ r ∈ rules, ∀ h, r.headPred = some h → ∀ l ∈ r.body,
    match l with
    | .positive a => ∀ p, a.pred? = some p → level p ≤ level h
    | .negated a => ∀ p, a.pred? = some p → level p < level h
    | .aggregate a => ∀ p, a.atom.pred? = some p → level p < level h
    | _ => True

namespace Interpretation

variable (I : Interpretation) (rules : List Rule) (level : TermId → Nat) (facts : Set Quad)

/-- The model after the levels below `n`. -/
def stratum : Nat → Set Quad
  | 0 => facts
  | n + 1 => least (stratum n) fun P q => level q.p = n ∧ I.Infers rules (stratum n) P q

/-- The stratified model. -/
def stratifiedModel : Set Quad := {q | ∃ n, q ∈ I.stratum rules level facts n}

variable {I rules level facts}

theorem stratum_mono {m n : Nat} (le : m ≤ n) :
    I.stratum rules level facts m ⊆ I.stratum rules level facts n := by
  induction le with
  | refl => exact subset_rfl
  | step _ ih => exact ih.trans base_subset_least

theorem stratum_subset_stratifiedModel (n : Nat) :
    I.stratum rules level facts n ⊆ I.stratifiedModel rules level facts := fun _ h => ⟨n, h⟩

theorem facts_subset_stratifiedModel : facts ⊆ I.stratifiedModel rules level facts :=
  stratum_subset_stratifiedModel 0

/-- Triples of a level are complete once that level has been evaluated. -/
theorem mem_stratum_of_level {q : Quad} (h : q ∈ I.stratifiedModel rules level facts) {n : Nat}
    (below : level q.p < n) : q ∈ I.stratum rules level facts n := by
  obtain ⟨m, hm⟩ := h
  induction m with
  | zero => exact stratum_mono (Nat.zero_le n) hm
  | succ m ih =>
    cases hm with
    | base old => exact ih old
    | infer step premises =>
      have here : level q.p = m := step.1
      refine stratum_mono (show m + 1 ≤ n by omega) ?_
      exact .infer step premises

/-- A constant predicate position fixes the predicate. -/
theorem pred_of_matches {a : Atom} {scope : GraphScope} {ρ : Valuation} {q : Quad} {p : TermId}
    (isMatch : a.Matches scope ρ q) (hp : a.pred? = some p) : q.p = p := by
  have accepts := isMatch.p
  cases term : a.p with
  | const id =>
    rw [term] at accepts
    simp only [Atom.pred?, term, Option.some.injEq] at hp
    exact accepts.symm.trans hp
  | _ => simp [Atom.pred?, term] at hp

/-- An aggregate over a lower level finds it complete. -/
theorem aggregated_stratum {ρ : Valuation} {a : AggregateLiteral} {p : TermId} {n : Nat}
    (hp : a.atom.pred? = some p) (lower : level p < n) :
    I.aggregated (I.stratifiedModel rules level facts) ρ a =
      I.aggregated (I.stratum rules level facts n) ρ a := by
  apply Set.ext
  intro q
  constructor
  · intro ⟨hq, ρ', agree, isMatch⟩
    refine ⟨mem_stratum_of_level hq ?_, ρ', agree, isMatch⟩
    rw [pred_of_matches isMatch hp]
    exact lower
  · intro ⟨hq, rest⟩
    exact ⟨stratum_subset_stratifiedModel _ hq, rest⟩

/-- A literal that holds in the whole model holds in the strata below the head. -/
theorem literalHolds_stratum {r : Rule} (hr : r ∈ rules) (strat : Stratification rules level)
    (const : r.ConstPreds) {h : TermId} (hh : r.headPred = some h) {ρ : Valuation}
    {l : BodyLiteral} (hl : l ∈ r.body)
    (holds : I.LiteralHolds r (I.stratifiedModel rules level facts) ρ l) :
    I.LiteralHolds r (I.stratum rules level facts (level h)) ρ l := by
  have lower := strat r hr h hh l hl
  have isConst := const.2 l hl
  cases l with
  | negated a =>
    intro q hq
    exact holds q (stratum_subset_stratifiedModel _ hq)
  | aggregate a =>
    -- the aggregate ranges over a lower level, where model and stratum agree
    obtain ⟨p, hp⟩ := Option.isSome_iff_exists.mp isConst
    have same : I.aggregated (I.stratifiedModel rules level facts) ρ a =
        I.aggregated (I.stratum rules level facts (level h)) ρ a :=
      aggregated_stratum hp (lower p hp)
    have holds : (I.aggregated (I.stratifiedModel rules level facts) ρ a).Nonempty ∧
      ρ a.resultVar =
        I.aggregate a (I.aggregated (I.stratifiedModel rules level facts) ρ a) := holds
    rw [same] at holds
    exact holds
  | positive a => exact holds
  | compare l op r => exact holds
  | stringBuiltin b => exact holds
  | assign v l op r => exact holds
  | temporalFilter f => exact holds

theorem Instance.concludes {r : Rule} {N : Set Quad} {ρ : Valuation} {chosen : List Quad}
    {q : Quad} (inst : I.Instance r N ρ chosen q) {head : Atom} (hh : r.head = some head) :
    head.Concludes ρ q := by
  obtain ⟨head', hh', concludes⟩ := inst.head
  rw [hh] at hh'
  cases hh'
  exact concludes

theorem headPred_of_instance {r : Rule} {N : Set Quad} {ρ : Valuation} {chosen : List Quad}
    {q : Quad} (inst : I.Instance r N ρ chosen q) (const : r.headPred.isSome) :
    r.headPred = some q.p := by
  obtain ⟨h, hh, concludes⟩ := inst.head
  have pred := concludes.p
  simp only [Rule.headPred, hh, Option.bind_some] at const ⊢
  cases term : h.p with
  | const id =>
    rw [term] at pred
    cases pred
    simp [Atom.pred?, term]
  | _ => simp [Atom.pred?, term] at const

/-- The stratified model is closed under the instances it satisfies. -/
theorem mem_stratifiedModel {r : Rule} (hr : r ∈ rules) (strat : Stratification rules level)
    (const : r.ConstPreds) {ρ : Valuation} {chosen : List Quad} {q : Quad}
    (inst : I.Instance r (I.stratifiedModel rules level facts) ρ chosen q)
    (premises : I.premises r chosen ⊆ I.stratifiedModel rules level facts) :
    q ∈ I.stratifiedModel rules level facts := by
  have hh : r.headPred = some q.p := headPred_of_instance inst const.1
  have here : I.premises r chosen ⊆ I.stratum rules level facts (level q.p + 1) := by
    intro b hb
    refine mem_stratum_of_level (premises hb) ?_
    obtain ⟨a, pair, _⟩ := hb
    have isMatch : I.AtomMatches r ρ a b :=
      List.forall₂_zip inst.atoms pair
    have ha : .positive a ∈ r.body := Rule.mem_positiveAtoms.mp (List.of_mem_zip pair).1
    obtain ⟨p, hp⟩ := Option.isSome_iff_exists.mp (const.2 _ ha)
    have := strat r hr q.p hh _ ha p hp
    rw [pred_of_matches isMatch.1 hp]
    omega
  refine ⟨level q.p + 1, mem_least_of_infer ⟨rfl, r, hr, ρ, chosen, ?_, rfl⟩ here⟩
  refine ⟨inst.head, inst.atoms, ?_⟩
  intro l hl
  exact literalHolds_stratum hr strat const hh hl (inst.literals l hl)

end Interpretation

/-- No aggregates: the programs for which the well-founded model is defined. -/
def Rule.Normal (r : Rule) : Prop := ∀ a, .aggregate a ∉ r.body

namespace Interpretation

variable (I : Interpretation) (rules : List Rule) (facts : Set Quad)

/-- The true triples of the well-founded model: the least fixpoint of the operator
that takes the least model twice. -/
def wellFoundedTrue : Set Quad :=
  {q | ∀ S, I.leastModel rules (I.leastModel rules S facts) facts ⊆ S → q ∈ S}

/-- The triples that are not false. -/
def wellFoundedPossible : Set Quad := I.leastModel rules (I.wellFoundedTrue rules facts) facts

/-- The triples that are neither true nor false. -/
def wellFoundedUndefined : Set Quad :=
  I.wellFoundedPossible rules facts \ I.wellFoundedTrue rules facts

variable {I rules facts}

/-- Literals of normal rules hold more often in smaller sets. -/
theorem LiteralHolds.anti {r : Rule} {N N' : Set Quad} {ρ : Valuation} {l : BodyLiteral}
    (normal : ∀ a, l ≠ .aggregate a) (le : N ⊆ N') (holds : I.LiteralHolds r N' ρ l) :
    I.LiteralHolds r N ρ l := by
  cases l with
  | negated a =>
    intro q hq
    exact holds q (le hq)
  | aggregate a => exact absurd rfl (normal a)
  | positive a => exact holds
  | compare l op r => exact holds
  | stringBuiltin b => exact holds
  | assign v l op r => exact holds
  | temporalFilter f => exact holds

theorem leastModel_anti (normal : ∀ r ∈ rules, r.Normal) {N N' : Set Quad} (le : N ⊆ N') :
    I.leastModel rules N' facts ⊆ I.leastModel rules N facts := by
  refine least_mono subset_rfl ?_
  rintro P q ⟨r, hr, ρ, chosen, inst, rfl⟩
  refine ⟨r, hr, ρ, chosen, ⟨inst.head, inst.atoms, ?_⟩, rfl⟩
  intro l hl
  refine LiteralHolds.anti ?_ le (inst.literals l hl)
  rintro a rfl
  exact normal r hr a hl

/-- The true triples are the least model relative to the possible ones. -/
theorem leastModel_wellFoundedPossible (normal : ∀ r ∈ rules, r.Normal) :
    I.leastModel rules (I.wellFoundedPossible rules facts) facts =
      I.wellFoundedTrue rules facts := by
  have twice {S S' : Set Quad} (le : S ⊆ S') :
      I.leastModel rules (I.leastModel rules S facts) facts ⊆
        I.leastModel rules (I.leastModel rules S' facts) facts :=
    leastModel_anti normal (leastModel_anti normal le)
  -- the intersection of all pre-fixpoints is one of them
  have pre : I.leastModel rules (I.wellFoundedPossible rules facts) facts ⊆
      I.wellFoundedTrue rules facts := by
    intro q hq S closed
    have below : I.wellFoundedTrue rules facts ⊆ S := fun b hb => hb S closed
    exact closed (twice below hq)
  refine subset_antisymm pre ?_
  intro q hq
  exact hq _ (twice pre)

theorem wellFoundedTrue_subset_possible (normal : ∀ r ∈ rules, r.Normal) :
    I.wellFoundedTrue rules facts ⊆ I.wellFoundedPossible rules facts := by
  intro q hq
  refine hq _ (subset_of_eq ?_)
  rw [leastModel_wellFoundedPossible normal]
  rfl

end Interpretation

end PgRipple.Datalog
