import PgRipple.Datalog.Completeness
import PgRipple.Datalog.PredVars
import PgRipple.Datalog.SameAs

/-!
# Canonical rules over stored facts

`apply_sameas_to_rules` replaces the constants of the rules by the representatives of their
`owl:sameAs` classes. The stored triples keep the ids they came with. A derivation of the
original rules can be followed step by step as long as the rewritten rule applies to
counterparts of the same premises, triples that differ from them within the classes.
-/

namespace PgRipple.Datalog

open Storage Inference

namespace SameAs

/-- `apply_sameas_to_rules`; with an empty map the rules come back as they are. -/
def applySameasToRules (rules : List Rule) (map : TermId → Option TermId) : List Rule :=
  rules.map (rewriteRule fun id => canonicalizeId id map)

def mapQuad (c : TermId → TermId) (q : Quad) : Quad := ⟨c q.s, c q.p, c q.o, c q.g⟩

/-- The fact with canonical ids. -/
def canonicalQuad (map : TermId → Option TermId) (q : Quad) : Quad :=
  mapQuad (fun id => canonicalizeId id map) q

section Follows

variable (I : Interpretation) (rules : List Rule) (map : TermId → Option TermId) (facts : Set Quad)

/-- What the rewritten rules derive. -/
def rewrittenModel : Set Quad := I.leastModel (applySameasToRules rules map) ∅ facts

/-- The rewritten rules derive the fact up to canonical ids. -/
def Kept (q : Quad) : Prop :=
  ∃ q' ∈ rewrittenModel I rules map facts, canonicalQuad map q' = canonicalQuad map q

/-- No fact is lost. -/
def LosesNothing : Prop := ∀ q ∈ I.leastModel rules ∅ facts, Kept I rules map facts q

/-- The rewritten rule applies to counterparts of the premises, and concludes a counterpart. -/
structure Follows (r : Rule) (chosen : List Quad) (q : Quad) (ρ' : Valuation)
    (chosen' : List Quad) (q' : Quad) : Prop where
  applies : I.Instance (rewriteRule (fun id => canonicalizeId id map) r) ∅ ρ' chosen' q'
  premises : I.premises (rewriteRule (fun id => canonicalizeId id map) r) chosen' ⊆
    rewrittenModel I rules map facts
  counterparts :
    List.Forall₂ (fun b' b => canonicalQuad map b' = canonicalQuad map b) chosen' chosen
  conclusion : canonicalQuad map q' = canonicalQuad map q

/-- Rule applications whose premises are kept, but which cannot be followed, conclude something
that is kept for another reason. -/
def KeptAnyway : Prop :=
  ∀ r ∈ rules, ∀ ρ chosen q, I.Instance r ∅ ρ chosen q →
    I.premises r chosen ⊆ I.leastModel rules ∅ facts →
    (∀ b ∈ I.premises r chosen, Kept I rules map facts b) →
    (¬ ∃ ρ' chosen' q', Follows I rules map facts r chosen q ρ' chosen' q') →
    Kept I rules map facts q

end Follows

variable {I : Interpretation} {rules : List Rule} {map : TermId → Option TermId}
  {facts : Set Quad}

theorem kept_of_follows {r : Rule} (mem : r ∈ rules) {chosen chosen' : List Quad} {q q' : Quad}
    {ρ' : Valuation} (follows : Follows I rules map facts r chosen q ρ' chosen' q') :
    Kept I rules map facts q := by
  refine ⟨q', mem_least_of_infer ⟨_, List.mem_map_of_mem mem, ρ', chosen', follows.applies, rfl⟩
    follows.premises, follows.conclusion⟩

/-- The derivations of the original rules, step by step. -/
theorem losesNothing_iff_keptAnyway :
    LosesNothing I rules map facts ↔ KeptAnyway I rules map facts := by
  constructor
  · intro all r mem ρ chosen q inst premises _ _
    exact all q (mem_least_of_infer ⟨r, mem, ρ, chosen, inst, rfl⟩ premises)
  · intro anyway
    refine (least_subset_iff (X := {q | Kept I rules map facts q})).mpr ⟨?_, ?_⟩
    · intro q stored
      exact ⟨q, base_subset_least stored, rfl⟩
    · rintro P q ⟨r, mem, ρ, chosen, inst, rfl⟩ premises
      by_cases again : ∃ ρ' chosen' q', Follows I rules map facts r chosen q ρ' chosen' q'
      · obtain ⟨ρ', chosen', q', follows⟩ := again
        exact kept_of_follows mem follows
      · exact anyway r mem ρ chosen q inst (fun b hb => (premises hb).1)
          (fun b hb => (premises hb).2) again

section Respects

/-- The constants that `apply_sameas_to_rules` rewrites in a rule of positive atoms. -/
def constants (r : Rule) : Set TermId :=
  {id | ∃ a ∈ r.head.toList ++ r.positiveAtoms, ∃ t ∈ [a.s, a.p, a.o, a.g], t = .const id}

/-- A choice of an id from each class that takes the rules' constants to their canonical ids, and
under which the stored triples are closed. It can leave all ids alone that no rule mentions. -/
structure Respects (rules : List Rule) (map : TermId → Option TermId) (facts : Set Quad)
    (τ : TermId → TermId) : Prop where
  counterpart : ∀ x, canonicalizeId (τ x) map = canonicalizeId x map
  constants : ∀ r ∈ rules, ∀ id ∈ constants r, τ id = canonicalizeId id map
  defaultGraph : τ 0 = 0
  stored : ∀ q ∈ facts, mapQuad τ q ∈ facts

variable {τ : TermId → TermId} {c : TermId → TermId} {ρ : Valuation} {t : Term} {a : Atom}
  {q b : Quad} {x : TermId}

theorem value_rewriteTerm (const : ∀ id, t = .const id → c id = τ id) (graph : τ 0 = 0) :
    (rewriteTerm c t).value (τ ∘ ρ) = (t.value ρ).map τ := by
  cases t with
  | const id => exact congrArg some (const id rfl)
  | defaultGraph => exact congrArg some graph.symm
  | _ => rfl

theorem accepts_rewriteTerm (const : ∀ id, t = .const id → c id = τ id) (h : t.Accepts ρ x) :
    (rewriteTerm c t).Accepts (τ ∘ ρ) (τ x) := by
  cases t with
  | var v => exact congrArg τ h
  | const id => exact (const id rfl).trans (congrArg τ h)
  | _ => trivial

theorem acceptsGraph_rewriteTerm {scope : GraphScope} (const : ∀ id, t = .const id → c id = τ id)
    (graph : τ 0 = 0) (h : t.AcceptsGraph scope ρ x) :
    (rewriteTerm c t).AcceptsGraph scope (τ ∘ ρ) (τ x) := by
  cases t with
  | var v => exact congrArg τ h
  | const id => exact (const id rfl).trans (congrArg τ h)
  | wildcard => exact fun isDefault => (congrArg τ (h isDefault)).trans graph
  | defaultGraph => exact fun isDefault => (congrArg τ (h isDefault)).trans graph

theorem matches_rewriteAtom {scope : GraphScope}
    (const : ∀ t ∈ [a.s, a.p, a.o, a.g], ∀ id, t = .const id → c id = τ id) (graph : τ 0 = 0)
    (h : a.Matches scope ρ b) : (rewriteAtom c a).Matches scope (τ ∘ ρ) (mapQuad τ b) where
  s := accepts_rewriteTerm (const a.s (by simp)) h.s
  p := accepts_rewriteTerm (const a.p (by simp)) h.p
  o := accepts_rewriteTerm (const a.o (by simp)) h.o
  g := acceptsGraph_rewriteTerm (const a.g (by simp)) graph h.g

theorem concludes_rewriteAtom
    (const : ∀ t ∈ [a.s, a.p, a.o, a.g], ∀ id, t = .const id → c id = τ id) (graph : τ 0 = 0)
    (h : a.Concludes ρ q) : (rewriteAtom c a).Concludes (τ ∘ ρ) (mapQuad τ q) where
  s := by rw [rewriteAtom, value_rewriteTerm (const a.s (by simp)) graph, h.s]; rfl
  p := by rw [rewriteAtom, value_rewriteTerm (const a.p (by simp)) graph, h.p]; rfl
  o := by rw [rewriteAtom, value_rewriteTerm (const a.o (by simp)) graph, h.o]; rfl
  g := by
    have value := h.g
    rw [rewriteAtom, value_rewriteTerm (const a.g (by simp)) graph]
    cases named : a.g.value ρ with
    | none =>
      rw [named] at value
      exact graph.symm.trans (congrArg τ value)
    | some x =>
      rw [named] at value
      exact congrArg τ value

theorem positiveAtoms_rewriteRule (r : Rule) :
    (rewriteRule c r).positiveAtoms = r.positiveAtoms.map (rewriteAtom c) := by
  simp only [Rule.positiveAtoms, positives, rewriteRule, List.filterMap_map, List.map_filterMap]
  refine List.filterMap_congr fun l _ => ?_
  cases l <;> rfl

theorem allPositive_rewriteRule {r : Rule} (positive : r.AllPositive) :
    (rewriteRule c r).AllPositive := by
  intro l hl
  obtain ⟨l', hl', rfl⟩ := List.mem_map.mp hl
  obtain ⟨a, rfl⟩ := positive l' hl'
  exact ⟨_, rfl⟩

/-- The rewritten rules derive the chosen counterpart of everything that the rules derive. -/
theorem Respects.losesNothing (respects : Respects rules map facts τ)
    (positive : ∀ r ∈ rules, r.AllPositive) : LosesNothing I rules map facts := by
  have follows : I.leastModel rules ∅ facts ⊆
      {q | mapQuad τ q ∈ rewrittenModel I rules map facts} := by
    refine least_subset (fun q hq => base_subset_least (respects.stored q hq)) ?_
    rintro P q ⟨r, mem, ρ, chosen, inst, rfl⟩ premises
    have const {a : Atom} (ha : a ∈ r.head.toList ++ r.positiveAtoms) :
        ∀ t ∈ [a.s, a.p, a.o, a.g], ∀ id, t = .const id → canonicalizeId id map = τ id :=
      fun t ht id isConst => (respects.constants r mem id ⟨a, ha, t, ht, isConst⟩).symm
    obtain ⟨⟨head, hh, concludes⟩, atoms⟩ := (positive r mem).instance_iff.mp inst
    have rewritten := allPositive_rewriteRule (c := fun id => canonicalizeId id map)
      (positive r mem)
    have inst' : I.Instance (rewriteRule (fun id => canonicalizeId id map) r) ∅ (τ ∘ ρ)
        (chosen.map (mapQuad τ)) (mapQuad τ q) := by
      refine rewritten.instance_iff.mpr ⟨⟨_, congrArg (Option.map _) hh, ?_⟩, ?_⟩
      · exact concludes_rewriteAtom (const (by simp [hh])) respects.defaultGraph concludes
      · rw [positiveAtoms_rewriteRule, List.forall₂_map_left_iff, List.forall₂_map_right_iff]
        obtain ⟨length, each⟩ := List.forall₂_iff_zip.mp atoms
        refine List.forall₂_iff_zip.mpr ⟨length, fun {a b} pair => ?_⟩
        refine matches_rewriteAtom (const ?_) respects.defaultGraph (each pair)
        exact List.mem_append_right _ (List.of_mem_zip pair).1
    refine mem_least_of_infer ⟨_, List.mem_map_of_mem mem, _, _, inst', rfl⟩ ?_
    intro b' hb'
    have chosenHere :=
      (Interpretation.mem_premises (rewritten.not_temporal I) inst').mp hb'
    obtain ⟨b, hb, rfl⟩ := List.mem_map.mp chosenHere
    exact premises ((Interpretation.mem_premises ((positive r mem).not_temporal I) inst).mpr hb)
  intro q hq
  refine ⟨mapQuad τ q, follows hq, ?_⟩
  simp only [canonicalQuad, mapQuad, respects.counterpart]

end Respects

section Computed

variable (I : Interpretation) (rules : List Rule) (ctx : Context)

end Computed

section Example

/-- `?x <11> ?x :- ?x <21> <102>`. -/
def aliasRule : Rule where
  head := some ⟨.var "x", .const 11, .var "x", .defaultGraph⟩
  body := [.positive ⟨.var "x", .const 21, .const 102, .defaultGraph⟩]
  ruleText := "?x <11> ?x :- ?x <21> <102> ."

/-- `101 owl:sameAs 102` and `103 <21> 102`. -/
def aliasContext : Context :=
  { Environment.bare.context Store.initial with
    stored := fun p => if p = 1 then [⟨101, 102, 0⟩] else if p = 21 then [⟨103, 102, 0⟩] else [] }

end Example

end SameAs

end PgRipple.Datalog
