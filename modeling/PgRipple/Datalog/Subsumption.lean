import Mathlib.Data.Multiset.AddSub
import PgRipple.Datalog.Completeness

/-!
# Eliminated rules

`check_subsumption` compares rules by the multiset of their positive body predicates and
looks neither at the terms nor at the other literals; the rules are then removed by their
text. The elimination changes no least model just if every application of a removed rule
can be replaced by the rules that stay, from the premises of that application alone.
-/

namespace PgRipple.Datalog

open Storage Inference

/-- `is_multiset_subset` is the order of multisets. -/
theorem isMultisetSubset_iff {a b : List TermId} :
    isMultisetSubset a b = true ↔ (a : Multiset TermId) ≤ b := by
  unfold isMultisetSubset
  induction a generalizing b with
  | nil => exact iff_of_true rfl (Multiset.zero_le _)
  | cons x a ih =>
    rw [List.foldlM_cons]
    by_cases mem : x ∈ b
    · have split : (b : Multiset TermId) = x ::ₘ (b.erase x : Multiset TermId) :=
        (Multiset.cons_erase (s := (b : Multiset TermId)) mem).symm
      rw [split, ← Multiset.cons_coe, Multiset.cons_le_cons_iff]
      simp only [mem, if_true]
      exact ih
    · simp only [mem, if_false]
      refine iff_of_false Bool.noConfusion fun le => mem ?_
      exact Multiset.mem_of_le le List.mem_cons_self

/-- The rule at index `i` covers the one at index `j`: it has the same head predicate, and its
body predicates are fewer, or the same and it stands earlier. -/
structure Covers (r1 : Rule) (i : Nat) (r2 : Rule) (j : Nat) : Prop where
  ne : i ≠ j
  head : ∃ p, r1.headPred = some p ∧ r2.headPred = some p
  body : (r1.bodyPreds : Multiset TermId) ≤ r2.bodyPreds
  fewer : r1.bodyPreds.length < r2.bodyPreds.length ∨ i < j

theorem subsumes_iff {r1 r2 : Rule} {i j : Nat} : subsumes r1 i r2 j = true ↔ Covers r1 i r2 j := by
  have heads : r1.headPred.isSome = true ∧ r1.headPred = r2.headPred ↔
      ∃ p, r1.headPred = some p ∧ r2.headPred = some p := by
    cases r1.headPred <;> cases r2.headPred <;> simp [eq_comm]
  simp only [subsumes, Bool.and_eq_true, Bool.or_eq_true, decide_eq_true_eq, isMultisetSubset_iff]
  constructor
  · rintro ⟨⟨⟨ne, some⟩, same⟩, ⟨fewer, le⟩ | ⟨⟨⟨before, _⟩, le⟩, _⟩⟩
    · exact ⟨ne, heads.mp ⟨some, same⟩, le, .inl fewer⟩
    · exact ⟨ne, heads.mp ⟨some, same⟩, le, .inr before⟩
  · intro ⟨ne, head, le, fewer⟩
    obtain ⟨some, same⟩ := heads.mpr head
    refine ⟨⟨⟨ne, some⟩, same⟩, ?_⟩
    by_cases shorter : r1.bodyPreds.length < r2.bodyPreds.length
    · exact .inl ⟨shorter, le⟩
    · have card := Multiset.card_le_card le
      rw [Multiset.coe_card, Multiset.coe_card] at card
      have length : r1.bodyPreds.length = r2.bodyPreds.length := by omega
      have equal : (r1.bodyPreds : Multiset TermId) = r2.bodyPreds :=
        Multiset.eq_of_le_of_card_le le (by rw [Multiset.coe_card, Multiset.coe_card]; omega)
      exact .inr ⟨⟨⟨fewer.resolve_left shorter, length⟩, le⟩, equal.ge⟩

/-- Some rule with the text of `r` is covered by another rule of the list. -/
def Dropped (rules : List Rule) (r : Rule) : Prop :=
  ∃ r1 i r2 j, rules[i]? = some r1 ∧ rules[j]? = some r2 ∧ Covers r1 i r2 j ∧
    r.ruleText = r2.ruleText

theorem mem_checkSubsumption {rules : List Rule} {r : Rule} :
    r.ruleText ∈ checkSubsumption rules ↔ Dropped rules r := by
  simp only [checkSubsumption, List.mem_map, List.mem_filter, List.any_eq_true, Prod.exists,
    List.mem_zipIdx_iff_getElem?, subsumes_iff]
  constructor
  · rintro ⟨r2, j, ⟨hj, r1, i, hi, covers⟩, text⟩
    exact ⟨r1, i, r2, j, hi, hj, covers, text.symm⟩
  · rintro ⟨r1, i, r2, j, hi, hj, covers, text⟩
    exact ⟨r2, j, ⟨hj, r1, i, hi, covers⟩, text.symm⟩

@[simp] theorem mem_activeRules {rules : List Rule} {r : Rule} :
    r ∈ activeRules rules ↔ r ∈ rules ∧ ¬ Dropped rules r := by
  rw [activeRules, List.mem_filter, decide_eq_true_eq, mem_checkSubsumption]

namespace Interpretation

variable (I : Interpretation) (N : Set Quad)

/-- The inferences of the rules with a property. -/
def InfersBy (S : Rule → Prop) (P : Set Quad) (q : Quad) : Prop :=
  ∃ r, S r ∧ ∃ ρ chosen, I.Instance r N ρ chosen q ∧ P = I.premises r chosen

/-- Every application of the rule follows from its premises by the rules that are covered by
no other. -/
def Replaceable (rules : List Rule) (r : Rule) : Prop :=
  ∀ ρ chosen q, I.Instance r N ρ chosen q →
    q ∈ least (I.premises r chosen) (I.InfersBy N fun r' => r' ∈ rules ∧ ¬ Dropped rules r')

end Interpretation

/-- Removing the rules that `check_subsumption` returns changes the least model over no fact
base, exactly if every covered rule is replaceable. -/
theorem subsumption_harmless_iff (I : Interpretation) (N : Set Quad) (rules : List Rule) :
    (∀ facts, I.leastModel (activeRules rules) N facts = I.leastModel rules N facts) ↔
      ∀ r ∈ rules, Dropped rules r → I.Replaceable N rules r := by
  let kept : Rule → Prop := fun r => r ∈ rules ∧ ¬ Dropped rules r
  let dropped : Rule → Prop := fun r => r ∈ rules ∧ Dropped rules r
  have active : I.Infers (activeRules rules) N = I.InfersBy N kept := by
    funext P q
    simp only [Interpretation.Infers, Interpretation.InfersBy, mem_activeRules, kept]
  have whole : I.Infers rules N = fun P q => I.InfersBy N kept P q ∨ I.InfersBy N dropped P q := by
    funext P q
    refine propext ⟨?_, ?_⟩
    · intro ⟨r, hr, rest⟩
      by_cases isDropped : Dropped rules r
      · exact .inr ⟨r, ⟨hr, isDropped⟩, rest⟩
      · exact .inl ⟨r, ⟨hr, isDropped⟩, rest⟩
    · rintro (⟨r, ⟨hr, _⟩, rest⟩ | ⟨r, ⟨hr, _⟩, rest⟩)
      · exact ⟨r, hr, rest⟩
      · exact ⟨r, hr, rest⟩
  unfold Interpretation.leastModel
  rw [active, whole, least_eq_iff_replaceable]
  constructor
  · intro h r hr isDropped ρ chosen q inst
    exact h _ q ⟨r, ⟨hr, isDropped⟩, ρ, chosen, inst, rfl⟩
  · rintro h _ q ⟨r, ⟨hr, isDropped⟩, ρ, chosen, inst, rfl⟩
    exact h r hr isDropped ρ chosen q inst

/-- `?x <11> ?y :- ?y <21> ?x .` -/
def flipRule : Rule :=
  ⟨some (edge "x" 11 "y"), [.positive (edge "y" 21 "x")], "?x <11> ?y :- ?y <21> ?x ."⟩

/-- A rule for the inverse direction is removed, since its body has the same predicate. -/
theorem subsumption_harmful_flipRule :
    ¬ ∀ facts, (Environment.bare.interpretation fun _ _ => 0).leastModel
        (activeRules [copyRule, flipRule]) ∅ facts =
      (Environment.bare.interpretation fun _ _ => 0).leastModel [copyRule, flipRule] ∅ facts := by
  intro same
  let I := Environment.bare.interpretation fun _ _ => 0
  have timeless : ∀ a, ¬ I.Temporal flipRule a := fun _ h => h.1 rfl
  have flipped : (⟨102, 11, 101, 0⟩ : Quad) ∈
      I.leastModel [copyRule, flipRule] ∅ {⟨101, 21, 102, 0⟩} := by
    let ρ : Valuation := fun v => if v = "x" then 102 else 101
    have inst : I.Instance flipRule ∅ ρ [⟨101, 21, 102, 0⟩] ⟨102, 11, 101, 0⟩ := by
      refine ⟨⟨_, rfl, rfl, rfl, rfl, rfl⟩, ?_, ?_⟩
      · exact .cons ⟨⟨rfl, rfl, rfl, fun _ => rfl⟩, fun h => absurd h (timeless _)⟩ .nil
      · intro l hl
        cases List.mem_singleton.mp hl
        trivial
    refine mem_least_of_infer ⟨flipRule, by simp, ρ, _, inst, rfl⟩ ?_
    rintro b ⟨a, hab, _⟩
    exact base_subset_least (congrArg Prod.snd (List.mem_singleton.mp hab))
  -- the copying rule keeps the subject of its premise
  have kept : I.leastModel [copyRule] ∅ {⟨101, 21, 102, 0⟩} ⊆ {q | q.s = 101} := by
    refine least_subset ?_ ?_
    · intro q hq
      cases Set.mem_singleton_iff.mp hq
      rfl
    · rintro _ q ⟨r, hr, ρ, chosen, inst, rfl⟩ premises
      cases List.mem_singleton.mp hr
      obtain ⟨⟨_, head, concludes⟩, atoms, _⟩ := inst
      cases head
      obtain ⟨b, rest, isMatch, _, rfl⟩ := List.forall₂_cons_left_iff.mp atoms
      have bound : b.s = 101 := premises ⟨_, List.mem_cons_self, fun h => h.1 rfl⟩
      have subject : ρ "x" = b.s := isMatch.1.s
      have concluded : some (ρ "x") = some q.s := concludes.s
      exact (Option.some.inj concluded).symm.trans (subject.trans bound)
  have active : activeRules [copyRule, flipRule] = [copyRule] := by decide
  rw [← same, active] at flipped
  have subject : (102 : TermId) = 101 := kept flipped
  revert subject
  decide

end PgRipple.Datalog
