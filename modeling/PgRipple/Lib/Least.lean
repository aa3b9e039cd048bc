import Mathlib.Order.FixedPoints
import Mathlib.Data.Set.Lattice

/-!
# Least sets closed under inferences

An inference derives a conclusion from a set of premises. `least base infer` is
the smallest set that contains `base` and is closed under the inferences `infer`.

`least_subset_iff` reduces an inclusion of such a set to single inferences.
`least_inter_subset_iff` compares the least sets over two bases on a set of interest:
inferences from premises that both sets have drop out. `least_eq_iff_replaceable` says which
inferences are redundant over every base.
-/

namespace Inference

variable {α : Type*} {base base' : Set α} {infer infer' : Set α → α → Prop} {X : Set α}

/-- Derivability from `base` by `infer`. -/
inductive Derives (base : Set α) (infer : Set α → α → Prop) : α → Prop
  | base {a : α} : a ∈ base → Derives base infer a
  | infer {P : Set α} {a : α} : infer P a → (∀ b ∈ P, Derives base infer b) → Derives base infer a

/-- The least set that contains `base` and is closed under `infer`. -/
def least (base : Set α) (infer : Set α → α → Prop) : Set α := {a | Derives base infer a}

theorem base_subset_least : base ⊆ least base infer := fun _ ha => .base ha

theorem mem_least_of_infer {P : Set α} {a : α} (step : infer P a)
    (premises : P ⊆ least base infer) :
    a ∈ least base infer :=
  .infer step fun _ hb => premises hb

/-- The least set lies in every closed set. -/
theorem least_subset (contains : base ⊆ X) (closed : ∀ P a, infer P a → P ⊆ X → a ∈ X) :
    least base infer ⊆ X := by
  intro a ha
  induction ha with
  | base h => exact contains h
  | infer step _ ih => exact closed _ _ step ih

/-- Inclusion is decided inference by inference. -/
theorem least_subset_iff :
    least base infer ⊆ X ↔
      base ⊆ X ∧ ∀ P a, infer P a → P ⊆ least base infer ∩ X → a ∈ X := by
  constructor
  · intro h
    refine ⟨base_subset_least.trans h, ?_⟩
    intro P a step premises
    exact h (mem_least_of_infer step fun b hb => (premises hb).1)
  · intro ⟨contains, closed⟩ a ha
    -- strengthen to the intersection, so that premises are known to be derivable
    have both : least base infer ⊆ least base infer ∩ X := by
      refine least_subset (fun b hb => ⟨base_subset_least hb, contains hb⟩) ?_
      intro P b step premises
      exact ⟨mem_least_of_infer step fun c hc => (premises hc).1, closed P b step premises⟩
    exact (both ha).2

/-- On a set of interest `F`, one least set lies in another if its base does, and if
inferences that use something outside of the other conclude nothing new. -/
theorem least_inter_subset_iff {F : Set α} :
    least base infer ∩ F ⊆ least base' infer ↔
      base ∩ F ⊆ least base' infer ∧
        ∀ P a, infer P a → P ⊆ least base infer → P ∩ F ⊆ least base' infer →
          ¬ P ⊆ least base' infer → a ∈ F → a ∈ least base' infer := by
  constructor
  · intro h
    refine ⟨fun a ha => h ⟨base_subset_least ha.1, ha.2⟩, ?_⟩
    intro P a step premises _ _ hF
    exact h ⟨mem_least_of_infer step premises, hF⟩
  · intro ⟨contains, closed⟩ a ⟨ha, hF⟩
    have all : least base infer ⊆ {a | a ∈ F → a ∈ least base' infer} := by
      refine least_subset_iff.mpr ⟨fun b hb hF => contains ⟨hb, hF⟩, ?_⟩
      intro P b step premises hF
      by_cases within : P ⊆ least base' infer
      · exact mem_least_of_infer step within
      · refine closed P b step (fun c hc => (premises hc).1) ?_ within hF
        exact fun c hc => (premises hc.1).2 hc.2
    exact all ha hF

/-- Dropping inferences changes no least set just if each of them can be replaced: its
conclusion follows from its premises without the dropped ones. -/
theorem least_eq_iff_replaceable {drop : Set α → α → Prop} :
    (∀ base, least base infer = least base fun P a => infer P a ∨ drop P a) ↔
      ∀ P a, drop P a → a ∈ least P infer := by
  constructor
  · intro h P a step
    rw [h P]
    exact mem_least_of_infer (.inr step) base_subset_least
  · intro replaceable base
    refine subset_antisymm ?_ ?_
    · refine least_subset base_subset_least ?_
      exact fun P a step premises => mem_least_of_infer (.inl step) premises
    · refine least_subset base_subset_least ?_
      rintro P a (step | step) premises
      · exact mem_least_of_infer step premises
      · exact least_subset premises (fun _ _ step premises => mem_least_of_infer step premises)
          (replaceable P a step)

theorem least_mono (contains : base ⊆ base') (weaker : ∀ P a, infer P a → infer' P a) :
    least base infer ⊆ least base' infer' :=
  least_subset (contains.trans base_subset_least) fun P a step premises =>
    mem_least_of_infer (weaker P a step) premises

end Inference
