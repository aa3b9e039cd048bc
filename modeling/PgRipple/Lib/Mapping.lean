import Mathlib.Algebra.Order.BigOperators.Group.Multiset
import Mathlib.Algebra.Order.Group.Nat
import Mathlib.Data.Multiset.Bind

/-!
# Solution mappings

A solution gives values to some variables and leaves the others unbound. Two solutions
are compatible if they agree wherever both bind a variable. The join of two multisets
merges the compatible pairs; it is commutative and associative.

Engines that keep unbound values as nulls join on other conditions. `joinOn` is a join on
any condition, with the laws that hold for it, so that an engine's join can be compared
with the join of solutions condition by condition.
-/

/-- A solution. -/
abbrev Mapping (V α : Type*) := V → Option α

namespace Mapping

variable {V α : Type*}

/-- No variable has two values. -/
def Compatible (μ ν : Mapping V α) : Prop := ∀ v, μ v = none ∨ ν v = none ∨ μ v = ν v

/-- The values of the first solution and, where it has none, of the second. -/
def merge (μ ν : Mapping V α) : Mapping V α := fun v => (μ v).or (ν v)

theorem Compatible.symm {μ ν : Mapping V α} (h : Compatible μ ν) : Compatible ν μ := by
  intro v
  obtain free | free | same := h v
  · exact Or.inr (Or.inl free)
  · exact Or.inl free
  · exact Or.inr (Or.inr same.symm)

theorem Compatible.merge_comm {μ ν : Mapping V α} (h : Compatible μ ν) :
    merge μ ν = merge ν μ := by
  funext v
  obtain free | free | same := h v
  · simp [merge, free]
  · simp [merge, free]
  · simp [merge, same]

theorem merge_assoc (μ ν ξ : Mapping V α) : merge (merge μ ν) ξ = merge μ (merge ν ξ) := by
  funext v
  exact Option.or_assoc

open Classical in
/-- The pairs that meet a condition, merged. -/
noncomputable def joinOn (on : Mapping V α → Mapping V α → Prop)
    (xs ys : Multiset (Mapping V α)) : Multiset (Mapping V α) :=
  xs.bind fun μ => (ys.filter (on μ)).map (merge μ)

/-- `Join`. -/
noncomputable def join (xs ys : Multiset (Mapping V α)) : Multiset (Mapping V α) :=
  joinOn Compatible xs ys

section JoinOn

variable {on on' : Mapping V α → Mapping V α → Prop} {xs ys zs : Multiset (Mapping V α)}

theorem joinOn_congr (same : ∀ μ ∈ xs, ∀ ν ∈ ys, on μ ν ↔ on' μ ν) :
    joinOn on xs ys = joinOn on' xs ys := by
  classical
  refine Multiset.bind_congr fun μ hμ => ?_
  congr 1
  exact Multiset.filter_congr fun ν hν => same μ hμ ν hν

theorem card_joinOn [DecidableRel on] :
    (joinOn on xs ys).card = (xs.map fun μ => ys.countP (on μ)).sum := by
  rw [joinOn, Multiset.card_bind]
  congr 2
  funext μ
  rw [Function.comp_apply, Multiset.card_map, Multiset.countP_eq_card_filter]
  congr

/-- A join on a weaker condition has more rows, unless no pair makes a difference. -/
theorem joinOn_eq_iff (weaker : ∀ μ ∈ xs, ∀ ν ∈ ys, on μ ν → on' μ ν) :
    joinOn on xs ys = joinOn on' xs ys ↔ ∀ μ ∈ xs, ∀ ν ∈ ys, on' μ ν → on μ ν := by
  classical
  constructor
  · intro same μ hμ ν hν pair
    have counts : (xs.map fun μ => ys.countP (on μ)).sum =
        (xs.map fun μ => ys.countP (on' μ)).sum := by
      rw [← card_joinOn, ← card_joinOn, same]
    by_contra apart
    have le : ∀ μ ∈ xs, ys.countP (on μ) ≤ ys.countP (on' μ) := by
      intro μ hμ
      rw [Multiset.countP_eq_card_filter, Multiset.countP_eq_card_filter]
      refine Multiset.card_le_card (Multiset.le_filter.mpr ⟨Multiset.filter_le _ _, ?_⟩)
      intro ν hν
      rw [Multiset.mem_filter] at hν
      exact weaker μ hμ ν hν.1 hν.2
    have lt : ys.countP (on μ) < ys.countP (on' μ) := by
      rw [Multiset.countP_eq_card_filter, Multiset.countP_eq_card_filter]
      refine Multiset.card_lt_card (lt_of_le_of_ne ?_ ?_)
      · refine Multiset.le_filter.mpr ⟨Multiset.filter_le _ _, ?_⟩
        intro ν hν
        rw [Multiset.mem_filter] at hν
        exact weaker μ hμ ν hν.1 hν.2
      · intro equal
        have member : ν ∈ ys.filter (on' μ) := Multiset.mem_filter.mpr ⟨hν, pair⟩
        rw [← equal, Multiset.mem_filter] at member
        exact apart member.2
    exact absurd counts (Nat.ne_of_lt (Multiset.sum_lt_sum le ⟨μ, hμ, lt⟩))
  · intro stronger
    exact joinOn_congr fun μ hμ ν hν => ⟨weaker μ hμ ν hν, stronger μ hμ ν hν⟩

theorem bind_filter_map {β γ : Type*} (p : β → Prop) [DecidablePred p] (f : β → γ)
    (s : Multiset β) : (s.filter p).map f = s.bind fun b => if p b then {f b} else 0 := by
  induction s using Multiset.induction_on with
  | empty => rfl
  | cons b s ih =>
    rw [Multiset.cons_bind, ← ih]
    by_cases hb : p b
    · rw [Multiset.filter_cons_of_pos _ hb, if_pos hb, Multiset.map_cons,
        Multiset.singleton_add]
    · rw [Multiset.filter_cons_of_neg _ hb, if_neg hb, zero_add]

/-- The two sides of a join may be exchanged if merged pairs do not show their order. -/
theorem joinOn_comm (alike : ∀ μ ∈ xs, ∀ ν ∈ ys, on μ ν → merge μ ν = merge ν μ) :
    joinOn on xs ys = joinOn (fun ν μ => on μ ν) ys xs := by
  classical
  simp only [joinOn, bind_filter_map]
  rw [Multiset.bind_bind]
  refine Multiset.bind_congr fun ν hν => Multiset.bind_congr fun μ hμ => ?_
  by_cases pair : on μ ν
  · rw [if_pos pair, if_pos pair, alike μ hμ ν hν pair]
  · rw [if_neg pair, if_neg pair]

/-- Joins are associative if both orders ask the same of a triple. -/
theorem joinOn_assoc {first second third fourth : Mapping V α → Mapping V α → Prop}
    (same : ∀ μ ∈ xs, ∀ ν ∈ ys, ∀ ξ ∈ zs,
      first μ ν ∧ second (merge μ ν) ξ ↔ third ν ξ ∧ fourth μ (merge ν ξ)) :
    joinOn second (joinOn first xs ys) zs = joinOn fourth xs (joinOn third ys zs) := by
  classical
  simp only [joinOn, bind_filter_map, Multiset.bind_assoc]
  refine Multiset.bind_congr fun μ hμ => ?_
  refine Multiset.bind_congr fun ν hν => ?_
  by_cases pair : first μ ν
  · rw [if_pos pair, Multiset.singleton_bind]
    refine Multiset.bind_congr fun ξ hξ => ?_
    have here := same μ hμ ν hν ξ hξ
    by_cases inner : third ν ξ
    · rw [if_pos inner, Multiset.singleton_bind, merge_assoc]
      exact if_congr (by simpa [pair, inner] using here) rfl rfl
    · rw [if_neg inner, Multiset.zero_bind, if_neg]
      intro outer
      exact inner (here.mp ⟨pair, outer⟩).1
  · rw [if_neg pair, Multiset.zero_bind]
    symm
    refine (Multiset.bind_congr fun ξ hξ => ?_).trans (Multiset.bind_zero zs)
    by_cases inner : third ν ξ
    · rw [if_pos inner, Multiset.singleton_bind, if_neg]
      intro outer
      exact pair ((same μ hμ ν hν ξ hξ).mpr ⟨inner, outer⟩).1
    · rw [if_neg inner, Multiset.zero_bind]

end JoinOn

theorem join_comm (xs ys : Multiset (Mapping V α)) : join xs ys = join ys xs := by
  rw [join, joinOn_comm fun _ _ _ _ pair => Compatible.merge_comm pair]
  exact joinOn_congr fun _ _ _ _ => ⟨Compatible.symm, Compatible.symm⟩

open Classical in
/-- `Minus`: the solutions on the left without a compatible one on the right that binds
one of their variables. -/
noncomputable def minus (xs ys : Multiset (Mapping V α)) : Multiset (Mapping V α) :=
  xs.filter fun μ => ¬ ∃ ν ∈ ys, Compatible μ ν ∧ ∃ v, μ v ≠ none ∧ ν v ≠ none

open Classical in
/-- `LeftJoin`: the compatible pairs whose merge meets a condition, and the solutions on the
left that are in no such pair. -/
noncomputable def leftJoin (holds : Mapping V α → Prop) (xs ys : Multiset (Mapping V α)) :
    Multiset (Mapping V α) :=
  xs.bind fun μ =>
    if ∃ ν ∈ ys, Compatible μ ν ∧ holds (merge μ ν) then
      (ys.filter fun ν => Compatible μ ν ∧ holds (merge μ ν)).map (merge μ)
    else {μ}

/-- `(a IS NULL OR a = b)` for each of some variables. -/
def Fills (names : List V) (μ ν : Mapping V α) : Prop :=
  ∀ v ∈ names, μ v = none ∨ μ v = ν v

/-- A solution binds nothing outside of some variables. -/
def Within (names : List V) (μ : Mapping V α) : Prop := ∀ v, v ∉ names → μ v = none

variable {names names' : List V} {μ ν ξ : Mapping V α}

theorem Fills.compatible (h : Fills names μ ν) (within : Within names ν) : Compatible μ ν := by
  intro v
  by_cases hv : v ∈ names
  · obtain free | same := h v hv
    · exact Or.inl free
    · exact Or.inr (Or.inr same)
  · exact Or.inr (Or.inl (within v hv))

theorem Compatible.fills_iff (h : Compatible μ ν) :
    Fills names μ ν ↔ ∀ v ∈ names, ν v = none → μ v = none := by
  constructor
  · intro fills v hv free
    obtain free' | same := fills v hv
    · exact free'
    · exact same.trans free
  · intro free v hv
    obtain free' | free' | same := h v
    · exact Or.inl free'
    · exact Or.inl (free v hv free')
    · exact Or.inr same

/-- Joined in either nesting, three solutions fill in each other's nulls, unless the
first one binds a variable that the second one leaves to the third. -/
theorem fills_merge_iff (within : Within names ν)
    (half : Compatible μ ν → ∀ v ∈ names, ν v = none → μ v = none) :
    Fills names μ ν ∧ Fills names' (merge μ ν) ξ ↔
      Fills names' ν ξ ∧ Fills (names ++ names') μ (merge ν ξ) := by
  constructor
  · rintro ⟨inner, outer⟩
    have free := half (inner.compatible within)
    constructor
    · intro v hv
      obtain none' | same := outer v hv
      · left
        simp only [merge, Option.or_eq_none_iff] at none'
        exact none'.2
      · by_cases member : v ∈ names
        · obtain unbound | equal := inner v member
          · right
            simpa [merge, unbound] using same
          · right
            simpa [merge, equal] using same
        · exact Or.inl (within v member)
    · intro v hv
      cases bound : μ v with
      | none => exact Or.inl rfl
      | some a =>
        right
        rw [List.mem_append] at hv
        by_cases member : v ∈ names
        · obtain unbound | equal := inner v member
          · rw [bound] at unbound
            cases unbound
          · rw [bound] at equal
            simp [merge, ← equal]
        · have outer' := outer v (hv.resolve_left member)
          have unbound := within v member
          simpa [merge, bound, unbound] using outer'
  · rintro ⟨inner, outer⟩
    have pair : Compatible μ ν := by
      intro v
      by_cases member : v ∈ names
      · obtain free | same := outer v (List.mem_append_left _ member)
        · exact Or.inl free
        · cases bound : ν v with
          | none => exact Or.inr (Or.inl rfl)
          | some b =>
            right; right
            simpa [merge, bound] using same
      · exact Or.inr (Or.inl (within v member))
    refine ⟨pair.fills_iff.mpr (half pair), ?_⟩
    intro v hv
    cases bound : μ v with
    | none =>
      obtain free | same := inner v hv
      · left
        simp [merge, bound, free]
      · right
        simp [merge, bound, same]
    | some a =>
      right
      have outer' := outer v (List.mem_append_right _ hv)
      rw [bound] at outer'
      simp only [reduceCtorEq, false_or] at outer'
      obtain free | same := inner v hv
      · simp only [merge, bound, Option.some_or]
        rw [outer']
        simp [merge, free]
      · simp only [merge, bound, Option.some_or]
        rw [outer']
        simp [merge, same]

/-- The solution that binds nothing. -/
def empty : Mapping V α := fun _ => none

section Apart

variable {xs ys zs : Multiset (Mapping V α)} {k : Nat}

theorem Within.compatible (left : Within names μ) (right : Within names' ν)
    (apart : names.Disjoint names') : Compatible μ ν := by
  intro v
  by_cases hv : v ∈ names
  · exact Or.inr (Or.inl (right v fun hv' => apart hv hv'))
  · exact Or.inl (left v hv)

theorem mem_join {ξ : Mapping V α} :
    ξ ∈ join xs ys ↔ ∃ μ ∈ xs, ∃ ν ∈ ys, Compatible μ ν ∧ merge μ ν = ξ := by
  simp only [join, joinOn, Multiset.mem_bind, Multiset.mem_map, Multiset.mem_filter, and_assoc]

theorem card_join_le (xs ys : Multiset (Mapping V α)) :
    (join xs ys).card ≤ xs.card * ys.card := by
  classical
  have rows : ∀ n ∈ xs.map fun μ => ((ys.filter (Compatible μ)).map (merge μ)).card,
      n ≤ ys.card := by
    intro n hn
    obtain ⟨μ, -, rfl⟩ := Multiset.mem_map.mp hn
    rw [Multiset.card_map]
    exact Multiset.card_le_card (Multiset.filter_le _ _)
  have total := Multiset.sum_le_card_nsmul _ _ rows
  rw [Multiset.card_map] at total
  replace total : _ ≤ xs.card * ys.card := total
  rw [join, joinOn, Multiset.card_bind]
  refine le_trans (le_of_eq ?_) total
  congr 2

theorem merge_empty (μ : Mapping V α) : merge μ empty = μ := by
  funext v
  exact Option.or_none

theorem bind_replicate (xs : Multiset (Mapping V α)) (k : Nat) :
    (xs.bind fun μ => Multiset.replicate k μ) = k • xs := by
  induction k with
  | zero => simp
  | succ k ih => simp only [Multiset.replicate_succ, Multiset.bind_cons, Multiset.map_id',
      succ_nsmul', ih]

/-- Joined with solutions that bind nothing, each solution is repeated. -/
theorem join_replicate_empty (xs : Multiset (Mapping V α)) (k : Nat) :
    join xs (Multiset.replicate k empty) = k • xs := by
  classical
  rw [← bind_replicate, join, joinOn]
  refine Multiset.bind_congr fun μ _ => ?_
  rw [Multiset.filter_eq_self.mpr, Multiset.map_replicate, merge_empty]
  intro ν hν v
  rw [Multiset.eq_of_mem_replicate hν]
  exact Or.inr (Or.inl rfl)

/-- Solutions that bind variables of one side only are the join of both sides just if one side
binds nothing. -/
theorem eq_join_iff (apart : names.Disjoint names') (hxs : ∀ μ ∈ xs, Within names μ)
    (hys : ∀ ν ∈ ys, Within names' ν) (hzs : ∀ ξ ∈ zs, Within names ξ ∨ Within names' ξ) :
    zs = join xs ys ↔ ∃ k, ys = Multiset.replicate k empty ∧ zs = k • xs ∨
      xs = Multiset.replicate k empty ∧ zs = k • ys := by
  constructor
  · rintro rfl
    by_cases hy : ∀ ν ∈ ys, ν = empty
    · have same := Multiset.eq_replicate_card.mpr hy
      refine ⟨ys.card, .inl ⟨same, ?_⟩⟩
      rw [same, join_replicate_empty, Multiset.card_replicate]
    · have hx : ∀ μ ∈ xs, μ = empty := by
        obtain ⟨ν, hν, bound⟩ := not_forall₂.mp hy
        obtain ⟨v, hv⟩ := Function.ne_iff.mp bound
        intro μ hμ
        funext w
        have pair := (hxs μ hμ).compatible (hys ν hν) apart
        have inRight : v ∈ names' := by
          by_contra outside
          exact hv (hys ν hν v outside)
        -- The merged solution binds `v`, so it is one of the right side.
        obtain left | right := hzs _ (mem_join.mpr ⟨μ, hμ, ν, hν, pair, rfl⟩)
        · have free := left v fun inLeft => apart inLeft inRight
          exact absurd (Option.or_eq_none_iff.mp free).2 hv
        · by_cases inLeft : w ∈ names
          · exact (Option.or_eq_none_iff.mp (right w fun here => apart inLeft here)).1
          · exact hxs μ hμ w inLeft
      have same := Multiset.eq_replicate_card.mpr hx
      refine ⟨xs.card, .inr ⟨same, ?_⟩⟩
      rw [join_comm, same, join_replicate_empty, Multiset.card_replicate]
  · rintro ⟨k, ⟨rfl, rfl⟩ | ⟨rfl, rfl⟩⟩
    · rw [join_replicate_empty]
    · rw [join_comm, join_replicate_empty]

end Apart

end Mapping
