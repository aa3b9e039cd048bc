import Mathlib.Data.List.Basic

/-!
# Outer joins

A left join pairs each row with its partners in a relation, and a row without partner
with nothing. It repeats rows that have several partners, but a row that stays without one
occurs once. So the rows of a left join that found nothing are the rows without partner,
in their order and with their multiplicity, and this remains so when several relations
are joined one after the other.
-/

namespace OuterJoin

variable {α β : Type*}

/-- `LEFT JOIN relation ON on`. -/
def leftJoin (on : α → β → Bool) (rows : List α) (relation : List β) : List (α × Option β) :=
  rows.flatMap fun a =>
    match relation.filter (on a) with
    | [] => [(a, none)]
    | partners => partners.map fun b => (a, some b)

theorem mem_leftJoin_some {on : α → β → Bool} {rows : List α} {relation : List β} {a : α} {b : β} :
    (a, some b) ∈ leftJoin on rows relation ↔ a ∈ rows ∧ b ∈ relation ∧ on a b = true := by
  rw [leftJoin, List.mem_flatMap]
  constructor
  · rintro ⟨a', ha', mem⟩
    cases partners : relation.filter (on a') with
    | nil =>
      rw [partners] at mem
      cases List.mem_singleton.mp mem
    | cons b' rest =>
      rw [partners] at mem
      obtain ⟨c, hc, same⟩ := List.mem_map.mp mem
      cases same
      exact ⟨ha', List.mem_filter.mp (partners ▸ hc)⟩
  · rintro ⟨ha, hb⟩
    refine ⟨a, ha, ?_⟩
    have partner : b ∈ relation.filter (on a) := List.mem_filter.mpr hb
    cases partners : relation.filter (on a) with
    | nil =>
      rw [partners] at partner
      cases partner
    | cons b' rest =>
      rw [partners] at partner
      exact List.mem_map_of_mem partner

theorem mem_leftJoin_none {on : α → β → Bool} {rows : List α} {relation : List β} {a : α} :
    (a, none) ∈ leftJoin on rows relation ↔ a ∈ rows ∧ ∀ b ∈ relation, on a b = false := by
  rw [leftJoin, List.mem_flatMap]
  have alone (a : α) : relation.filter (on a) = [] ↔ ∀ b ∈ relation, on a b = false := by
    simp [List.filter_eq_nil_iff]
  constructor
  · rintro ⟨a', ha', mem⟩
    cases partners : relation.filter (on a') with
    | nil =>
      rw [partners] at mem
      cases List.mem_singleton.mp mem
      exact ⟨ha', (alone a).mp partners⟩
    | cons b' rest =>
      rw [partners] at mem
      obtain ⟨c, -, same⟩ := List.mem_map.mp mem
      cases same
  · rintro ⟨ha, nobody⟩
    refine ⟨a, ha, ?_⟩
    rw [(alone a).mpr nobody]
    exact List.mem_singleton_self _

theorem leftJoin_congr {on on' : α → β → Bool} {rows : List α} {relation : List β}
    (same : ∀ a ∈ rows, ∀ b ∈ relation, on a b = on' a b) :
    leftJoin on rows relation = leftJoin on' rows relation := by
  refine List.flatMap_congr fun a ha => ?_
  rw [List.filter_congr (same a ha)]

/-- A condition on the relation alone may be moved into the join condition. -/
theorem leftJoin_filter (on : α → β → Bool) (p : β → Bool) (rows : List α) (relation : List β) :
    leftJoin on rows (relation.filter p) = leftJoin (fun a b => p b && on a b) rows relation := by
  refine List.flatMap_congr fun a _ => ?_
  rw [List.filter_filter]
  simp only [Bool.and_comm]

/-- `IS NULL` on a column of the relation that is never `NULL` in it. -/
theorem leftJoin_isNone (on : α → β → Bool) (rows : List α) (relation : List β) :
    ((leftJoin on rows relation).filter fun row => row.2.isNone).map Prod.fst =
      rows.filter fun a => !relation.any (on a) := by
  induction rows with
  | nil => rfl
  | cons a rows ih =>
    have split : leftJoin on (a :: rows) relation =
        leftJoin on [a] relation ++ leftJoin on rows relation := by
      simp [leftJoin]
    rw [split, List.filter_append, List.map_append, ih, List.filter_cons]
    cases partners : relation.filter (on a) with
    | nil =>
      have nobody : relation.any (on a) = false := by
        rw [List.any_eq_false]
        exact List.filter_eq_nil_iff.mp partners
      simp [leftJoin, partners, nobody]
    | cons b rest =>
      have somebody : relation.any (on a) = true := by
        have hb : b ∈ relation.filter (on a) := by
          rw [partners]
          exact List.mem_cons_self
        exact List.any_eq_true.mpr ⟨b, List.mem_of_mem_filter hb, List.of_mem_filter hb⟩
      simp [leftJoin, partners, somebody]

/-- Left joins one after the other, each with a condition on the first columns only. -/
def leftJoins (rows : List (α × List (Option β))) (joins : List ((α → β → Bool) × List β)) :
    List (α × List (Option β)) :=
  joins.foldl (fun rows join =>
    (leftJoin (fun row => join.1 row.1) rows join.2).map fun row =>
    (row.1.1, row.1.2 ++ [row.2])) rows

/-- All joined columns are `NULL`. -/
def unmatched (row : α × List (Option β)) : Bool := row.2.all Option.isNone

theorem map_filter_leftJoins (rows : List (α × List (Option β)))
    (joins : List ((α → β → Bool) × List β)) :
    ((leftJoins rows joins).filter unmatched).map Prod.fst =
      ((rows.filter unmatched).map Prod.fst).filter fun a =>
        joins.all fun join => !join.2.any (join.1 a) := by
  induction joins generalizing rows with
  | nil => simp [leftJoins]
  | cons join joins ih =>
    let joined := leftJoin (fun row => join.1 row.1) rows join.2
    have step : leftJoins rows (join :: joins) =
        leftJoins (joined.map fun row => (row.1.1, row.1.2 ++ [row.2])) joins := rfl
    -- a row stays unmatched if it was and finds no partner
    have once : ((joined.map fun row => (row.1.1, row.1.2 ++ [row.2])).filter unmatched).map
        Prod.fst =
        ((rows.filter unmatched).map Prod.fst).filter fun a => !join.2.any (join.1 a) := by
      have both : joined.filter (unmatched ∘ fun row => (row.1.1, row.1.2 ++ [row.2])) =
          (joined.filter fun row => row.2.isNone).filter fun row => unmatched row.1 := by
        rw [List.filter_filter]
        refine List.filter_congr fun row _ => ?_
        simp [unmatched]
      have alone := leftJoin_isNone (fun row : α × List (Option β) => join.1 row.1) rows join.2
      calc
        _ = (joined.filter (unmatched ∘ fun row => (row.1.1, row.1.2 ++ [row.2]))).map
            fun row => row.1.1 := by
          rw [List.filter_map, List.map_map]
          rfl
        _ = ((((joined.filter fun row => row.2.isNone).map Prod.fst).filter unmatched).map
            Prod.fst) := by
          rw [both, List.filter_map, List.map_map]
          rfl
        _ = ((rows.filter fun row => !join.2.any (join.1 row.1)).filter unmatched).map
          Prod.fst := by
          rw [alone]
        _ = _ := by
          rw [List.filter_map, List.filter_filter, List.filter_filter]
          congr 1
          refine List.filter_congr fun row _ => ?_
          exact Bool.and_comm _ _
    rw [step, ih, once, List.filter_filter]
    refine List.filter_congr fun a _ => ?_
    rw [List.all_cons, Bool.and_comm]

end OuterJoin
