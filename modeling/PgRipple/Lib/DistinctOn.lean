import Mathlib.Order.Bounds.Basic
import Mathlib.Data.List.Nodup

/-!
# One row per key, of least rank

`distinctOn key rank rows` keeps, for each key that occurs, one row whose rank is
least among the rows of that key. This is the meaning of
`SELECT DISTINCT ON (key) … ORDER BY key, rank`. Which of several rows of equal
rank survives is not determined by SQL; here it is the last of them.

`Ranks rows k` is what an observer of key `k` may see. The main result says that
`distinctOn` leaves exactly the least rank.
-/

namespace DistinctOn

variable {α κ ι : Type*} (key : α → κ) (rank : α → ι)

/-- The ranks that occur together with a key. -/
def Ranks (rows : List α) (k : κ) : Set ι := {i | ∃ r ∈ rows, key r = k ∧ rank r = i}

variable {key rank}

theorem mem_ranks {rows : List α} {k : κ} {i : ι} :
    i ∈ Ranks key rank rows k ↔ ∃ r ∈ rows, key r = k ∧ rank r = i := Iff.rfl

theorem ranks_append (rows rows' : List α) (k : κ) :
    Ranks key rank (rows ++ rows') k = Ranks key rank rows k ∪ Ranks key rank rows' k := by
  ext i
  simp only [mem_ranks, Set.mem_union, List.mem_append, or_and_right, exists_or]

theorem mem_ranks_filter (key : α → κ) (rank : α → ι) (rows : List α) (byKey : κ → Bool) (k : κ)
    (i : ι) :
    i ∈ Ranks key rank (rows.filter fun r => byKey (key r)) k ↔
      i ∈ Ranks key rank rows k ∧ byKey k = true := by
  simp only [mem_ranks, List.mem_filter]
  constructor
  · rintro ⟨r, ⟨hr, keep⟩, rfl, id⟩
    exact ⟨⟨r, hr, rfl, id⟩, keep⟩
  · rintro ⟨⟨r, hr, rfl, id⟩, keep⟩
    exact ⟨r, ⟨hr, keep⟩, rfl, id⟩

/-- Leaving out ranks that are not below all others does not change the least one. -/
theorem isLeast_iff_of_cover {ι : Type*} [PartialOrder ι] {s t : Set ι} {i : ι} (inside : s ⊆ t)
    (cover : ∀ j ∈ t, ∃ k ∈ s, k ≤ j) : IsLeast s i ↔ IsLeast t i := by
  constructor
  · rintro ⟨member, least⟩
    refine ⟨inside member, ?_⟩
    intro j hj
    obtain ⟨k, hk, below⟩ := cover j hj
    exact (least hk).trans below
  · rintro ⟨member, least⟩
    obtain ⟨k, hk, below⟩ := cover i member
    have same : k = i := le_antisymm below (least (inside hk))
    exact ⟨same ▸ hk, fun j hj => least (inside hj)⟩

variable [DecidableEq κ] [LinearOrder ι] (key rank)

/-- Put a row into a list with one row per key, keeping the lower rank. -/
def insertBest (r : α) (xs : List α) : List α :=
  if ∃ x ∈ xs, key x = key r ∧ rank x ≤ rank r then xs
  else r :: xs.filter fun x => key x ≠ key r

/-- Keep one row of least rank for each key. -/
def distinctOn (rows : List α) : List α := rows.foldr (insertBest key rank) []

variable {key rank}

theorem mem_of_mem_insertBest {r x : α} {xs : List α} (h : x ∈ insertBest key rank r xs) :
    x = r ∨ x ∈ xs := by
  unfold insertBest at h
  split at h
  · exact .inr h
  · obtain rfl | h := List.mem_cons.mp h
    · exact .inl rfl
    · exact .inr (List.mem_of_mem_filter h)

theorem mem_of_mem_distinctOn {x : α} {rows : List α} (h : x ∈ distinctOn key rank rows) :
    x ∈ rows := by
  induction rows with
  | nil => exact h
  | cons r rows ih =>
    obtain rfl | h := mem_of_mem_insertBest h
    · exact List.mem_cons_self
    · exact List.mem_cons_of_mem _ (ih h)

theorem nodup_map_key_distinctOn (rows : List α) :
    ((distinctOn key rank rows).map key).Nodup := by
  induction rows with
  | nil => exact List.nodup_nil
  | cons r rows ih =>
    change ((insertBest key rank r (distinctOn key rank rows)).map key).Nodup
    unfold insertBest
    split
    · exact ih
    · rw [List.map_cons, List.nodup_cons]
      refine ⟨?_, ih.sublist (List.filter_sublist.map key)⟩
      simp

@[simp] theorem mem_map_key_distinctOn {k : κ} {rows : List α} :
    k ∈ (distinctOn key rank rows).map key ↔ k ∈ rows.map key := by
  induction rows with
  | nil => rfl
  | cons r rows ih =>
    change k ∈ (insertBest key rank r (distinctOn key rank rows)).map key ↔ _
    rw [List.map_cons, List.mem_cons, ← ih]
    unfold insertBest
    split
    · rename_i beaten
      obtain ⟨x, hx, same, _⟩ := beaten
      exact ⟨.inr, fun h => h.elim (fun hk => hk ▸ same ▸ List.mem_map_of_mem hx) id⟩
    · by_cases hk : k = key r
      · simp [hk]
      · simp only [List.map_cons, List.mem_cons, hk, false_or, List.mem_map, List.mem_filter]
        constructor
        · rintro ⟨x, ⟨hx, _⟩, rfl⟩
          exact ⟨x, hx, rfl⟩
        · rintro ⟨x, hx, rfl⟩
          exact ⟨x, ⟨hx, by simpa using hk⟩, rfl⟩

/-- A row of the updated list is beaten neither by the new row nor by an old one. -/
theorem rank_le_of_mem_insertBest {r x : α} {xs : List α} (unique : (xs.map key).Nodup)
    (h : x ∈ insertBest key rank r xs) :
    (key x = key r → rank x ≤ rank r) ∧
      ∀ y ∈ xs, key y = key x → rank x ≤ rank y := by
  unfold insertBest at h
  split at h
  · rename_i beaten
    obtain ⟨z, hz, same, better⟩ := beaten
    refine ⟨fun hk => ?_, fun y hy hk => ?_⟩
    · rwa [List.inj_on_of_nodup_map unique h hz (hk.trans same.symm)]
    · rw [List.inj_on_of_nodup_map unique hy h hk]
  · rename_i best
    obtain rfl | h := List.mem_cons.mp h
    · refine ⟨fun _ => le_rfl, fun y hy hk => ?_⟩
      by_contra worse
      exact best ⟨y, hy, hk, (not_le.mp worse).le⟩
    · obtain ⟨hx, other⟩ := List.mem_filter.mp h
      refine ⟨fun hk => absurd hk (by simpa using other), fun y hy hk => ?_⟩
      rw [List.inj_on_of_nodup_map unique hy hx hk]

/-- A surviving row has the least rank of its key. -/
theorem rank_le_of_mem_distinctOn {x r : α} {rows : List α}
    (h : x ∈ distinctOn key rank rows) (hr : r ∈ rows) (hk : key r = key x) :
    rank x ≤ rank r := by
  induction rows generalizing x with
  | nil => cases hr
  | cons y rows ih =>
    have bounds := rank_le_of_mem_insertBest (nodup_map_key_distinctOn rows) h
    obtain rfl | hr := List.mem_cons.mp hr
    · exact bounds.1 hk.symm
    · -- the row kept for this key before `y` arrived lies between the two
      have occurs : key x ∈ (distinctOn key rank rows).map key :=
        mem_map_key_distinctOn.mpr (hk ▸ List.mem_map_of_mem hr)
      obtain ⟨z, hz, same⟩ := List.mem_map.mp occurs
      exact (bounds.2 z hz same).trans (ih hz hr (hk.trans same.symm))

/-- Reducing a list leaves, for every key, exactly the least of its ranks. -/
theorem ranks_distinctOn (rows : List α) (k : κ) :
    Ranks key rank (distinctOn key rank rows) k = {i | IsLeast (Ranks key rank rows k) i} := by
  ext i
  constructor
  · rintro ⟨x, hx, rfl, rfl⟩
    refine ⟨⟨x, mem_of_mem_distinctOn hx, rfl, rfl⟩, ?_⟩
    rintro _ ⟨r, hr, hk, rfl⟩
    exact rank_le_of_mem_distinctOn hx hr hk
  · rintro ⟨⟨r, hr, rfl, rfl⟩, least⟩
    have occurs : key r ∈ (distinctOn key rank rows).map key :=
      mem_map_key_distinctOn.mpr (List.mem_map_of_mem hr)
    obtain ⟨x, hx, same⟩ := List.mem_map.mp occurs
    refine ⟨x, hx, same, ?_⟩
    apply le_antisymm (rank_le_of_mem_distinctOn hx hr same.symm)
    exact least ⟨x, mem_of_mem_distinctOn hx, same, rfl⟩

end DistinctOn
