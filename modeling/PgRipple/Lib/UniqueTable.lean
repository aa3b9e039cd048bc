import Mathlib.Data.List.Nodup

/-!
# Tables with a unique key

A `UniqueTable key` is a list of rows in which no two rows share a key. The
constraint is a field, so every table that can be written down satisfies it, and
each operation below discharges it once.

`HasKey` is the observation most clients need. `find?` additionally gives the row
itself and is the reading of a table as a finite map.
-/

/-- A list of rows that satisfies a uniqueness constraint on `key`. -/
structure UniqueTable {α κ : Type*} (key : α → κ) where
  /-- The stored rows, in insertion order. -/
  rows : List α
  /-- The constraint itself. -/
  unique : (rows.map key).Nodup

namespace UniqueTable

variable {α κ : Type*} {key : α → κ}

/-- The table without rows. -/
def empty (key : α → κ) : UniqueTable key := ⟨[], List.nodup_nil⟩

/-- Some row of the table has this key. -/
def HasKey (t : UniqueTable key) (k : κ) : Prop := k ∈ t.rows.map key

theorem hasKey_iff {t : UniqueTable key} {k : κ} :
    t.HasKey k ↔ ∃ r ∈ t.rows, key r = k := List.mem_map

theorem HasKey.of_mem {t : UniqueTable key} {r : α} (hr : r ∈ t.rows) : t.HasKey (key r) :=
  List.mem_map_of_mem hr

theorem eq_of_key_eq (t : UniqueTable key) {r r' : α} (hr : r ∈ t.rows) (hr' : r' ∈ t.rows)
    (h : key r = key r') : r = r' := List.inj_on_of_nodup_map t.unique hr hr' h

theorem eq_of_map_key_eq (t : UniqueTable key) {rs rs' : List α} (hrs : ∀ r ∈ rs, r ∈ t.rows)
    (hrs' : ∀ r ∈ rs', r ∈ t.rows) (h : rs.map key = rs'.map key) : rs = rs' := by
  induction rs generalizing rs' with
  | nil => exact (List.map_eq_nil_iff.mp h.symm).symm
  | cons r rs ih =>
    cases rs' with
    | nil => cases h
    | cons r' rs' =>
      obtain ⟨first, rest⟩ := List.cons.inj h
      obtain ⟨here, later⟩ := List.forall_mem_cons.mp hrs
      obtain ⟨here', later'⟩ := List.forall_mem_cons.mp hrs'
      rw [t.eq_of_key_eq here here' first, ih later later' rest]

@[simp] theorem rows_empty : (empty key).rows = [] := rfl

@[simp] theorem not_hasKey_empty (k : κ) : ¬ (empty key).HasKey k := List.not_mem_nil

instance [DecidableEq κ] (t : UniqueTable key) (k : κ) : Decidable (t.HasKey k) :=
  inferInstanceAs (Decidable (k ∈ t.rows.map key))

section Delete

/-- `DELETE FROM t WHERE cond`. -/
def deleteWhere (t : UniqueTable key) (cond : α → Bool) : UniqueTable key where
  rows := t.rows.filter fun r => !cond r
  unique := t.unique.sublist (List.filter_sublist.map key)

variable {t : UniqueTable key} {cond : α → Bool}

@[simp] theorem mem_deleteWhere {r : α} :
    r ∈ (t.deleteWhere cond).rows ↔ r ∈ t.rows ∧ cond r = false := by
  simp [deleteWhere]

/-- When the condition only reads the key, deleting removes keys. -/
theorem hasKey_deleteWhere (byKey : κ → Bool) {k : κ} :
    (t.deleteWhere fun r => byKey (key r)).HasKey k ↔ t.HasKey k ∧ byKey k = false := by
  simp only [hasKey_iff, mem_deleteWhere]
  constructor
  · rintro ⟨r, ⟨hr, keep⟩, rfl⟩
    exact ⟨⟨r, hr, rfl⟩, keep⟩
  · rintro ⟨⟨r, hr, rfl⟩, keep⟩
    exact ⟨r, ⟨hr, keep⟩, rfl⟩

/-- Deleting by a condition that no row meets. -/
theorem deleteWhere_eq_self (h : ∀ r ∈ t.rows, cond r = false) : t.deleteWhere cond = t := by
  have same : t.rows.filter (fun r => !cond r) = t.rows := by
    apply List.filter_eq_self.mpr
    intro r hr
    rw [h r hr]
    rfl
  cases t
  simp only [deleteWhere, mk.injEq]
  exact same

/-- A key is deleted with its one row. -/
theorem hasKey_deleteWhere_iff (t : UniqueTable key) (cond : α → Bool) (k : κ) :
    (t.deleteWhere cond).HasKey k ↔ t.HasKey k ∧ ¬ ∃ r ∈ t.rows, key r = k ∧ cond r = true := by
  simp only [hasKey_iff, mem_deleteWhere]
  constructor
  · rintro ⟨r, ⟨hr, keep⟩, rfl⟩
    refine ⟨⟨r, hr, rfl⟩, ?_⟩
    rintro ⟨r', hr', same, gone⟩
    rw [t.eq_of_key_eq hr' hr same, keep] at gone
    cases gone
  · rintro ⟨⟨r, hr, rfl⟩, keep⟩
    refine ⟨r, ⟨hr, ?_⟩, rfl⟩
    by_contra gone
    exact keep ⟨r, hr, rfl, by simpa using gone⟩

end Delete

section Update

/-- `UPDATE t SET … WHERE cond`, for an assignment that leaves the key alone. -/
def update (t : UniqueTable key) (f : α → α) (keeps : ∀ r, key (f r) = key r) :
    UniqueTable key where
  rows := t.rows.map f
  unique := by
    have same : (t.rows.map f).map key = t.rows.map key := by
      rw [List.map_map]
      exact List.map_congr_left fun r _ => keeps r
    rw [same]
    exact t.unique

variable {t : UniqueTable key} {f : α → α} {keeps : ∀ r, key (f r) = key r}

@[simp] theorem mem_update {r : α} :
    r ∈ (t.update f keeps).rows ↔ ∃ r' ∈ t.rows, f r' = r := List.mem_map

@[simp] theorem hasKey_update {k : κ} : (t.update f keeps).HasKey k ↔ t.HasKey k := by
  simp only [hasKey_iff, mem_update]
  constructor
  · rintro ⟨_, ⟨r, hr, rfl⟩, rfl⟩
    exact ⟨r, hr, (keeps r).symm⟩
  · rintro ⟨r, hr, rfl⟩
    exact ⟨f r, ⟨r, hr, rfl⟩, keeps r⟩

end Update

section Insert

variable [DecidableEq κ]

/-- `INSERT … ON CONFLICT DO NOTHING`: a row whose key is present is skipped. -/
def insertNew (t : UniqueTable key) (r : α) : UniqueTable key :=
  if present : t.HasKey (key r) then t
  else
    { rows := t.rows ++ [r]
      unique := by
        have fresh : key r ∉ t.rows.map key := present
        rw [List.map_append, List.nodup_append]
        refine ⟨t.unique, List.nodup_singleton _, ?_⟩
        intro k hk k' hk' same
        have : k' = key r := by simpa using hk'
        exact fresh (this ▸ same ▸ hk) }

variable {t : UniqueTable key} {r : α}

theorem insertNew_of_hasKey (present : t.HasKey (key r)) : t.insertNew r = t := by
  simp [insertNew, present]

theorem rows_insertNew_of_not_hasKey (fresh : ¬ t.HasKey (key r)) :
    (t.insertNew r).rows = t.rows ++ [r] := by
  simp [insertNew, fresh]

@[simp] theorem mem_insertNew {r' : α} :
    r' ∈ (t.insertNew r).rows ↔ r' ∈ t.rows ∨ (¬ t.HasKey (key r) ∧ r' = r) := by
  by_cases present : t.HasKey (key r)
  · simp [insertNew_of_hasKey present, present]
  · simp [rows_insertNew_of_not_hasKey present, present]

@[simp] theorem hasKey_insertNew {k : κ} :
    (t.insertNew r).HasKey k ↔ t.HasKey k ∨ k = key r := by
  simp only [hasKey_iff, mem_insertNew]
  constructor
  · rintro ⟨r', hr' | ⟨_, rfl⟩, rfl⟩
    · exact .inl ⟨r', hr', rfl⟩
    · exact .inr rfl
  · rintro (⟨r', hr', rfl⟩ | rfl)
    · exact ⟨r', .inl hr', rfl⟩
    · by_cases present : t.HasKey (key r)
      · obtain ⟨r', hr', same⟩ := hasKey_iff.mp present
        exact ⟨r', .inl hr', same⟩
      · exact ⟨r, .inr ⟨fun h => present (hasKey_iff.mpr h), rfl⟩, rfl⟩

theorem length_filter_key (t : UniqueTable key) (k : κ) :
    (t.rows.filter fun r => key r = k).length = if t.HasKey k then 1 else 0 := by
  have counted : (t.rows.filter fun r => key r = k).length = (t.rows.map key).count k := by
    rw [List.count, List.countP_map, List.countP_eq_length_filter]
    congr 1
  rw [counted, List.Nodup.count t.unique]
  exact if_congr Iff.rfl rfl rfl

theorem filter_key_eq (hr : r ∈ t.rows) : (t.rows.filter fun r' => key r' = key r) = [r] := by
  have single := t.length_filter_key (key r)
  rw [if_pos (HasKey.of_mem hr)] at single
  obtain ⟨r', only⟩ := List.length_eq_one_iff.mp single
  have mine : r ∈ t.rows.filter fun r' => key r' = key r :=
    List.mem_filter.mpr ⟨hr, decide_eq_true rfl⟩
  rw [only, List.mem_singleton] at mine
  rw [only, mine]

/-- A multi-row `INSERT … ON CONFLICT DO NOTHING`, one row after the other. -/
def insertAll (t : UniqueTable key) (rs : List α) : UniqueTable key := rs.foldl insertNew t

@[simp] theorem hasKey_insertAll {rs : List α} {k : κ} :
    (t.insertAll rs).HasKey k ↔ t.HasKey k ∨ k ∈ rs.map key := by
  induction rs generalizing t with
  | nil => simp [insertAll]
  | cons x xs ih =>
    change ((t.insertNew x).insertAll xs).HasKey k ↔ _
    rw [ih, hasKey_insertNew, List.map_cons, List.mem_cons, or_assoc]

theorem mem_of_mem_insertAll {rs : List α} {r' : α} (h : r' ∈ (t.insertAll rs).rows) :
    r' ∈ t.rows ∨ r' ∈ rs := by
  induction rs generalizing t with
  | nil => exact .inl h
  | cons x xs ih =>
    obtain old | new := ih (t := t.insertNew x) h
    · obtain older | ⟨-, rfl⟩ := mem_insertNew.mp old
      · exact .inl older
      · exact .inr List.mem_cons_self
    · exact .inr (List.mem_cons_of_mem x new)

/-- `INSERT … ON CONFLICT DO UPDATE`: a present row is rewritten by `f`. -/
def upsert (t : UniqueTable key) (r : α) (f : α → α) (keeps : ∀ r, key (f r) = key r) :
    UniqueTable key :=
  if t.HasKey (key r) then
    t.update (fun r' => if key r' = key r then f r' else r') (by
      intro r'
      split
      · exact keeps r'
      · rfl)
  else t.insertNew r

@[simp] theorem hasKey_upsert {f : α → α} {keeps : ∀ r, key (f r) = key r} {k : κ} :
    (t.upsert r f keeps).HasKey k ↔ t.HasKey k ∨ k = key r := by
  unfold upsert
  split
  · rename_i present
    simp only [hasKey_update]
    exact ⟨.inl, fun h => h.elim id fun same => same ▸ present⟩
  · exact hasKey_insertNew

end Insert

section Lookup

variable [DecidableEq κ]

/-- The row with a given key, if there is one. -/
def find? (t : UniqueTable key) (k : κ) : Option α := t.rows.find? fun r => key r = k

variable {t : UniqueTable key}

theorem find?_eq_some_iff {k : κ} {r : α} :
    t.find? k = some r ↔ r ∈ t.rows ∧ key r = k := by
  constructor
  · intro found
    exact ⟨List.mem_of_find?_eq_some found, by simpa using List.find?_some found⟩
  · rintro ⟨hr, rfl⟩
    cases found : t.find? (key r) with
    | none =>
      have absent := List.find?_eq_none.mp found r hr
      simp at absent
    | some r' =>
      have hr' := List.mem_of_find?_eq_some found
      have same : key r' = key r := by simpa using List.find?_some found
      rw [t.eq_of_key_eq hr' hr same]

theorem find?_eq_none_iff {k : κ} : t.find? k = none ↔ ¬ t.HasKey k := by
  simp [find?, hasKey_iff]

@[simp] theorem find?_empty (k : κ) : (empty key).find? k = none := rfl

/-- An update in place acts on the row found. -/
theorem find?_update {f : α → α} {keeps : ∀ r, key (f r) = key r} {k : κ} :
    (t.update f keeps).find? k = (t.find? k).map f := by
  cases found : t.find? k with
  | none =>
    rw [find?_eq_none_iff] at found
    simpa [find?_eq_none_iff] using found
  | some r =>
    obtain ⟨hr, rfl⟩ := find?_eq_some_iff.mp found
    exact find?_eq_some_iff.mpr ⟨mem_update.mpr ⟨r, hr, rfl⟩, keeps r⟩

theorem find?_insertNew {r : α} {k : κ} :
    (t.insertNew r).find? k =
      if k = key r then some ((t.find? k).getD r) else t.find? k := by
  by_cases present : t.HasKey (key r)
  · rw [insertNew_of_hasKey present]
    split
    · rename_i same
      obtain ⟨r', hr', hk⟩ := hasKey_iff.mp present
      have found : t.find? k = some r' := find?_eq_some_iff.mpr ⟨hr', hk.trans same.symm⟩
      simp [found]
    · rfl
  · simp only [find?, rows_insertNew_of_not_hasKey present, List.find?_append]
    split
    · rename_i same
      simp [same]
    · rename_i other
      simp [Ne.symm other]

/-- The first row that is inserted under a key stays. -/
theorem find?_insertAll {rs : List α} {k : κ} :
    (t.insertAll rs).find? k = (t.find? k).or (rs.find? fun r => key r = k) := by
  induction rs generalizing t with
  | nil => simp [insertAll]
  | cons r rs ih =>
    change ((t.insertNew r).insertAll rs).find? k = _
    rw [ih, find?_insertNew]
    by_cases same : key r = k
    · cases found : t.find? k <;> simp [same]
    · simp [same, Ne.symm same]

/-- When the condition only reads the key, deleting forgets keys. -/
theorem find?_deleteWhere (byKey : κ → Bool) {k : κ} :
    (t.deleteWhere fun r => byKey (key r)).find? k =
      if byKey k = true then none else t.find? k := by
  split
  · rename_i gone
    rw [find?_eq_none_iff, hasKey_deleteWhere, gone]
    simp
  · rename_i keep
    cases found : t.find? k with
    | none =>
      rw [find?_eq_none_iff] at found
      rw [find?_eq_none_iff, hasKey_deleteWhere]
      exact fun old => found old.1
    | some r =>
      obtain ⟨hr, same⟩ := find?_eq_some_iff.mp found
      refine find?_eq_some_iff.mpr ⟨mem_deleteWhere.mpr ⟨hr, ?_⟩, same⟩
      rw [same]
      simpa using keep

theorem find?_upsert {r : α} {f : α → α} {keeps : ∀ r, key (f r) = key r} {k : κ} :
    (t.upsert r f keeps).find? k =
      if k = key r then some (((t.find? k).map f).getD r) else t.find? k := by
  unfold upsert
  split
  · rename_i present
    rw [find?_update]
    cases found : t.find? k with
    | none =>
      have absent := find?_eq_none_iff.mp found
      have other : k ≠ key r := fun same => absent (same ▸ present)
      simp [other]
    | some r' =>
      obtain ⟨_, rfl⟩ := find?_eq_some_iff.mp found
      by_cases same : key r' = key r <;> simp [same]
  · rename_i fresh
    rw [find?_insertNew]
    split
    · rename_i same
      have missing : t.find? k = none := find?_eq_none_iff.mpr (same ▸ fresh)
      simp [missing]
    · rfl

end Lookup

end UniqueTable
