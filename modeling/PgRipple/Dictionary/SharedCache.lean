import PgRipple.Dictionary.Hash
import PgRipple.Lib.Cache
import Mathlib.Logic.Function.Basic

/-!
# The shared encode cache

A four-way set-associative cache in shared memory maps term hashes to dictionary
ids. The top ten bits of a hash choose one of 1024 sets. A way packs the low 126
bits of the hash and a two-bit age into one word; here they are two fields. An id
of `0` marks an empty way.

Two hashes that agree in the top ten and in the low 126 bits are equal, so although
a way does not keep the whole hash, it never answers for another one.

`Holds` says that the cache maps a hash to an id, and `entries` counts the ways that
do so: nothing keeps a hash from occupying two of them.
-/

namespace PgRipple.Dictionary

/-- A way of the cache. -/
structure Way where
  hash : BitVec 126
  age : Nat
  id : Int
  deriving DecidableEq, Repr

namespace Way

/-- An unused way. -/
def empty : Way := ⟨0, 0, 0⟩

/-- The way answers for these hash bits. -/
def hit (key : BitVec 126) (w : Way) : Bool := w.hash = key && w.id ≠ 0

/-- A miss makes an occupied way one older, up to the width of the field. -/
def grow (w : Way) : Way := if w.id ≠ 0 ∧ w.age < 3 then { w with age := w.age + 1 } else w

theorem hit_empty {key : BitVec 126} : empty.hit key = false := by
  simp [hit, empty]

@[simp] theorem hit_grow {key : BitVec 126} {w : Way} : w.grow.hit key = w.hit key := by
  rw [grow]
  split <;> rfl

end Way

/-- The cache, as seen from one database. -/
structure SharedCache where
  /-- `SHMEM_READY`. -/
  ready : Bool
  /-- `MyDatabaseId`. -/
  dbOid : BitVec 32
  sets : BitVec 10 → List Way

namespace SharedCache

/-- The cache after start-up. -/
def initial (ready : Bool) (dbOid : BitVec 32) : SharedCache :=
  ⟨ready, dbOid, fun _ => List.replicate 4 Way.empty⟩

/-- `db_scoped_hash`. -/
def dbScopedHash (c : SharedCache) (hash128 : Hash) : Hash :=
  hash128 ^^^ (c.dbOid.setWidth 128 * 0x9E3779B97F4A7C15#128)

/-- `set_index`. -/
def setIndex (hash128 : Hash) : BitVec 10 := hash128.extractLsb' 118 10

/-- The part of a scoped hash that a way keeps. -/
def cleanHash (hash128 : Hash) : BitVec 126 := hash128.setWidth 126

/-- The ways in which a hash may be found. -/
def ways (c : SharedCache) (hash128 : Hash) : List Way := c.sets (setIndex (c.dbScopedHash hash128))

/-- The bits by which it is found there. -/
def key (c : SharedCache) (hash128 : Hash) : BitVec 126 := cleanHash (c.dbScopedHash hash128)

/-- Replace the set of a hash. -/
def setWays (c : SharedCache) (hash128 : Hash) (ws : List Way) : SharedCache :=
  { c with sets := Function.update c.sets (setIndex (c.dbScopedHash hash128)) ws }

/-- `encode_cache_lookup`: a hit becomes the youngest way, a miss ages all. -/
def lookup (c : SharedCache) (hash128 : Hash) : Option Int × SharedCache :=
  if c.ready then
    let hit := Way.hit (c.key hash128)
    match (c.ways hash128).find? hit with
    | some w =>
      (some w.id, c.setWays hash128 (Cache.updateFirst hit ({ · with age := 0 }) (c.ways hash128)))
    | none => (none, c.setWays hash128 ((c.ways hash128).map Way.grow))
  else (none, c)

/-- The highest age in a set. -/
def maxAge (ws : List Way) : Nat := ws.foldl (fun a w => max a w.age) 0

/-- `maxAge` is the greatest age, or the starting value of the scan if that is greater. -/
theorem foldl_maxAge (ws : List Way) (start : Nat) :
    start ≤ ws.foldl (fun a w => max a w.age) start ∧
      (∀ w ∈ ws, w.age ≤ ws.foldl (fun a w => max a w.age) start) ∧
      (ws.foldl (fun a w => max a w.age) start = start ∨
        ∃ w ∈ ws, w.age = ws.foldl (fun a w => max a w.age) start) := by
  induction ws generalizing start with
  | nil => exact ⟨Nat.le_refl _, nofun, .inl rfl⟩
  | cons w ws ih =>
    obtain ⟨le, all, attained⟩ := ih (max start w.age)
    rw [List.foldl_cons]
    refine ⟨by omega, ?_, ?_⟩
    · intro v hv
      obtain rfl | later := List.mem_cons.mp hv
      · omega
      · exact all v later
    · obtain kept | ⟨v, hv, top⟩ := attained
      · by_cases grew : start < w.age
        · exact .inr ⟨w, List.mem_cons_self, by omega⟩
        · exact .inl (by omega)
      · exact .inr ⟨v, List.mem_cons_of_mem w hv, top⟩

theorem age_le_maxAge {ws : List Way} {w : Way} (hw : w ∈ ws) : w.age ≤ maxAge ws :=
  (foldl_maxAge ws 0).2.1 w hw

theorem exists_maxAge {ws : List Way} (some_ : ws ≠ []) : ∃ w ∈ ws, w.age = maxAge ws := by
  obtain zero | top := (foldl_maxAge ws 0).2.2
  · obtain ⟨w, ws, rfl⟩ := List.exists_cons_of_ne_nil some_
    have le : w.age ≤ maxAge (w :: ws) := age_le_maxAge List.mem_cons_self
    have none : maxAge (w :: ws) = 0 := zero
    exact ⟨w, List.mem_cons_self, by omega⟩
  · exact top

/-- `encode_cache_insert`: into the first empty way, or over the first of the oldest. -/
def insert (c : SharedCache) (hash128 : Hash) (id : Int) : SharedCache :=
  if c.ready then
    let ws := c.ways hash128
    let new : Way := ⟨c.key hash128, 0, id⟩
    if ws.any fun w => w.id = 0 then
      c.setWays hash128 (Cache.updateFirst (fun w => w.id = 0) (fun _ => new) ws)
    else c.setWays hash128 (Cache.updateFirst (fun w => w.age = maxAge ws) (fun _ => new) ws)
  else c

/-- `encode_cache_evict`: empty the first way that answers for the hash. -/
def evict (c : SharedCache) (hash128 : Hash) : SharedCache :=
  if c.ready then
    c.setWays hash128
      (Cache.updateFirst (Way.hit (c.key hash128)) (fun _ => Way.empty) (c.ways hash128))
  else c

/-- `encode_cache_clear_all`. -/
def clearAll (c : SharedCache) : SharedCache :=
  if c.ready then { c with sets := fun _ => List.replicate 4 Way.empty } else c

/-- Some way maps the hash to the id. -/
def Holds (c : SharedCache) (hash128 : Hash) (id : Int) : Prop :=
  ∃ w ∈ c.ways hash128, w.hit (c.key hash128) = true ∧ w.id = id

instance (c : SharedCache) (hash128 : Hash) (id : Int) : Decidable (c.Holds hash128 id) :=
  inferInstanceAs (Decidable (∃ w ∈ c.ways hash128, _))

/-- The number of ways that answer for the hash. -/
def entries (c : SharedCache) (hash128 : Hash) : Nat :=
  (c.ways hash128).countP (Way.hit (c.key hash128))

theorem not_holds_initial {ready : Bool} {dbOid : BitVec 32} {hash128 : Hash} {id : Int} :
    ¬ (initial ready dbOid).Holds hash128 id := by
  rintro ⟨w, hw, hit, -⟩
  have empty : w = .empty := List.eq_of_mem_replicate hw
  rw [empty, Way.hit_empty] at hit
  cases hit

theorem hash_eq_of_parts {a b : Hash} (index : setIndex a = setIndex b)
    (clean : cleanHash a = cleanHash b) : a = b := by
  have high := congrArg BitVec.toNat index
  have low := congrArg BitVec.toNat clean
  simp only [setIndex, cleanHash, BitVec.extractLsb'_toNat, BitVec.toNat_setWidth,
    Nat.shiftRight_eq_div_pow] at high low
  apply BitVec.eq_of_toNat_eq
  omega

variable {c : SharedCache} {hash128 other : Hash} {id id' : Int}

theorem dbScopedHash_inj : c.dbScopedHash hash128 = c.dbScopedHash other ↔ hash128 = other := by
  rw [dbScopedHash, dbScopedHash, BitVec.xor_left_inj]

/-- A hash is found in its set by its bits, and no other hash is. -/
theorem eq_of_key (index : setIndex (c.dbScopedHash hash128) = setIndex (c.dbScopedHash other))
    (same : c.key hash128 = c.key other) : hash128 = other :=
  dbScopedHash_inj.mp (hash_eq_of_parts index same)

theorem dbScopedHash_setWays {ws : List Way} :
    (c.setWays hash128 ws).dbScopedHash other = c.dbScopedHash other := by
  simp only [dbScopedHash, setWays]

theorem key_setWays {ws : List Way} : (c.setWays hash128 ws).key other = c.key other := by
  rw [key, dbScopedHash_setWays, key]

theorem ways_setWays {ws : List Way} :
    (c.setWays hash128 ws).ways other =
      if setIndex (c.dbScopedHash other) = setIndex (c.dbScopedHash hash128) then ws
      else c.ways other := by
  rw [ways, dbScopedHash_setWays, ways]
  simp only [setWays, Function.update_apply]

theorem entries_eq_zero_iff : c.entries hash128 = 0 ↔ ∀ id, ¬ c.Holds hash128 id := by
  rw [entries, List.countP_eq_zero]
  constructor
  · rintro none id ⟨w, hw, hit, -⟩
    exact none w hw hit
  · intro none w hw hit
    exact none w.id ⟨w, hw, hit, rfl⟩

theorem Holds.id_ne_zero (h : c.Holds hash128 id) : id ≠ 0 := by
  obtain ⟨w, -, hit, rfl⟩ := h
  have parts : w.hash = c.key hash128 ∧ w.id ≠ 0 := by simpa [Way.hit] using hit
  exact parts.2

/-- A change of one set that introduces no answers introduces none at all. -/
theorem holds_of_setWays {ws : List Way} (h : (c.setWays hash128 ws).Holds other id)
    (same : setIndex (c.dbScopedHash other) = setIndex (c.dbScopedHash hash128) → ∀ w ∈ ws,
      w.hit (c.key other) = true → w.id = id → c.Holds other id) : c.Holds other id := by
  obtain ⟨w, hw, hit, rfl⟩ := h
  rw [ways_setWays] at hw
  split at hw
  · rename_i index
    exact same index w hw hit rfl
  · exact ⟨w, hw, hit, rfl⟩

theorem entries_setWays {ws : List Way} :
    (c.setWays hash128 ws).entries other =
      if setIndex (c.dbScopedHash other) = setIndex (c.dbScopedHash hash128)
      then ws.countP (Way.hit (c.key other)) else c.entries other := by
  rw [entries, ways_setWays]
  split <;> rfl

theorem holds_of_lookup (h : (c.lookup hash128).1 = some id) : c.Holds hash128 id := by
  rw [lookup] at h
  split at h
  · dsimp only at h
    split at h
    · rename_i w found
      cases h
      exact ⟨w, List.mem_of_find?_eq_some found, List.find?_some found, rfl⟩
    · cases h
  · cases h

theorem holds_lookup (h : (c.lookup hash128).2.Holds other id) : c.Holds other id := by
  rw [lookup] at h
  split at h
  · dsimp only at h
    split at h
    · refine holds_of_setWays h ?_
      intro index w hw hit wid
      rw [ways, ← index] at hw
      cases Cache.mem_updateFirst hw with
      | inl old => exact ⟨w, old, hit, wid⟩
      | inr touched =>
        obtain ⟨w', hw', -, rfl⟩ := touched
        exact ⟨w', hw', hit, wid⟩
    · refine holds_of_setWays h ?_
      intro index w hw hit wid
      rw [ways, ← index] at hw
      obtain ⟨w', hw', rfl⟩ := List.mem_map.mp hw
      refine ⟨w', hw', by simpa using hit, ?_⟩
      rw [← wid, Way.grow]
      split <;> rfl
  · exact h

theorem entries_lookup : (c.lookup hash128).2.entries other ≤ c.entries other := by
  rw [lookup]
  split
  · dsimp only
    split
    · rw [entries_setWays]
      split
      · rename_i index
        rw [entries, ways, ways, index]
        refine Cache.countP_updateFirst_le ?_ _
        intro w _ hit
        exact hit
      · exact Nat.le_refl _
    · rw [entries_setWays]
      split
      · rename_i index
        rw [entries, ways, ways, index, List.countP_map]
        refine Nat.le_of_eq (List.countP_congr ?_)
        intro w _
        rw [Function.comp_apply, Way.hit_grow]
      · exact Nat.le_refl _
  · exact Nat.le_refl _

/-- The two branches of an insertion: some way of the set becomes the new entry. -/
theorem insert_eq (ready : c.ready = true) :
    ∃ p : Way → Bool, c.insert hash128 id =
      c.setWays hash128 (Cache.updateFirst p (fun _ => ⟨c.key hash128, 0, id⟩)
        (c.ways hash128)) := by
  rw [insert, if_pos ready]
  dsimp only
  split
  · exact ⟨_, rfl⟩
  · exact ⟨_, rfl⟩

/-- An insertion adds nothing but its own entry. -/
theorem holds_insert (h : (c.insert hash128 id).Holds other id') :
    c.Holds other id' ∨ (other = hash128 ∧ id' = id) := by
  by_cases ready : c.ready = true
  · obtain ⟨p, inserted⟩ : ∃ p : Way → Bool, c.insert hash128 id = c.setWays hash128
        (Cache.updateFirst p (fun _ => ⟨c.key hash128, 0, id⟩) (c.ways hash128)) := insert_eq ready
    rw [inserted] at h
    by_cases new : other = hash128 ∧ id' = id
    · exact .inr new
    · refine .inl (holds_of_setWays h ?_)
      intro index w hw hit wid
      rw [ways, ← index] at hw
      cases Cache.mem_updateFirst hw with
      | inl old => exact ⟨w, old, hit, wid⟩
      | inr written =>
        obtain ⟨w', -, -, rfl⟩ := written
        have bits : c.key hash128 = c.key other ∧ id ≠ 0 := by simpa [Way.hit] using hit
        exact absurd ⟨(eq_of_key index.symm bits.1).symm, wid.symm⟩ new
  · rw [insert, if_neg ready] at h
    exact .inl h

theorem entries_insert :
    (c.insert hash128 id).entries other ≤
      c.entries other + if other = hash128 then 1 else 0 := by
  by_cases ready : c.ready = true
  · obtain ⟨p, inserted⟩ : ∃ p : Way → Bool, c.insert hash128 id = c.setWays hash128
        (Cache.updateFirst p (fun _ => ⟨c.key hash128, 0, id⟩) (c.ways hash128)) := insert_eq ready
    rw [inserted, entries_setWays]
    split
    · rename_i index
      rw [entries, ways, ways, index]
      split
      · exact Cache.countP_updateFirst_le_succ _
      · rename_i different
        refine Cache.countP_updateFirst_le ?_ _
        intro w _ hit
        have bits : c.key hash128 = c.key other ∧ id ≠ 0 := by simpa [Way.hit] using hit
        exact absurd (eq_of_key index.symm bits.1).symm different
    · omega
  · rw [insert, if_neg ready]
    omega

theorem holds_evict (h : (c.evict hash128).Holds other id) : c.Holds other id := by
  rw [evict] at h
  split at h
  · refine holds_of_setWays h ?_
    intro index w hw hit wid
    rw [ways, ← index] at hw
    cases Cache.mem_updateFirst hw with
    | inl old => exact ⟨w, old, hit, wid⟩
    | inr emptied =>
      obtain ⟨w', -, -, rfl⟩ := emptied
      rw [Way.hit_empty] at hit
      cases hit
  · exact h

/-- An eviction empties one way of its own hash. -/
theorem entries_evict_self (ready : c.ready = true) :
    (c.evict hash128).entries hash128 = c.entries hash128 - 1 := by
  rw [evict, if_pos ready, entries_setWays, if_pos rfl, entries]
  exact Cache.countP_updateFirst_self (fun _ => Way.hit_empty) _

/-- Nothing is found after the cache was emptied. -/
theorem entries_clearAll (ready : c.ready = true) : c.clearAll.entries hash128 = 0 := by
  rw [clearAll, if_pos ready, entries, List.countP_eq_zero]
  intro w hw hit
  have empty : w = .empty := List.eq_of_mem_replicate hw
  rw [empty, Way.hit_empty] at hit
  cases hit

theorem ready_lookup : (c.lookup hash128).2.ready = c.ready := by
  rw [lookup]
  split
  · dsimp only
    split <;> rfl
  · rfl

theorem ready_insert : (c.insert hash128 id).ready = c.ready := by
  rw [insert]
  split
  · dsimp only
    split <;> rfl
  · rfl

theorem ready_evict : (c.evict hash128).ready = c.ready := by
  rw [evict]
  split <;> rfl

theorem entries_evict_le : (c.evict hash128).entries other ≤ c.entries other := by
  rw [evict]
  split
  · rw [entries_setWays]
    split
    · rename_i index
      rw [entries, ways, ways, index]
      refine Cache.countP_updateFirst_le ?_ _
      intro w _ hit
      rw [Way.hit_empty] at hit
      cases hit
    · exact Nat.le_refl _
  · exact Nat.le_refl _

section EvictAll

variable {hashes : List Hash}

theorem ready_evictAll : (hashes.foldl evict c).ready = c.ready := by
  induction hashes generalizing c with
  | nil => rfl
  | cons h hs ih => exact ih.trans ready_evict

theorem holds_evictAll (h : (hashes.foldl evict c).Holds hash128 id) : c.Holds hash128 id := by
  induction hashes generalizing c with
  | nil => exact h
  | cons _ hs ih => exact holds_evict (ih h)

theorem entries_evictAll_le : (hashes.foldl evict c).entries hash128 ≤ c.entries hash128 := by
  induction hashes generalizing c with
  | nil => exact Nat.le_refl _
  | cons _ hs ih => exact Nat.le_trans ih entries_evict_le

/-- Evicting a hash as often as it was noted empties that many ways. -/
theorem entries_evictAll (ready : c.ready = true) :
    (hashes.foldl evict c).entries hash128 ≤ c.entries hash128 - hashes.count hash128 := by
  induction hashes generalizing c with
  | nil => exact Nat.le_refl _
  | cons other hs ih =>
    have rest := ih (ready_evict.trans ready) (c := c.evict other)
    rw [List.foldl_cons, List.count_cons]
    by_cases same : other = hash128
    · rw [same] at rest ⊢
      rw [entries_evict_self ready] at rest
      simp only [beq_self_eq_true, if_true]
      omega
    · have less : (c.evict other).entries hash128 ≤ c.entries hash128 := entries_evict_le
      simp only [beq_iff_eq, same, if_false]
      omega

end EvictAll

end SharedCache

/-- `CACHE_CAPACITY`. -/
def cacheCapacity : Nat := 16384

/-- The shared cache and one backend's `ENCODE_CACHE`. -/
structure Tiers where
  shared : SharedCache
  encodeCache : List (Hash × Int)

namespace Tiers

/-- Tier 1, whose hits are copied to tier 2, and then tier 2. -/
def lookup (t : Tiers) (hash128 : Hash) : Option Int × Tiers :=
  let (found, shared) := t.shared.lookup hash128
  match found with
  | some id => (some id, ⟨shared, Cache.put cacheCapacity hash128 id t.encodeCache⟩)
  | none =>
    let (found, cache) := Cache.get hash128 t.encodeCache
    (found, ⟨shared, cache⟩)

/-- Put a new id into both. -/
def publish (t : Tiers) (hash128 : Hash) (id : Int) : Tiers :=
  ⟨t.shared.insert hash128 id, Cache.put cacheCapacity hash128 id t.encodeCache⟩

variable {t : Tiers} {hash128 other : Hash} {id id' : Int}

theorem shared_lookup : (t.lookup hash128).2.shared = (t.shared.lookup hash128).2 := by
  rw [lookup]
  dsimp only
  split <;> rfl

/-- An answer is an entry of one of the tiers. -/
theorem held_of_lookup (h : (t.lookup hash128).1 = some id) :
    t.shared.Holds hash128 id ∨ (hash128, id) ∈ t.encodeCache := by
  rw [lookup] at h
  dsimp only at h
  split at h
  · rename_i found
    cases h
    exact .inl (SharedCache.holds_of_lookup found)
  · exact .inr (Cache.mem_of_get_eq_some h)

/-- What a lookup adds to tier 2 is what tier 1 holds. -/
theorem mem_lookup {e : Hash × Int} (h : e ∈ (t.lookup hash128).2.encodeCache) :
    e ∈ t.encodeCache ∨ e.1 = hash128 ∧ t.shared.Holds hash128 e.2 := by
  rw [lookup] at h
  dsimp only at h
  split at h
  · rename_i found
    cases Cache.mem_put h with
    | inl new =>
      rw [new]
      exact .inr ⟨rfl, SharedCache.holds_of_lookup found⟩
    | inr old => exact .inl old
  · exact .inl (Cache.mem_get h)

end Tiers

end PgRipple.Dictionary
