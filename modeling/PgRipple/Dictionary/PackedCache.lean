import PgRipple.Dictionary.SharedCache
import Mathlib.Algebra.Group.Nat.Defs

/-!
# The words of the shared encode cache

In shared memory a way is a 128-bit word and an id. The top two bits of the word hold
the age of the way, and only the low 126 bits are compared with those of a hash. Every
lookup and every insertion rewrites ages, in the ways of all databases alike.

The operations are given here on these words, for a call of any database.
`PackedCache.seenFrom` unpacks the words into the fields of `SharedCache`, as one
database sees them, and each operation on words is the one on fields.
-/

namespace PgRipple.Dictionary

/-- The bits of a word that belong to the hash. -/
def hashMask : BitVec 128 := 0x3FFFFFFFFFFFFFFFFFFFFFFFFFFFFFFF#128

/-- `extract_age`. -/
def extractAge (wayHash : BitVec 128) : BitVec 8 := (wayHash >>> 126).setWidth 8 &&& 3#8

/-- `pack_age`. -/
def packAge (hash : BitVec 128) (age : BitVec 8) : BitVec 128 :=
  (hash &&& hashMask) ||| (age.setWidth 128 <<< 126)

section Words

variable (word : BitVec 128)

theorem toNat_and_hashMask : (word &&& hashMask).toNat = word.toNat % 2 ^ 126 := by
  rw [BitVec.toNat_and]
  exact Nat.and_two_pow_sub_one_eq_mod word.toNat 126

theorem setWidth_and_hashMask : (word &&& hashMask).setWidth 126 = word.setWidth 126 := by
  apply BitVec.eq_of_toNat_eq
  rw [BitVec.toNat_setWidth, toNat_and_hashMask, BitVec.toNat_setWidth]
  omega

/-- Masked words are compared by their low bits. -/
theorem and_hashMask_inj {a b : BitVec 128} :
    a &&& hashMask = b &&& hashMask ↔ a.setWidth 126 = b.setWidth 126 := by
  constructor
  · intro h
    have low := congrArg (BitVec.setWidth 126) h
    rwa [setWidth_and_hashMask, setWidth_and_hashMask] at low
  · intro h
    have low := congrArg BitVec.toNat h
    rw [BitVec.toNat_setWidth, BitVec.toNat_setWidth] at low
    apply BitVec.eq_of_toNat_eq
    rw [toNat_and_hashMask, toNat_and_hashMask, low]

theorem toNat_extractAge : (extractAge word).toNat = word.toNat / 2 ^ 126 := by
  have bound := word.isLt
  have three : (3#8).toNat = 2 ^ 2 - 1 := rfl
  rw [extractAge, BitVec.toNat_and, BitVec.toNat_setWidth, BitVec.toNat_ushiftRight,
    Nat.shiftRight_eq_div_pow, three, Nat.and_two_pow_sub_one_eq_mod]
  omega

theorem extractAge_and_hashMask : (extractAge (word &&& hashMask)).toNat = 0 := by
  rw [toNat_extractAge, toNat_and_hashMask]
  omega

variable {age : BitVec 8}

theorem toNat_packAge (small : age.toNat < 4) :
    (packAge word age).toNat = age.toNat * 2 ^ 126 + word.toNat % 2 ^ 126 := by
  have shifted : age.toNat % 2 ^ 128 * 2 ^ 126 % 2 ^ 128 = age.toNat * 2 ^ 126 := by omega
  have low : word.toNat % 2 ^ 126 < 2 ^ 126 := Nat.mod_lt _ (by decide)
  rw [packAge, BitVec.toNat_or, toNat_and_hashMask, BitVec.toNat_shiftLeft,
    BitVec.toNat_setWidth, Nat.shiftLeft_eq, shifted, Nat.or_comm, Nat.mul_comm,
    Nat.two_pow_add_eq_or_of_lt low]

theorem setWidth_packAge (small : age.toNat < 4) :
    (packAge word age).setWidth 126 = word.setWidth 126 := by
  apply BitVec.eq_of_toNat_eq
  rw [BitVec.toNat_setWidth, toNat_packAge word small, BitVec.toNat_setWidth]
  omega

theorem extractAge_packAge (small : age.toNat < 4) :
    (extractAge (packAge word age)).toNat = age.toNat := by
  rw [toNat_extractAge, toNat_packAge word small]
  omega

end Words

/-- A way: its word in `ENCODE_CACHE_S0` and its id in `ENCODE_CACHE_IDS`. -/
structure Slot where
  wayHash : BitVec 128
  id : Int
  deriving DecidableEq, Repr

namespace Slot

def empty : Slot := ⟨0, 0⟩

/-- The way answers for a search hash, which has its top bits cleared. -/
def hit (searchHash : BitVec 128) (slot : Slot) : Bool :=
  slot.wayHash &&& hashMask = searchHash && slot.id ≠ 0

/-- A miss makes an occupied way one older. -/
def grow (slot : Slot) : Slot :=
  let age := extractAge slot.wayHash
  if slot.id ≠ 0 ∧ age < 3 then
    { slot with wayHash := packAge (slot.wayHash &&& hashMask) (age + 1) }
  else slot

/-- The fields that the word packs. -/
def unpack (slot : Slot) : Way :=
  ⟨slot.wayHash.setWidth 126, (extractAge slot.wayHash).toNat, slot.id⟩

theorem hit_unpack {scopedHash : Hash} {slot : Slot} :
    slot.unpack.hit (SharedCache.cleanHash scopedHash) = slot.hit (scopedHash &&& hashMask) := by
  have bits : slot.wayHash &&& hashMask = scopedHash &&& hashMask ↔
      slot.unpack.hash = SharedCache.cleanHash scopedHash := and_hashMask_inj
  have same : slot.unpack.id = slot.id := rfl
  simp only [hit, Way.hit, bits, same]

theorem unpack_grow {slot : Slot} : slot.grow.unpack = slot.unpack.grow := by
  by_cases older : slot.id ≠ 0 ∧ extractAge slot.wayHash < 3
  · have fields : slot.unpack.id ≠ 0 ∧ slot.unpack.age < 3 := older
    have young : (extractAge slot.wayHash).toNat < 3 := older.2
    have sum : (extractAge slot.wayHash + 1).toNat = (extractAge slot.wayHash).toNat + 1 := by
      have one : (1 : BitVec 8).toNat = 1 := rfl
      rw [BitVec.toNat_add]
      omega
    have small : (extractAge slot.wayHash + 1).toNat < 4 := by omega
    have hash : (packAge (slot.wayHash &&& hashMask) (extractAge slot.wayHash + 1)).setWidth 126 =
        slot.wayHash.setWidth 126 := by
      rw [setWidth_packAge _ small, setWidth_and_hashMask]
    have age : (extractAge (packAge (slot.wayHash &&& hashMask)
        (extractAge slot.wayHash + 1))).toNat = (extractAge slot.wayHash).toNat + 1 := by
      rw [extractAge_packAge _ small, sum]
    rw [grow, if_pos older, Way.grow, if_pos fields]
    simp only [unpack, hash, age]
  · have fields : ¬ (slot.unpack.id ≠ 0 ∧ slot.unpack.age < 3) := older
    rw [grow, if_neg older, Way.grow, if_neg fields]

end Slot

/-- The two arrays in shared memory, which all databases use. -/
structure PackedCache where
  /-- `SHMEM_READY`. -/
  shmemReady : Bool
  sets : BitVec 10 → List Slot

/-- `db_scoped_hash`, for the value of `MyDatabaseId` in the calling backend. -/
def dbScopedHash (db : BitVec 32) (hash128 : Hash) : Hash :=
  hash128 ^^^ (db.setWidth 128 * 0x9E3779B97F4A7C15#128)

/-- `set_index`; `ENCODE_CACHE_SETS` is 1024. -/
def setIndex (hash128 : Hash) : BitVec 10 :=
  ((hash128 >>> 118).setWidth 64 &&& 1023#64).setWidth 10

namespace PackedCache

/-- The arrays after start-up. -/
def initial (shmemReady : Bool) : PackedCache := ⟨shmemReady, fun _ => List.replicate 4 Slot.empty⟩

def setSlots (c : PackedCache) (index : BitVec 10) (slots : List Slot) : PackedCache :=
  { c with sets := Function.update c.sets index slots }

/-- `encode_cache_lookup`. -/
def encodeCacheLookup (db : BitVec 32) (hash128 : Hash) (c : PackedCache) :
    Option Int × PackedCache :=
  if c.shmemReady then
    let scopedHash := dbScopedHash db hash128
    let searchHash := scopedHash &&& hashMask
    let slots := c.sets (setIndex scopedHash)
    match slots.find? (Slot.hit searchHash) with
    | some slot =>
      (some slot.id, c.setSlots (setIndex scopedHash)
        (Cache.updateFirst (Slot.hit searchHash)
          (fun slot => { slot with wayHash := packAge searchHash 0 }) slots))
    | none => (none, c.setSlots (setIndex scopedHash) (slots.map Slot.grow))
  else (none, c)

/-- `encode_cache_insert`: into the first empty way, or over the first of the oldest. -/
def encodeCacheInsert (db : BitVec 32) (hash128 : Hash) (id : Int) (c : PackedCache) :
    PackedCache :=
  if c.shmemReady then
    let scopedHash := dbScopedHash db hash128
    let cleanHash := scopedHash &&& hashMask
    let slots := c.sets (setIndex scopedHash)
    if slots.any fun slot => slot.id = 0 then
      c.setSlots (setIndex scopedHash)
        (Cache.updateFirst (fun slot => slot.id = 0) (fun _ => ⟨cleanHash, id⟩) slots)
    else
      let victimIdx := Cache.firstMax (fun slot => (extractAge slot.wayHash).toNat) slots
      c.setSlots (setIndex scopedHash) (slots.set victimIdx ⟨cleanHash, id⟩)
  else c

/-- `encode_cache_evict`: it returns after the first way that answers. -/
def encodeCacheEvict (db : BitVec 32) (hash128 : Hash) (c : PackedCache) : PackedCache :=
  if c.shmemReady then
    let scopedHash := dbScopedHash db hash128
    let searchHash := scopedHash &&& hashMask
    c.setSlots (setIndex scopedHash)
      (Cache.updateFirst (Slot.hit searchHash) (fun _ => Slot.empty) (c.sets (setIndex scopedHash)))
  else c

/-- `encode_cache_clear_all`. -/
def encodeCacheClearAll (c : PackedCache) : PackedCache :=
  if c.shmemReady then { c with sets := fun _ => List.replicate 4 Slot.empty } else c

/-- The cache as one database sees it. -/
def seenFrom (db : BitVec 32) (c : PackedCache) : SharedCache :=
  ⟨c.shmemReady, db, fun index => (c.sets index).map Slot.unpack⟩

section Refinement

variable {c : PackedCache} {db db' : BitVec 32} {hash128 other : Hash} {id : Int}

theorem setIndex_eq : setIndex hash128 = SharedCache.setIndex hash128 := by
  have bound := hash128.isLt
  have mask : (1023#64).toNat = 2 ^ 10 - 1 := rfl
  apply BitVec.eq_of_toNat_eq
  rw [setIndex, SharedCache.setIndex, BitVec.toNat_setWidth, BitVec.toNat_and,
    BitVec.toNat_setWidth, BitVec.toNat_ushiftRight, mask, Nat.and_two_pow_sub_one_eq_mod,
    BitVec.extractLsb'_toNat, Nat.shiftRight_eq_div_pow]
  omega

theorem seenFrom_initial {ready : Bool} :
    (initial ready).seenFrom db = SharedCache.initial ready db := by
  simp only [seenFrom, initial, SharedCache.initial, List.map_replicate]
  rfl

theorem seenFrom_setSlots {slots : List Slot} {scopedHash : Hash}
    (same : dbScopedHash db hash128 = scopedHash) :
    (c.setSlots (setIndex scopedHash) slots).seenFrom db =
      (c.seenFrom db).setWays hash128 (slots.map Slot.unpack) := by
  subst same
  simp only [seenFrom, setSlots, SharedCache.setWays, setIndex_eq]
  congr 1
  funext index
  simp only [Function.update_apply]
  split <;> rename_i here
  · exact (if_pos here).symm
  · exact (if_neg here).symm

section Step

variable (same : dbScopedHash db hash128 = dbScopedHash db' other)

include same

/-- The ways of a hash are the slots of its set. -/
theorem ways_seenFrom : (c.seenFrom db).ways hash128 =
    (c.sets (setIndex (dbScopedHash db' other))).map Slot.unpack := by
  rw [← same, setIndex_eq]
  rfl

theorem hit_seenFrom (slot : Slot) : slot.unpack.hit ((c.seenFrom db).key hash128) =
    slot.hit (dbScopedHash db' other &&& hashMask) := by
  rw [← same]
  exact Slot.hit_unpack

/-- A call of any database is, for this one, the call on the hash with the same scoped bits. -/
theorem encodeCacheLookup_seenFrom :
    (c.encodeCacheLookup db' other).1 = ((c.seenFrom db).lookup hash128).1 ∧
      (c.encodeCacheLookup db' other).2.seenFrom db = ((c.seenFrom db).lookup hash128).2 := by
  have hits := hit_seenFrom (c := c) same
  have found : ((c.sets (setIndex (dbScopedHash db' other))).map Slot.unpack).find?
        (Way.hit ((c.seenFrom db).key hash128)) =
      ((c.sets (setIndex (dbScopedHash db' other))).find?
        (Slot.hit (dbScopedHash db' other &&& hashMask))).map Slot.unpack := by
    rw [List.find?_map]
    congr 2
    exact funext hits
  unfold encodeCacheLookup SharedCache.lookup
  by_cases ready : c.shmemReady = true
  · rw [if_pos ready, if_pos (show (c.seenFrom db).ready = true from ready)]
    simp only [ways_seenFrom same, found]
    cases (c.sets (setIndex (dbScopedHash db' other))).find?
      (Slot.hit (dbScopedHash db' other &&& hashMask)) with
    | none =>
      refine ⟨rfl, ?_⟩
      simp only [Option.map_none, seenFrom_setSlots same, List.map_map]
      congr 2
      exact funext fun slot => Slot.unpack_grow
    | some slot =>
      refine ⟨rfl, ?_⟩
      simp only [Option.map_some, seenFrom_setSlots same]
      congr 1
      apply Cache.map_updateFirst hits
      intro slot hit
      -- a hit writes back the searched bits, which are those of the way
      have small : (0 : BitVec 8).toNat < 4 := by decide
      have bits : slot.wayHash &&& hashMask = dbScopedHash db' other &&& hashMask := by
        rw [Slot.hit, Bool.and_eq_true, decide_eq_true_eq] at hit
        exact hit.1
      simp only [Slot.unpack, extractAge_packAge _ small, setWidth_packAge _ small,
        setWidth_and_hashMask, and_hashMask_inj.mp bits]
      rfl
  · rw [if_neg ready, if_neg (show ¬ (c.seenFrom db).ready = true from ready)]
    exact ⟨rfl, rfl⟩

theorem unpack_cleanHash : (⟨dbScopedHash db' other &&& hashMask, id⟩ : Slot).unpack =
    ⟨(c.seenFrom db).key hash128, 0, id⟩ := by
  have key : (c.seenFrom db).key hash128 = (dbScopedHash db' other).setWidth 126 := by
    rw [← same]
    rfl
  simp only [Slot.unpack, setWidth_and_hashMask, extractAge_and_hashMask, key]

theorem encodeCacheInsert_seenFrom :
    (c.encodeCacheInsert db' other id).seenFrom db = (c.seenFrom db).insert hash128 id := by
  have written (p : Slot → Bool) (q : Way → Bool) (agree : ∀ slot, q (Slot.unpack slot) = p slot)
      (slots : List Slot) :
      (Cache.updateFirst p (fun _ => ⟨dbScopedHash db' other &&& hashMask, id⟩) slots).map
          Slot.unpack =
        Cache.updateFirst q (fun _ => ⟨(c.seenFrom db).key hash128, 0, id⟩)
          (slots.map Slot.unpack) :=
    Cache.map_updateFirst agree (fun _ _ => (unpack_cleanHash same).symm) slots
  unfold encodeCacheInsert SharedCache.insert
  by_cases ready : c.shmemReady = true
  · rw [if_pos ready, if_pos (show (c.seenFrom db).ready = true from ready)]
    simp only [ways_seenFrom same]
    have vacant : ((c.sets (setIndex (dbScopedHash db' other))).map Slot.unpack).any
        (fun w => decide (w.id = 0)) =
        (c.sets (setIndex (dbScopedHash db' other))).any fun slot => decide (slot.id = 0) := by
      rw [List.any_map]
      rfl
    rw [vacant]
    split
    · rw [seenFrom_setSlots same]
      congr 1
      apply written
      exact fun _ => rfl
    · rw [seenFrom_setSlots same]
      congr 1
      generalize c.sets (setIndex (dbScopedHash db' other)) = slots
      have oldest : slots.set (Cache.firstMax (fun slot => (extractAge slot.wayHash).toNat) slots)
            ⟨dbScopedHash db' other &&& hashMask, id⟩ =
          Cache.updateFirst
            (fun slot => (extractAge slot.wayHash).toNat =
              SharedCache.maxAge (slots.map Slot.unpack))
            (fun _ => ⟨dbScopedHash db' other &&& hashMask, id⟩) slots := by
        apply Cache.set_firstMax
        · intro slot hslot
          have member : slot.unpack ∈ slots.map Slot.unpack := List.mem_map_of_mem hslot
          exact SharedCache.age_le_maxAge member
        · intro some_
          have mapped : slots.map Slot.unpack ≠ [] := mt List.map_eq_nil_iff.mp some_
          obtain ⟨w, hw, top⟩ := SharedCache.exists_maxAge mapped
          obtain ⟨slot, hslot, rfl⟩ := List.mem_map.mp hw
          exact ⟨slot, hslot, top⟩
      rw [oldest]
      apply written
      exact fun _ => rfl
  · rw [if_neg ready, if_neg (show ¬ (c.seenFrom db).ready = true from ready)]

theorem encodeCacheEvict_seenFrom :
    (c.encodeCacheEvict db' other).seenFrom db = (c.seenFrom db).evict hash128 := by
  unfold encodeCacheEvict SharedCache.evict
  by_cases ready : c.shmemReady = true
  · rw [if_pos ready, if_pos (show (c.seenFrom db).ready = true from ready),
      seenFrom_setSlots same, ways_seenFrom same]
    congr 1
    exact Cache.map_updateFirst (hit_seenFrom same) (fun _ _ => rfl) _
  · rw [if_neg ready, if_neg (show ¬ (c.seenFrom db).ready = true from ready)]

end Step

theorem encodeCacheClearAll_seenFrom :
    c.encodeCacheClearAll.seenFrom db = (c.seenFrom db).clearAll := by
  unfold encodeCacheClearAll SharedCache.clearAll
  by_cases ready : c.shmemReady = true
  · rw [if_pos ready, if_pos (show (c.seenFrom db).ready = true from ready)]
    simp only [seenFrom, List.map_replicate]
    rfl
  · rw [if_neg ready, if_neg (show ¬ (c.seenFrom db).ready = true from ready)]

/-- The hash by which one database reaches the ways that another one's hash is scoped to. -/
def alias_ (db db' : BitVec 32) (other : Hash) : Hash :=
  other ^^^ (db'.setWidth 128 * 0x9E3779B97F4A7C15#128) ^^^
    (db.setWidth 128 * 0x9E3779B97F4A7C15#128)

theorem dbScopedHash_alias : dbScopedHash db (alias_ db db' other) = dbScopedHash db' other := by
  rw [dbScopedHash, alias_, BitVec.xor_assoc, BitVec.xor_self, BitVec.xor_zero]
  rfl

theorem dbScopedHash_inj : dbScopedHash db hash128 = dbScopedHash db other ↔ hash128 = other := by
  rw [dbScopedHash, dbScopedHash, BitVec.xor_left_inj]

end Refinement

end PackedCache

end PgRipple.Dictionary
