import PgRipple.Dictionary.PackedCache

/-!
# Runs of the shared encode cache

A run is a sequence of calls by backends of any databases. What a lookup answers was
inserted since the cache was last emptied. An eviction, on the other hand, empties one
way, and an insertion does not ask whether its hash is there already: after two
insertions one eviction leaves an entry behind.
-/

namespace PgRipple.Dictionary

/-- A call of the cache, without the database it is made in. -/
inductive CacheOp where
  | insert (hash128 : Hash) (id : Int)
  | lookup (hash128 : Hash)
  | evict (hash128 : Hash)
  | clearAll
  deriving DecidableEq

namespace CacheOp

/-- The call with its hash replaced. -/
def mapHash (f : Hash → Hash) : CacheOp → CacheOp
  | insert hash128 id => insert (f hash128) id
  | lookup hash128 => lookup (f hash128)
  | evict hash128 => evict (f hash128)
  | clearAll => clearAll

theorem mapHash_eq_insert {f : Hash → Hash} {op : CacheOp} {hash128 : Hash} {id : Int}
    (h : op.mapHash f = insert hash128 id) : ∃ other, op = insert other id ∧ f other = hash128 := by
  cases op with
  | insert other id' =>
    cases h
    exact ⟨other, rfl, rfl⟩
  | lookup other => cases h
  | evict other => cases h
  | clearAll => cases h

end CacheOp

namespace SharedCache

def perform (c : SharedCache) : CacheOp → SharedCache
  | .insert hash128 id => c.insert hash128 id
  | .lookup hash128 => (c.lookup hash128).2
  | .evict hash128 => c.evict hash128
  | .clearAll => c.clearAll

def run (ops : List CacheOp) (c : SharedCache) : SharedCache := ops.foldl perform c

variable {c : SharedCache} {op : CacheOp} {ops : List CacheOp} {hash128 : Hash} {id : Int}

theorem run_append {ops' : List CacheOp} : run (ops ++ ops') c = run ops' (run ops c) :=
  List.foldl_append

@[simp] theorem ready_perform : (c.perform op).ready = c.ready := by
  cases op with
  | insert hash128 id => exact ready_insert
  | lookup hash128 => exact ready_lookup
  | evict hash128 => exact ready_evict
  | clearAll =>
    rw [perform, clearAll]
    split <;> rfl

theorem ready_run : (run ops c).ready = c.ready := by
  induction ops generalizing c with
  | nil => rfl
  | cons op ops ih => exact ih.trans ready_perform

/-- One call adds nothing but the entry of an insertion, and emptying leaves nothing. -/
theorem holds_perform (ready : c.ready = true) (h : (c.perform op).Holds hash128 id) :
    c.Holds hash128 id ∧ op ≠ .clearAll ∨ op = .insert hash128 id := by
  cases op with
  | insert other id' =>
    obtain old | ⟨rfl, rfl⟩ := holds_insert h
    · exact .inl ⟨old, nofun⟩
    · exact .inr rfl
  | lookup other => exact .inl ⟨holds_lookup h, nofun⟩
  | evict other => exact .inl ⟨holds_evict h, nofun⟩
  | clearAll => exact absurd h (entries_eq_zero_iff.mp (entries_clearAll ready) id)

/-- What is held after a run was held before it or inserted in it, and not cleared since. -/
theorem holds_run (ready : c.ready = true) (h : (run ops c).Holds hash128 id) :
    c.Holds hash128 id ∧ .clearAll ∉ ops ∨
      ∃ pre post, ops = pre ++ .insert hash128 id :: post ∧ .clearAll ∉ post := by
  induction ops generalizing c with
  | nil => exact .inl ⟨h, nofun⟩
  | cons op ops ih =>
    obtain ⟨early, kept⟩ | ⟨pre, post, rfl, kept⟩ := ih (ready_perform.trans ready) h
    · obtain ⟨old, other⟩ | rfl := holds_perform ready early
      · refine .inl ⟨old, ?_⟩
        rintro (_ | ⟨_, cleared⟩)
        · exact other rfl
        · exact kept cleared
      · exact .inr ⟨[], ops, rfl, kept⟩
    · exact .inr ⟨op :: pre, post, rfl, kept⟩

/-- A lookup answers what the cache holds, and answers if it holds anything. -/
theorem lookup_eq_none_iff : (c.lookup hash128).1 = none ↔
    c.ready = false ∨ c.entries hash128 = 0 := by
  rw [lookup]
  split
  · rename_i ready
    simp only [ready, Bool.true_eq_false, false_or, entries, List.countP_eq_zero]
    split
    · rename_i w found
      have hit : w.hit (c.key hash128) = true := List.find?_some found
      constructor
      · intro h
        cases h
      · intro none
        exact absurd hit (none w (List.mem_of_find?_eq_some found))
    · rename_i missed
      exact ⟨fun _ => List.find?_eq_none.mp missed, fun _ => rfl⟩
  · rename_i idle
    simp only [Bool.not_eq_true] at idle
    exact ⟨fun _ => .inl idle, fun _ => rfl⟩

/-- No set is without ways. -/
def Formed (c : SharedCache) : Prop := ∀ index, c.sets index ≠ []

theorem formed_initial {ready : Bool} {dbOid : BitVec 32} : (initial ready dbOid).Formed := nofun

theorem Formed.setWays (h : c.Formed) {ws : List Way} (some_ : ws ≠ []) :
    (c.setWays hash128 ws).Formed := by
  intro index
  simp only [SharedCache.setWays, Function.update_apply]
  split
  · exact some_
  · exact h index

theorem Formed.updateFirst (h : c.Formed) (p : Way → Bool) (f : Way → Way) :
    (c.setWays hash128 (Cache.updateFirst p f (c.ways hash128))).Formed := by
  apply h.setWays
  apply List.ne_nil_of_length_pos
  rw [Cache.length_updateFirst]
  exact List.length_pos_of_ne_nil (h _)

theorem Formed.perform (h : c.Formed) : (c.perform op).Formed := by
  cases op with
  | insert hash128 id =>
    by_cases ready : c.ready = true
    · obtain ⟨p, inserted⟩ : ∃ p : Way → Bool, c.insert hash128 id = c.setWays hash128
          (Cache.updateFirst p (fun _ => ⟨c.key hash128, 0, id⟩) (c.ways hash128)) :=
        insert_eq ready
      rw [SharedCache.perform, inserted]
      exact h.updateFirst p _
    · rw [SharedCache.perform, insert, if_neg ready]
      exact h
  | lookup hash128 =>
    rw [SharedCache.perform, lookup]
    split
    · dsimp only
      split
      · exact h.updateFirst _ _
      · apply h.setWays
        exact mt List.map_eq_nil_iff.mp (h _)
    · exact h
  | evict hash128 =>
    rw [SharedCache.perform, evict]
    split
    · exact h.updateFirst _ _
    · exact h
  | clearAll =>
    rw [SharedCache.perform, clearAll]
    split
    · intro h
      simp
    · exact h

theorem Formed.run (h : c.Formed) : (run ops c).Formed := by
  induction ops generalizing c with
  | nil => exact h
  | cons op ops ih => exact ih h.perform

/-- An id other than `0` is found right after it was inserted. -/
theorem holds_insert_self (ready : c.ready = true) (formed : c.Formed) (real : id ≠ 0) :
    (c.insert hash128 id).Holds hash128 id := by
  have hit : (⟨c.key hash128, 0, id⟩ : Way).hit (c.key hash128) = true := by
    simpa only [Way.hit, decide_true, Bool.true_and, decide_eq_true_eq] using real
  have written : ∃ p : Way → Bool, (∃ w ∈ c.ways hash128, p w = true) ∧
      c.insert hash128 id = c.setWays hash128
        (Cache.updateFirst p (fun _ => ⟨c.key hash128, 0, id⟩) (c.ways hash128)) := by
    rw [insert, if_pos ready]
    dsimp only
    split
    · rename_i vacant
      exact ⟨_, List.any_eq_true.mp vacant, rfl⟩
    · obtain ⟨w, hw, oldest⟩ := exists_maxAge (formed _)
      exact ⟨_, ⟨w, hw, decide_eq_true oldest⟩, rfl⟩
  obtain ⟨p, some_, inserted⟩ := written
  obtain ⟨-, -, new⟩ := Cache.exists_mem_updateFirst (f := fun _ => ⟨c.key hash128, 0, id⟩) some_
  rw [inserted]
  refine ⟨⟨c.key hash128, 0, id⟩, ?_, ?_, rfl⟩
  · rw [ways_setWays, if_pos rfl]
    exact new
  · rw [key_setWays]
    exact hit

end SharedCache

namespace PackedCache

def perform (c : PackedCache) (db : BitVec 32) : CacheOp → PackedCache
  | .insert hash128 id => c.encodeCacheInsert db hash128 id
  | .lookup hash128 => (c.encodeCacheLookup db hash128).2
  | .evict hash128 => c.encodeCacheEvict db hash128
  | .clearAll => c.encodeCacheClearAll

/-- The calls of backends, each with its database, one after the other. -/
def run (calls : List (BitVec 32 × CacheOp)) (c : PackedCache) : PackedCache :=
  calls.foldl (fun c call => c.perform call.1 call.2) c

section Seen

variable {c : PackedCache} {db db' : BitVec 32} {hash128 : Hash} {id : Int}
  {calls : List (BitVec 32 × CacheOp)}

/-- The call as another database would have made it. -/
def seenAs (db : BitVec 32) (call : BitVec 32 × CacheOp) : CacheOp :=
  call.2.mapHash (alias_ db call.1)

theorem alias_self : alias_ db db hash128 = hash128 :=
  dbScopedHash_inj.mp dbScopedHash_alias

theorem alias_eq_iff {other : Hash} :
    alias_ db db' other = hash128 ↔ dbScopedHash db' other = dbScopedHash db hash128 := by
  constructor
  · rintro rfl
    exact dbScopedHash_alias.symm
  · intro same
    exact dbScopedHash_inj.mp (dbScopedHash_alias.trans same)

theorem seenAs_own {op : CacheOp} : seenAs db (db, op) = op := by
  cases op <;> simp only [seenAs, CacheOp.mapHash, alias_self]

theorem perform_seenFrom {op : CacheOp} :
    (c.perform db' op).seenFrom db = (c.seenFrom db).perform (seenAs db (db', op)) := by
  cases op with
  | insert other id => exact encodeCacheInsert_seenFrom dbScopedHash_alias
  | lookup other => exact (encodeCacheLookup_seenFrom dbScopedHash_alias).2
  | evict other => exact encodeCacheEvict_seenFrom dbScopedHash_alias
  | clearAll => exact encodeCacheClearAll_seenFrom

/-- A run of all databases is, for each of them, a run of its own. -/
theorem run_seenFrom :
    (run calls c).seenFrom db = SharedCache.run (calls.map (seenAs db)) (c.seenFrom db) := by
  induction calls generalizing c with
  | nil => rfl
  | cons call calls ih =>
    rw [List.map_cons]
    refine ih.trans ?_
    rw [perform_seenFrom]
    rfl

theorem run_initial_seenFrom {ready : Bool} : (run calls (initial ready)).seenFrom db =
    SharedCache.run (calls.map (seenAs db)) (SharedCache.initial ready db) := by
  rw [run_seenFrom, seenFrom_initial]

theorem lookup_seenFrom :
    (c.encodeCacheLookup db hash128).1 = ((c.seenFrom db).lookup hash128).1 :=
  (encodeCacheLookup_seenFrom rfl).1

end Seen

/-- What a lookup answers was inserted under that hash, after the cache was last emptied. -/
theorem inserted_of_lookup {db : BitVec 32} {ready : Bool} {ops : List CacheOp} {hash128 : Hash}
    {id : Int} (found : ((run (ops.map (Prod.mk db)) (initial ready)).encodeCacheLookup
      db hash128).1 = some id) :
    ∃ pre post, ops = pre ++ .insert hash128 id :: post ∧ .clearAll ∉ post := by
  have own : (ops.map (Prod.mk db)).map (seenAs db) = ops := by
    rw [List.map_map]
    exact (List.map_congr_left fun op _ => seenAs_own).trans (List.map_id ops)
  rw [lookup_seenFrom, run_initial_seenFrom, own] at found
  have held := SharedCache.holds_of_lookup found
  cases ready with
  | true =>
    obtain ⟨early, -⟩ | inserted := SharedCache.holds_run rfl held
    · exact absurd early SharedCache.not_holds_initial
    · exact inserted
  | false =>
    have idle : (SharedCache.run ops (SharedCache.initial false db)).ready = false :=
      SharedCache.ready_run
    rw [SharedCache.lookup, idle, if_neg Bool.false_ne_true] at found
    cases found

/-- An entry is found after the cache was emptied and other hashes were looked up. -/
theorem inserted_of_lookup_example :
    ∃ pre post, [CacheOp.insert 1 5, .clearAll, .insert 1 6, .lookup 2, .insert 2 7] =
      pre ++ CacheOp.insert 1 6 :: post ∧ CacheOp.clearAll ∉ post :=
  @inserted_of_lookup 1 true _ 1 6 (by decide)

/-- After an eviction the hash is not found, until its database inserts it again. -/
def EvictionComplete (ready : Bool) (calls : List (BitVec 32 × CacheOp)) : Prop :=
  ∀ pre db hash128 mid rest, calls = pre ++ (db, .evict hash128) :: mid ++ rest →
    (∀ id, (db, .insert hash128 id) ∉ mid) →
    ((run (pre ++ (db, .evict hash128) :: mid) (initial ready)).encodeCacheLookup db
      hash128).1 = none

/-- At every eviction the hash is in at most one way. -/
def EvictsLast (calls : List (BitVec 32 × CacheOp)) : Prop :=
  ∀ pre db hash128 rest, calls = pre ++ (db, .evict hash128) :: rest →
    ((run pre (initial true)).seenFrom db).entries hash128 ≤ 1

/-- After an eviction, until the hash is inserted again, no other database inserts a
hash that is scoped to the same bits. -/
def NoAlias (calls : List (BitVec 32 × CacheOp)) : Prop :=
  ∀ pre db hash128 mid rest, calls = pre ++ (db, .evict hash128) :: mid ++ rest →
    (∀ id, (db, .insert hash128 id) ∉ mid) →
    ∀ db' other id, (db', .insert other id) ∈ mid →
      dbScopedHash db' other = dbScopedHash db hash128 → id = 0

section Evict

variable {db db' : BitVec 32} {hash128 other : Hash} {id : Int} {ready : Bool}
  {calls pre mid : List (BitVec 32 × CacheOp)}

theorem lookup_run_eq_none_iff :
    ((run calls (initial ready)).encodeCacheLookup db hash128).1 = none ↔
      ready = false ∨ ((run calls (initial ready)).seenFrom db).entries hash128 = 0 := by
  rw [lookup_seenFrom, SharedCache.lookup_eq_none_iff]
  have same : ((run calls (initial ready)).seenFrom db).ready = ready := by
    rw [run_initial_seenFrom, SharedCache.ready_run]
    rfl
  rw [same]

/-- Directly after an eviction there is one entry less. -/
theorem entries_evicted : ((run (pre ++ [(db, .evict hash128)]) (initial true)).seenFrom db).entries
      hash128 =
    ((run pre (initial true)).seenFrom db).entries hash128 - 1 := by
  have same : ((run pre (initial true)).seenFrom db).ready = true := by
    rw [run_initial_seenFrom, SharedCache.ready_run]
    rfl
  have split : run (pre ++ [(db, .evict hash128)]) (initial true) =
      (run pre (initial true)).perform db (.evict hash128) := by
    rw [run, List.foldl_append]
    rfl
  rw [split, perform_seenFrom, seenAs_own]
  exact SharedCache.entries_evict_self same

/-- The calls after an eviction bring the hash back only by inserting it. -/
theorem inserted_after (held : ((run (pre ++ mid) (initial true)).seenFrom db).Holds hash128 id)
    (gone : ((run pre (initial true)).seenFrom db).entries hash128 = 0) :
    ∃ db' other, (db', .insert other id) ∈ mid ∧
      dbScopedHash db' other = dbScopedHash db hash128 := by
  rw [run_initial_seenFrom, List.map_append, SharedCache.run_append] at held
  rw [run_initial_seenFrom] at gone
  obtain ⟨old, -⟩ | ⟨early, late, cut, -⟩ := SharedCache.holds_run SharedCache.ready_run held
  · exact absurd old (SharedCache.entries_eq_zero_iff.mp gone id)
  · have inserted : .insert hash128 id ∈ mid.map (seenAs db) := by
      rw [cut]
      exact List.mem_append_right early List.mem_cons_self
    obtain ⟨⟨db', op⟩, hop, seen⟩ := List.mem_map.mp inserted
    obtain ⟨other, rfl, same⟩ := CacheOp.mapHash_eq_insert seen
    exact ⟨db', other, hop, alias_eq_iff.mp same⟩

/-- An insertion that is scoped to the bits of the hash makes it found. -/
theorem lookup_inserted (same : dbScopedHash db' other = dbScopedHash db hash128)
    (real : id ≠ 0) : ((run (pre ++ [(db', .insert other id)]) (initial true)).encodeCacheLookup
      db hash128).1 ≠ none := by
  rw [Ne, lookup_run_eq_none_iff, SharedCache.entries_eq_zero_iff]
  rintro (ready | none)
  · cases ready
  · apply none id
    have seen : seenAs db (db', .insert other id) = .insert hash128 id := by
      rw [seenAs, CacheOp.mapHash, alias_eq_iff.mpr same]
    rw [run_initial_seenFrom, List.map_append, SharedCache.run_append, List.map_singleton, seen]
    apply SharedCache.holds_insert_self
    · exact SharedCache.ready_run
    · exact SharedCache.formed_initial.run
    · exact real

end Evict

/-- An eviction is complete just if it meets at most one way and no other database
writes the same bits afterwards. -/
theorem evictionComplete_iff (ready : Bool) (calls : List (BitVec 32 × CacheOp)) :
    EvictionComplete ready calls ↔ (ready = true → EvictsLast calls ∧ NoAlias calls) := by
  constructor
  · rintro complete rfl
    refine ⟨?_, ?_⟩
    · intro pre db hash128 rest cut
      have missed := complete pre db hash128 [] rest (by rw [cut, List.append_assoc]; rfl)
        fun id => List.not_mem_nil
      obtain ready | gone := lookup_run_eq_none_iff.mp missed
      · cases ready
      · rw [entries_evicted] at gone
        omega
    · intro pre db hash128 mid rest cut fresh db' other id hmem same
      obtain ⟨early, late, rfl⟩ := List.append_of_mem hmem
      by_contra real
      have found := @lookup_inserted db db' hash128 other id
        (pre ++ (db, .evict hash128) :: early) same real
      apply found
      have missed := complete pre db hash128 (early ++ [(db', .insert other id)]) (late ++ rest)
      rw [List.append_assoc, List.cons_append]
      apply missed
      · rw [cut]
        simp only [List.append_assoc, List.cons_append, List.nil_append]
      · intro id' again
        apply fresh id'
        have sub : early ++ [(db', .insert other id)] ⊆ early ++ (db', .insert other id)
            :: late := by
          apply List.append_subset.mpr
          exact ⟨List.subset_append_left _ _,
            List.cons_subset.mpr ⟨hmem, List.nil_subset _⟩⟩
        exact sub again
  · intro good pre db hash128 mid rest cut fresh
    rw [lookup_run_eq_none_iff]
    cases ready with
    | false => exact .inl rfl
    | true =>
      obtain ⟨last, noAlias⟩ := good rfl
      refine .inr ?_
      rw [SharedCache.entries_eq_zero_iff]
      intro id held
      have once := last pre db hash128 (mid ++ rest) (by rw [cut, List.append_assoc]; rfl)
      have gone : ((run (pre ++ [(db, .evict hash128)]) (initial true)).seenFrom db).entries
          hash128 = 0 := by
        rw [entries_evicted]
        omega
      have whole : pre ++ (db, .evict hash128) :: mid = pre ++ [(db, .evict hash128)] ++ mid := by
        rw [List.append_assoc]
        rfl
      rw [whole] at held
      obtain ⟨db', other, hmem, same⟩ := inserted_after held gone
      exact held.id_ne_zero (noAlias pre db hash128 mid rest cut fresh db' other id hmem same)

/-- Two backends insert the same hash, and one eviction leaves it in the cache. -/
theorem not_evictionComplete :
    ¬ ∀ ready calls, EvictionComplete ready calls := by
  intro complete
  have missed := complete true [(1, .insert 1 5), (1, .insert 1 5), (1, .evict 1)]
    [(1, .insert 1 5), (1, .insert 1 5)] 1 1 [] [] rfl (fun id => List.not_mem_nil)
  revert missed
  decide

end PackedCache

end PgRipple.Dictionary
