import Mathlib.Algebra.Order.BigOperators.Group.Finset
import Mathlib.Algebra.Order.Group.Nat

/-!
# Counting filters with small counters

A set is kept as one bit and one counter for each of some positions. A key weighs on the
positions it hashes to; to set it adds its weight to the counters there, to clear it takes
the weight away and clears the bits whose counter is gone. Counters stop at `cap` and at `0`,
so that a full counter forgets how much it holds.

A key may be set several times, and is cleared only while it is set. `noMisses_iff` says for
which sets of keys the filter then never misses a key that is set: each must hash to some
position on which the others together weigh less than `cap`.
-/

namespace CountingFilter

variable {κ π : Type*} [DecidableEq κ]

/-- The bits and the counters. -/
@[ext]
structure Filter (π : Type*) where
  bit : π → Bool
  counter : π → Nat

/-- Nothing is set. -/
def empty : Filter π := ⟨fun _ => false, fun _ => 0⟩

/-- Two operations on a key. -/
inductive Call (κ : Type*) where
  | set (k : κ)
  | clear (k : κ)

/-- The keys that are set and not cleared since. -/
def active (now : Finset κ) : List (Call κ) → Finset κ
  | [] => now
  | .set k :: calls => active (insert k now) calls
  | .clear k :: calls => active (now.erase k) calls

/-- A key is cleared only if it was set since it was last cleared. -/
def Disciplined (now : Finset κ) : List (Call κ) → Prop
  | [] => True
  | .set k :: calls => Disciplined (insert k now) calls
  | .clear k :: calls => k ∈ now ∧ Disciplined (now.erase k) calls

/-- All calls are about these keys. -/
def Call.About (keys : Finset κ) : Call κ → Prop
  | .set k => k ∈ keys
  | .clear k => k ∈ keys

section Operations

variable (weight : κ → π → Nat) (cap : Nat)

def set (k : κ) (f : Filter π) : Filter π where
  bit x := f.bit x || decide (0 < weight k x)
  counter x := min cap (f.counter x + weight k x)

def clear (k : κ) (f : Filter π) : Filter π where
  bit x := f.bit x && !decide (0 < weight k x ∧ f.counter x - weight k x = 0)
  counter x := f.counter x - weight k x

def Call.apply : Call κ → Filter π → Filter π
  | .set k, f => CountingFilter.set weight cap k f
  | .clear k, f => CountingFilter.clear weight k f

def run (calls : List (Call κ)) (f : Filter π) : Filter π :=
  calls.foldl (fun f call => call.apply weight cap f) f

/-- Some bit of the key is set. -/
def MayHave (f : Filter π) (k : κ) : Prop := ∃ x, 0 < weight k x ∧ f.bit x = true

/-- What some keys weigh together on a position. -/
def load (keys : Finset κ) (x : π) : Nat := ∑ k ∈ keys, weight k x

/-- However the keys are set and cleared, none that is set is missed. -/
def NoMisses (keys : Finset κ) : Prop :=
  ∀ calls : List (Call κ), (∀ call ∈ calls, call.About keys) → Disciplined ∅ calls →
    ∀ k ∈ active ∅ calls, MayHave weight (run weight cap calls empty) k

end Operations

variable {weight : κ → π → Nat} {cap : Nat} {keys now : Finset κ} {f : Filter π} {x : π} {k : κ}

theorem load_insert (weight : κ → π → Nat) (x : π) (new : k ∉ now) :
    load weight (insert k now) x = load weight now x + weight k x := by
  rw [load, Finset.sum_insert new, load, Nat.add_comm]

theorem load_erase (weight : κ → π → Nat) (x : π) (old : k ∈ now) :
    load weight (now.erase k) x + weight k x = load weight now x :=
  Finset.sum_erase_add now (fun k => weight k x) old

omit [DecidableEq κ] in
theorem weight_le_load (weight : κ → π → Nat) (x : π) (member : k ∈ now) :
    weight k x ≤ load weight now x :=
  Finset.single_le_sum_of_canonicallyOrdered (f := fun k => weight k x) member

omit [DecidableEq κ] in
theorem load_mono {some all : Finset κ} (sub : some ⊆ all) :
    load weight some x ≤ load weight all x :=
  Finset.sum_le_sum_of_subset sub

theorem active_subset {calls : List (Call κ)} (among : now ⊆ keys)
    (about : ∀ call ∈ calls, call.About keys) : active now calls ⊆ keys := by
  induction calls generalizing now with
  | nil => exact among
  | cons call calls ih =>
    have later : ∀ call ∈ calls, call.About keys :=
      fun call member => about call (List.mem_cons_of_mem _ member)
    have here := about call List.mem_cons_self
    cases call with
    | set k => exact ih (Finset.insert_subset here among) later
    | clear k => exact ih ((Finset.erase_subset k now).trans among) later

/-- A counter holds what the active keys weigh, except for what it can have lost while the
other keys were active; and its bit goes with it. -/
structure Holds (weight : κ → π → Nat) (cap : Nat) (keys now : Finset κ) (f : Filter π)
    (x : π) : Prop where
  among : now ⊆ keys
  counter : min (load weight now x) (cap - load weight (keys \ now) x) ≤ f.counter x
  bit : 0 < f.counter x → f.bit x = true

theorem holds_empty (weight : κ → π → Nat) (cap : Nat) (keys : Finset κ) (x : π) :
    Holds weight cap keys ∅ empty x where
  among := Finset.empty_subset keys
  counter := by simp [load]
  bit counted := absurd counted (Nat.lt_irrefl 0)

theorem Holds.set (holds : Holds weight cap keys now f x) (member : k ∈ keys) :
    Holds weight cap keys (insert k now) (set weight cap k f) x where
  among := Finset.insert_subset member holds.among
  counter := by
    have before := holds.counter
    show _ ≤ min cap (f.counter x + weight k x)
    by_cases old : k ∈ now
    · rw [Finset.insert_eq_of_mem old]
      omega
    · have others : k ∈ keys \ now := Finset.mem_sdiff.mpr ⟨member, old⟩
      have fewer := load_erase weight x others
      rw [load_insert weight x old, Finset.sdiff_insert]
      omega
  bit counted := by
    show (f.bit x || decide (0 < weight k x)) = true
    by_cases touched : 0 < weight k x
    · simp [touched]
    · have same : f.counter x ≠ 0 := by
        intro zero
        have counted : 0 < min cap (f.counter x + weight k x) := counted
        omega
      simp [holds.bit (Nat.pos_of_ne_zero same)]

theorem Holds.clear (holds : Holds weight cap keys now f x) (member : k ∈ now) :
    Holds weight cap keys (now.erase k) (clear weight k f) x where
  among := (Finset.erase_subset k now).trans holds.among
  counter := by
    have before := holds.counter
    have fewer := load_erase weight x member
    have absent : k ∉ keys \ now := fun h => (Finset.mem_sdiff.mp h).2 member
    have more := load_insert weight x absent
    have split : keys \ now.erase k = insert k (keys \ now) :=
      Finset.sdiff_erase (holds.among member)
    rw [split]
    show _ ≤ f.counter x - weight k x
    omega
  bit counted := by
    have counted : 0 < f.counter x - weight k x := counted
    show (f.bit x && !decide (0 < weight k x ∧ f.counter x - weight k x = 0)) = true
    have stays : ¬ (0 < weight k x ∧ f.counter x - weight k x = 0) := by omega
    simp [holds.bit (by omega), stays]

theorem Holds.run {calls : List (Call κ)} (holds : Holds weight cap keys now f x)
    (about : ∀ call ∈ calls, call.About keys) (disciplined : Disciplined now calls) :
    Holds weight cap keys (active now calls) (run weight cap calls f) x := by
  induction calls generalizing now f with
  | nil => exact holds
  | cons call calls ih =>
    have later : ∀ call ∈ calls, call.About keys :=
      fun call member => about call (List.mem_cons_of_mem _ member)
    have here := about call List.mem_cons_self
    cases call with
    | set k => exact ih (holds.set here) later disciplined
    | clear k => exact ih (holds.clear disciplined.1) later disciplined.2

/-- A position on which the other keys leave room never loses the bit of a key that is set. -/
theorem Holds.mayHave (holds : Holds weight cap keys now f x) (member : k ∈ now)
    (weighs : 0 < weight k x) (room : load weight (keys.erase k) x < cap) :
    MayHave weight f k := by
  have others : load weight (keys \ now) x ≤ load weight (keys.erase k) x := by
    apply load_mono
    intro k' outside
    have parts := Finset.mem_sdiff.mp outside
    apply Finset.mem_erase.mpr
    refine ⟨?_, parts.1⟩
    rintro rfl
    exact parts.2 member
  have own := weight_le_load weight x member
  have counter := holds.counter
  exact ⟨x, weighs, holds.bit (by omega)⟩

/-- Set some keys, one after the other. -/
def sets (ks : List κ) : List (Call κ) := ks.map .set

/-- Clear some keys, one after the other. -/
def clears (ks : List κ) : List (Call κ) := ks.map .clear

theorem active_append {calls calls' : List (Call κ)} :
    active now (calls ++ calls') = active (active now calls) calls' := by
  induction calls generalizing now with
  | nil => rfl
  | cons call calls ih => cases call with
    | set k => exact ih
    | clear k => exact ih

theorem disciplined_append {calls calls' : List (Call κ)} :
    Disciplined now (calls ++ calls') ↔
      Disciplined now calls ∧ Disciplined (active now calls) calls' := by
  induction calls generalizing now with
  | nil => simp [Disciplined, active]
  | cons call calls ih => cases call with
    | set k => exact ih
    | clear k =>
      rw [List.cons_append, Disciplined, Disciplined, ih, and_assoc]
      exact Iff.rfl

theorem mem_active_sets (ks : List κ) : k ∈ active now (sets ks) ↔ k ∈ now ∨ k ∈ ks := by
  induction ks generalizing now with
  | nil => simp [sets, active]
  | cons k' ks ih =>
    show k ∈ active (insert k' now) (sets ks) ↔ _
    rw [ih, Finset.mem_insert, List.mem_cons, or_assoc]
    exact or_left_comm

theorem disciplined_sets (ks : List κ) : Disciplined now (sets ks) := by
  induction ks generalizing now with
  | nil => trivial
  | cons k ks ih => exact ih

theorem mem_active_clears {ks : List κ} (member : k ∈ now) (kept : k ∉ ks) :
    k ∈ active now (clears ks) := by
  induction ks generalizing now with
  | nil => exact member
  | cons k' ks ih =>
    obtain ⟨other, kept⟩ := not_or.mp (mt List.mem_cons.mpr kept)
    exact ih (Finset.mem_erase.mpr ⟨other, member⟩) kept

theorem disciplined_clears {ks : List κ} (unique : ks.Nodup) (among : ∀ k ∈ ks, k ∈ now) :
    Disciplined now (clears ks) := by
  induction ks generalizing now with
  | nil => trivial
  | cons k ks ih =>
    obtain ⟨absent, unique⟩ := List.nodup_cons.mp unique
    refine ⟨among k List.mem_cons_self, ih unique ?_⟩
    intro k' member
    apply Finset.mem_erase.mpr
    refine ⟨?_, among k' (List.mem_cons_of_mem k member)⟩
    rintro rfl
    exact absent member

/-- Setting keys fills the counters up to the cap. -/
theorem counter_sets (weight : κ → π → Nat) (cap : Nat) (f : Filter π) (x : π) {ks : List κ}
    (unique : ks.Nodup) :
    min cap (f.counter x + load weight ks.toFinset x) ≤
      (run weight cap (sets ks) f).counter x := by
  induction ks generalizing f with
  | nil => simp [sets, run, load]
  | cons k ks ih =>
    obtain ⟨absent, unique⟩ := List.nodup_cons.mp unique
    have rest := ih (CountingFilter.set weight cap k f) unique
    have whole : load weight (k :: ks).toFinset x =
        load weight ks.toFinset x + weight k x := by
      rw [List.toFinset_cons]
      exact load_insert weight x (by simpa using absent)
    have step : (CountingFilter.set weight cap k f).counter x =
        min cap (f.counter x + weight k x) := rfl
    show _ ≤ (run weight cap (sets ks) (CountingFilter.set weight cap k f)).counter x
    omega

/-- Clearing keys takes their weight away. Once a counter is gone, so is its bit. -/
theorem counter_clears (weight : κ → π → Nat) (cap : Nat) (f : Filter π) (x : π) {ks : List κ}
    (unique : ks.Nodup)
    (bit : f.counter x = 0 → f.bit x = false) :
    (run weight cap (clears ks) f).counter x = f.counter x - load weight ks.toFinset x ∧
      ((run weight cap (clears ks) f).counter x = 0 →
        (run weight cap (clears ks) f).bit x = false) := by
  induction ks generalizing f with
  | nil => exact ⟨by simp [clears, run, load], bit⟩
  | cons k ks ih =>
    obtain ⟨absent, unique⟩ := List.nodup_cons.mp unique
    have whole : load weight (k :: ks).toFinset x =
        load weight ks.toFinset x + weight k x := by
      rw [List.toFinset_cons]
      exact load_insert weight x (by simpa using absent)
    have step : (CountingFilter.clear weight k f).counter x = f.counter x - weight k x := rfl
    have cleared : (CountingFilter.clear weight k f).counter x = 0 →
        (CountingFilter.clear weight k f).bit x = false := by
      intro gone
      show (f.bit x && !decide (0 < weight k x ∧ f.counter x - weight k x = 0)) = false
      by_cases touched : 0 < weight k x
      · simp [touched, ← step, gone]
      · have untouched : f.counter x = 0 := by omega
        simp [bit untouched]
    obtain ⟨counter, last⟩ := ih (CountingFilter.clear weight k f) unique cleared
    refine ⟨?_, last⟩
    show (run weight cap (clears ks) (CountingFilter.clear weight k f)).counter x = _
    omega

omit [DecidableEq κ] in
theorem counter_le {calls : List (Call κ)} (bounded : f.counter x ≤ cap) :
    (run weight cap calls f).counter x ≤ cap := by
  induction calls generalizing f with
  | nil => exact bounded
  | cons call calls ih =>
    apply ih
    cases call with
    | set k => exact Nat.min_le_left cap _
    | clear k => exact (Nat.sub_le (f.counter x) (weight k x)).trans bounded

/-- Set a key and others, then clear the others. -/
def crowd (k : κ) (others : List κ) : List (Call κ) :=
  (.set k :: sets others) ++ clears others

/-- A key whose positions the others fill is missed after they are gone. -/
theorem not_mayHave_crowd {others : List κ} (positive : 0 < cap) (unique : others.Nodup)
    (full : ∀ x, 0 < weight k x → cap ≤ load weight others.toFinset x) :
    ¬ MayHave weight (run weight cap (crowd k others) empty) k := by
  rintro ⟨x, weighs, found⟩
  have crowded := full x weighs
  let one := CountingFilter.set weight cap k empty
  let all := run weight cap (sets others) one
  have shape : run weight cap (crowd k others) empty = run weight cap (clears others) all := by
    rw [crowd, run, List.foldl_append]
    rfl
  have counted := counter_sets weight cap one x unique
  have bounded : all.counter x ≤ cap := counter_le (Nat.min_le_left cap _)
  have present : all.counter x ≠ 0 := by
    show (run weight cap (sets others) one).counter x ≠ 0
    omega
  obtain ⟨counter, last⟩ := counter_clears weight cap all x unique
    fun gone => absurd gone present
  have lost : (run weight cap (clears others) all).bit x = false := last (by omega)
  rw [shape, lost] at found
  exact Bool.false_ne_true found

theorem disciplined_crowd {others : List κ} (unique : others.Nodup) :
    Disciplined ∅ (crowd k others) := by
  apply disciplined_append.mpr
  refine ⟨disciplined_sets (k :: others), disciplined_clears unique ?_⟩
  intro k' member
  exact (mem_active_sets (k :: others)).mpr (.inr (List.mem_cons_of_mem k member))

theorem mem_active_crowd {others : List κ} (other : k ∉ others) :
    k ∈ active ∅ (crowd k others) := by
  rw [crowd, active_append]
  refine mem_active_clears ?_ other
  exact (mem_active_sets (k :: others)).mpr (.inr List.mem_cons_self)

omit [DecidableEq κ] in
theorem about_crowd {others : List κ} (member : k ∈ keys) (among : ∀ k ∈ others, k ∈ keys) :
    ∀ call ∈ crowd k others, call.About keys := by
  intro call listed
  obtain listed | listed := List.mem_append.mp listed
  · obtain rfl | listed := List.mem_cons.mp listed
    · exact member
    · obtain ⟨k', chosen, rfl⟩ := List.mem_map.mp listed
      exact among k' chosen
  · obtain ⟨k', chosen, rfl⟩ := List.mem_map.mp listed
    exact among k' chosen

/-- When the filter never misses a key that is set. -/
theorem noMisses_iff (positive : 0 < cap) :
    NoMisses weight cap keys ↔
      ∀ k ∈ keys, ∃ x, 0 < weight k x ∧ load weight (keys.erase k) x < cap := by
  constructor
  · intro never k member
    by_contra crowded
    let others := (keys.erase k).toList
    have unique : others.Nodup := Finset.nodup_toList _
    have listed : ∀ {k'}, k' ∈ others ↔ k' ∈ keys.erase k := Finset.mem_toList
    have full : ∀ x, 0 < weight k x → cap ≤ load weight others.toFinset x := by
      intro x weighs
      rw [Finset.toList_toFinset]
      by_contra room
      exact crowded ⟨x, weighs, not_le.mp room⟩
    have among : ∀ k' ∈ others, k' ∈ keys :=
      fun k' chosen => Finset.mem_of_mem_erase (listed.mp chosen)
    have absent : k ∉ others := fun chosen => (Finset.notMem_erase k keys) (listed.mp chosen)
    have found := never (crowd k others) (about_crowd member among) (disciplined_crowd unique)
      k (mem_active_crowd absent)
    exact not_mayHave_crowd positive unique full found
  · intro room calls about disciplined k member
    have among : active ∅ calls ⊆ keys := active_subset (Finset.empty_subset keys) about
    obtain ⟨x, weighs, below⟩ := room k (among member)
    have holds := (holds_empty weight cap keys x).run about disciplined
    exact holds.mayHave member weighs below

end CountingFilter
