import Mathlib.Tactic.Ring
import PgRipple.Dictionary.Inline
import PgRipple.Lib.CountingFilter
import PgRipple.Storage.Sequence

/-!
# The filter for pending delta rows

Shared memory holds 1024 bits and as many counters of eight bits. A predicate hashes to two
of the positions. An insert into its delta table sets both bits and counts both counters up;
a merge counts them down and clears the bits whose counter is `0`. The counters saturate at
255 and forget there, against the comment on the clearing function.

Positions index words of 64 bits, as in the source; `DeltaBloom.filter` forgets that and makes
the whole an instance of a counting filter.
-/

namespace PgRipple.Storage

open CountingFilter (Call)

/-- `bloom_bits`: two positions below 1024. -/
def bloomBits (predId : TermId) : Nat × Nat :=
  let h := Dictionary.asU64 predId
  ((h * 0x9E3779B97F4A7C15 % 2 ^ 64) >>> 54, (h * 0x6C62272E07BB0142 % 2 ^ 64) >>> 54)

/-- `DELTA_BLOOM`, sixteen words, and `DELTA_BLOOM_COUNTERS`. -/
structure DeltaBloom where
  words : Nat → BitVec 64
  counters : Nat → Fin 256

namespace DeltaBloom

local instance counterRange : NeZero 256 := ⟨by decide⟩

def zero : DeltaBloom := ⟨fun _ => 0, fun _ => 0⟩

/-- `bits[p >> 6] |= 1 << (p & 63)`. -/
def setBit (words : Nat → BitVec 64) (p : Nat) : Nat → BitVec 64 :=
  Function.update words (p >>> 6) (words (p >>> 6) ||| 1#64 <<< (p &&& 63))

/-- `bits[p >> 6] &= !(1 << (p & 63))`. -/
def clearBit (words : Nat → BitVec 64) (p : Nat) : Nat → BitVec 64 :=
  Function.update words (p >>> 6) (words (p >>> 6) &&& ~~~(1#64 <<< (p &&& 63)))

/-- `(words[p >> 6] >> (p & 63)) & 1 == 1`. -/
def testBit (words : Nat → BitVec 64) (p : Nat) : Bool :=
  (words (p >>> 6) >>> (p &&& 63)) &&& 1#64 == 1#64

/-- `counters[p] = counters[p].saturating_add(1)`. -/
def countUp (counters : Nat → Fin 256) (p : Nat) : Nat → Fin 256 :=
  Function.update counters p ⟨min 255 (counters p + 1), by omega⟩

/-- `counters[p] = counters[p].saturating_sub(1)`. -/
def countDown (counters : Nat → Fin 256) (p : Nat) : Nat → Fin 256 :=
  Function.update counters p ⟨counters p - 1, by omega⟩

section Words

variable {words : Nat → BitVec 64} {p x : Nat}

/-- Reading a bit is reading it from the word it lies in. -/
theorem testBit_eq : testBit words p = (words (p / 64)).getLsbD (p % 64) := by
  have index : p >>> 6 = p / 64 := Nat.shiftRight_eq_div_pow p 6
  have place : p &&& 63 = p % 64 := Nat.and_two_pow_sub_one_eq_mod p 6
  rw [testBit, index, place, BitVec.and_one_eq_setWidth_ofBool_getLsbD,
    BitVec.getLsbD_ushiftRight, Nat.add_zero]
  cases (words (p / 64)).getLsbD (p % 64) with
  | false => rfl
  | true => rfl

theorem getLsbD_one_shiftLeft {k j : Nat} (inside : j < 64) :
    (1#64 <<< k).getLsbD j = decide (j = k) := by
  rw [BitVec.getLsbD_shiftLeft, BitVec.getLsbD_one]
  by_cases same : j = k
  · simp only [same, Nat.lt_irrefl, decide_false, Nat.sub_self, decide_true]
    simp
    omega
  · simp only [same, inside, decide_true, decide_false]
    simp
    omega

/-- Bits in one word are told apart by their place in it. -/
theorem eq_iff_place (word : x / 64 = p / 64) : x % 64 = p % 64 ↔ x = p := by
  omega

theorem testBit_setBit : testBit (setBit words p) x = (testBit words x || decide (x = p)) := by
  have index : p >>> 6 = p / 64 := Nat.shiftRight_eq_div_pow p 6
  have place : p &&& 63 = p % 64 := Nat.and_two_pow_sub_one_eq_mod p 6
  have inside : x % 64 < 64 := Nat.mod_lt x (by decide)
  rw [testBit_eq, testBit_eq, setBit, index, place]
  by_cases word : x / 64 = p / 64
  · rw [word, Function.update_self, BitVec.getLsbD_or, getLsbD_one_shiftLeft inside]
    simp only [eq_iff_place word]
  · have other : x ≠ p := fun same => word (congrArg (· / 64) same)
    rw [Function.update_of_ne word]
    simp [other]

theorem testBit_clearBit :
    testBit (clearBit words p) x = (testBit words x && !decide (x = p)) := by
  have index : p >>> 6 = p / 64 := Nat.shiftRight_eq_div_pow p 6
  have place : p &&& 63 = p % 64 := Nat.and_two_pow_sub_one_eq_mod p 6
  have inside : x % 64 < 64 := Nat.mod_lt x (by decide)
  rw [testBit_eq, testBit_eq, clearBit, index, place]
  by_cases word : x / 64 = p / 64
  · rw [word, Function.update_self, BitVec.getLsbD_and, BitVec.getLsbD_not,
      getLsbD_one_shiftLeft inside]
    simp only [eq_iff_place word, inside, decide_true, Bool.true_and]
  · have other : x ≠ p := fun same => word (congrArg (· / 64) same)
    rw [Function.update_of_ne word]
    simp [other]

end Words

section Counters

variable {counters : Nat → Fin 256} {p x : Nat}

theorem countUp_val :
    (countUp counters p x : Nat) = min 255 ((counters x : Nat) + if x = p then 1 else 0) := by
  have bounded := (counters x).isLt
  rw [countUp]
  by_cases here : x = p
  · subst here
    rw [Function.update_self, if_pos rfl]
  · rw [Function.update_of_ne here, if_neg here]
    omega

theorem countDown_val :
    (countDown counters p x : Nat) = (counters x : Nat) - if x = p then 1 else 0 := by
  rw [countDown]
  by_cases here : x = p
  · subst here
    rw [Function.update_self, if_pos rfl]
  · rw [Function.update_of_ne here, if_neg here, Nat.sub_zero]

end Counters

/-- `set_predicate_delta_bit`. `ready` is `SHMEM_READY`. -/
def setPredicateDeltaBit (ready : Bool) (predId : TermId) (b : DeltaBloom) : DeltaBloom :=
  let p1 := (bloomBits predId).1
  let p2 := (bloomBits predId).2
  if ready then
    { words := setBit (setBit b.words p1) p2
      counters := countUp (countUp b.counters p1) p2 }
  else b

/-- `clear_predicate_delta_bit`. -/
def clearPredicateDeltaBit (ready : Bool) (predId : TermId) (b : DeltaBloom) : DeltaBloom :=
  let p1 := (bloomBits predId).1
  let p2 := (bloomBits predId).2
  if ready then
    let counters := countDown (countDown b.counters p1) p2
    let words := if counters p1 = 0 then clearBit b.words p1 else b.words
    { words := if counters p2 = 0 then clearBit words p2 else words
      counters := counters }
  else b

/-- `predicate_may_have_delta`. -/
def predicateMayHaveDelta (ready : Bool) (predId : TermId) (b : DeltaBloom) : Bool :=
  let p1 := (bloomBits predId).1
  let p2 := (bloomBits predId).2
  if ready then testBit b.words p1 || testBit b.words p2 else true

/-- The filter after a call. -/
def apply (ready : Bool) : Call TermId → DeltaBloom → DeltaBloom
  | .set predId, b => setPredicateDeltaBit ready predId b
  | .clear predId, b => clearPredicateDeltaBit ready predId b

def run (ready : Bool) (calls : List (Call TermId)) (b : DeltaBloom) : DeltaBloom :=
  calls.foldl (fun b call => apply ready call b) b

/-- How often a predicate counts at a position. -/
def weight (predId : TermId) (x : Nat) : Nat :=
  (if x = (bloomBits predId).1 then 1 else 0) + if x = (bloomBits predId).2 then 1 else 0

theorem weight_pos {predId : TermId} {x : Nat} :
    0 < weight predId x ↔ x = (bloomBits predId).1 ∨ x = (bloomBits predId).2 := by
  unfold weight
  by_cases first : x = (bloomBits predId).1
  · simp [first]
  · simp only [first, if_false, Nat.zero_add, false_or]
    by_cases second : x = (bloomBits predId).2
    · simp [second]
    · simp [second]

/-- The filter without its layout in words. -/
def filter (b : DeltaBloom) : CountingFilter.Filter Nat where
  bit := testBit b.words
  counter x := b.counters x

variable {b : DeltaBloom} {predId : TermId}

theorem filter_zero : filter zero = CountingFilter.empty := by
  apply CountingFilter.Filter.ext
  · funext x
    show testBit (fun _ => 0) x = false
    rw [testBit_eq]
    exact BitVec.getLsbD_zero
  · rfl

theorem filter_set : filter (setPredicateDeltaBit true predId b) =
    CountingFilter.set weight 255 predId (filter b) := by
  apply CountingFilter.Filter.ext
  · funext x
    show testBit (setBit (setBit b.words (bloomBits predId).1) (bloomBits predId).2) x =
      (testBit b.words x || decide (0 < weight predId x))
    rw [testBit_setBit, testBit_setBit, Bool.or_assoc]
    simp only [weight_pos, Bool.decide_or]
  · funext x
    show (countUp (countUp b.counters (bloomBits predId).1) (bloomBits predId).2 x : Nat) =
      min 255 ((b.counters x : Nat) + weight predId x)
    rw [countUp_val, countUp_val, weight]
    omega

theorem filter_clear : filter (clearPredicateDeltaBit true predId b) =
    CountingFilter.clear weight predId (filter b) := by
  let counters := countDown (countDown b.counters (bloomBits predId).1) (bloomBits predId).2
  have counted (x : Nat) : (counters x : Nat) = (b.counters x : Nat) - weight predId x := by
    show (countDown (countDown b.counters (bloomBits predId).1) (bloomBits predId).2 x : Nat) = _
    rw [countDown_val, countDown_val, weight]
    omega
  have gone (x : Nat) : counters x = 0 ↔ (b.counters x : Nat) - weight predId x = 0 := by
    rw [← counted, Fin.ext_iff]
    exact Iff.rfl
  have cleared (words : Nat → BitVec 64) (p x : Nat) :
      testBit (if counters p = 0 then clearBit words p else words) x =
        (testBit words x && !decide (x = p ∧ counters x = 0)) := by
    by_cases zero : counters p = 0
    · rw [if_pos zero, testBit_clearBit]
      by_cases here : x = p
      · simp [here, zero]
      · simp [here]
    · rw [if_neg zero]
      by_cases here : x = p
      · simp [here, zero]
      · simp [here]
  apply CountingFilter.Filter.ext
  · funext x
    show testBit (if counters (bloomBits predId).2 = 0 then
        clearBit (if counters (bloomBits predId).1 = 0 then clearBit b.words (bloomBits predId).1
          else b.words) (bloomBits predId).2
      else if counters (bloomBits predId).1 = 0 then clearBit b.words (bloomBits predId).1
        else b.words) x =
      (testBit b.words x &&
        !decide (0 < weight predId x ∧ (b.counters x : Nat) - weight predId x = 0))
    rw [cleared, cleared]
    simp only [weight_pos, gone, or_and_right, Bool.decide_or, Bool.not_or, Bool.and_assoc]
  · funext x
    exact counted x

theorem mayHave_iff : predicateMayHaveDelta true predId b = true ↔
    CountingFilter.MayHave weight (filter b) predId := by
  show (testBit b.words (bloomBits predId).1 || testBit b.words (bloomBits predId).2) = true ↔ _
  rw [Bool.or_eq_true]
  constructor
  · intro found
    cases found with
    | inl first => exact ⟨_, weight_pos.mpr (.inl rfl), first⟩
    | inr second => exact ⟨_, weight_pos.mpr (.inr rfl), second⟩
  · rintro ⟨x, weighs, found⟩
    obtain rfl | rfl := weight_pos.mp weighs
    · exact .inl found
    · exact .inr found

theorem filter_run {calls : List (Call TermId)} :
    filter (run true calls b) = CountingFilter.run weight 255 calls (filter b) := by
  induction calls generalizing b with
  | nil => rfl
  | cons call calls ih =>
    show filter (run true calls (apply true call b)) =
      CountingFilter.run weight 255 calls (call.apply weight 255 (filter b))
    rw [ih]
    cases call with
    | set predId => exact congrArg _ filter_set
    | clear predId => exact congrArg _ filter_clear

/-- However these predicates are set and cleared, none that is set is denied. -/
def NoFalseNegatives (ready : Bool) (predIds : Finset TermId) : Prop :=
  ∀ calls : List (Call TermId), (∀ call ∈ calls, call.About predIds) →
    CountingFilter.Disciplined ∅ calls → ∀ predId ∈ CountingFilter.active ∅ calls,
      predicateMayHaveDelta ready predId (run ready calls zero) = true

/-- The counter has room for a predicate beside all the others. -/
def HasRoom (predIds : Finset TermId) (predId : TermId) (x : Nat) : Prop :=
  CountingFilter.load weight (predIds.erase predId) x < 255

/-- Which predicates the filter never denies while they are set. -/
theorem noFalseNegatives_iff (ready : Bool) (predIds : Finset TermId) :
    NoFalseNegatives ready predIds ↔
      (ready = true → ∀ predId ∈ predIds,
        HasRoom predIds predId (bloomBits predId).1 ∨
          HasRoom predIds predId (bloomBits predId).2) := by
  cases ready with
  | false =>
      constructor
      · intro _ absurd
        cases absurd
      · intro _ calls _ _ predId _
        rfl
  | true =>
      have instantiated : NoFalseNegatives true predIds ↔
          CountingFilter.NoMisses weight 255 predIds := by
        simp only [NoFalseNegatives, CountingFilter.NoMisses, mayHave_iff, filter_run, filter_zero]
      rw [instantiated, CountingFilter.noMisses_iff (by decide)]
      simp only [forall_const, weight_pos, or_and_right, exists_or, exists_eq_left]
      exact Iff.rfl

/-- These predicates lie so far apart that their products with the two factors differ in low
bits only: they share the positions of predicate `1`. -/
def crowdedId (k : Nat) : TermId := ((1 + 5270549945602179 * k : Nat) : Int)

theorem crowdedId_injective : Function.Injective crowdedId := by
  intro j k same
  have values := Int.ofNat_inj.mp same
  omega

theorem asU64_crowdedId {k : Nat} (few : k < 256) :
    Dictionary.asU64 (crowdedId k) = 1 + 5270549945602179 * k := by
  rw [Dictionary.asU64, crowdedId]
  omega

/-- A hash of a spaced-out id moves by the low bits of the product only. -/
theorem hash_spaced (spacing factor step turns k : Nat)
    (product : spacing * factor = step + 2 ^ 64 * turns) :
    (1 + spacing * k) * factor % 2 ^ 64 = (factor + step * k) % 2 ^ 64 := by
  have shape : (1 + spacing * k) * factor = (factor + step * k) + 2 ^ 64 * (turns * k) := by
    calc (1 + spacing * k) * factor = factor + spacing * factor * k := by ring
      _ = factor + (step + 2 ^ 64 * turns) * k := by rw [product]
      _ = (factor + step * k) + 2 ^ 64 * (turns * k) := by ring
  rw [shape, Nat.add_mul_mod_self_left]

theorem bloomBits_crowdedId {k : Nat} (few : k < 256) : bloomBits (crowdedId k) = (632, 433) := by
  have first := hash_spaced 5270549945602179 0x9E3779B97F4A7C15 280432319 3257379005786056 k
    (by decide)
  have second := hash_spaced 5270549945602179 0x6C62272E07BB0142 6408366212294 2231406943174309 k
    (by decide)
  rw [bloomBits, asU64_crowdedId few, first, second, Nat.shiftRight_eq_div_pow,
    Nat.shiftRight_eq_div_pow, Nat.mod_eq_of_lt (by omega), Nat.mod_eq_of_lt (by omega)]
  apply Prod.ext
  · show (0x9E3779B97F4A7C15 + 280432319 * k) / 2 ^ 54 = 632
    omega
  · show (0x6C62272E07BB0142 + 6408366212294 * k) / 2 ^ 54 = 433
    omega

/-- Every predicate but the first. -/
@[irreducible] def crowdingIds : List TermId := (List.range 255).map fun k => crowdedId (k + 1)

theorem mem_crowdingIds {predId : TermId} :
    predId ∈ crowdingIds ↔ ∃ k < 255, crowdedId (k + 1) = predId := by
  rw [crowdingIds, List.mem_map]
  simp only [List.mem_range]

theorem nodup_crowdingIds : crowdingIds.Nodup := by
  rw [crowdingIds]
  apply List.nodup_range.map
  intro j k same
  exact Nat.succ.inj (crowdedId_injective same)

theorem le_load_crowdingIds {x : Nat} (here : x = 632 ∨ x = 433) :
    255 ≤ CountingFilter.load weight crowdingIds.toFinset x := by
  have size : crowdingIds.toFinset.card = 255 := by
    rw [List.toFinset_card_of_nodup nodup_crowdingIds, crowdingIds, List.length_map,
      List.length_range]
  have each : ∀ predId ∈ crowdingIds.toFinset, 1 ≤ weight predId x := by
    intro predId member
    obtain ⟨k, few, rfl⟩ := mem_crowdingIds.mp (List.mem_toFinset.mp member)
    have below : k + 1 < 256 := by omega
    apply weight_pos.mpr
    rw [bloomBits_crowdedId below]
    exact here
  have bound := Finset.card_nsmul_le_sum crowdingIds.toFinset (fun predId => weight predId x) 1 each
  rw [size] at bound
  exact bound

/-- With 256 predicates on two positions, one is denied after the others are merged. -/
theorem not_noFalseNegatives :
    predicateMayHaveDelta true (crowdedId 0)
        (run true (CountingFilter.crowd (crowdedId 0) crowdingIds) zero) = false ∧
      CountingFilter.Disciplined ∅ (CountingFilter.crowd (crowdedId 0) crowdingIds) ∧
      crowdedId 0 ∈ CountingFilter.active ∅ (CountingFilter.crowd (crowdedId 0) crowdingIds) := by
  have other : crowdedId 0 ∉ crowdingIds := by
    intro member
    obtain ⟨k, -, same⟩ := mem_crowdingIds.mp member
    exact Nat.succ_ne_zero k (crowdedId_injective same)
  refine ⟨?_, CountingFilter.disciplined_crowd nodup_crowdingIds,
    CountingFilter.mem_active_crowd other⟩
  have denied : ¬ CountingFilter.MayHave weight
      (CountingFilter.run weight 255 (CountingFilter.crowd (crowdedId 0) crowdingIds)
        CountingFilter.empty) (crowdedId 0) := by
    apply CountingFilter.not_mayHave_crowd (by decide) nodup_crowdingIds
    intro x weighs
    apply le_load_crowdingIds
    have positions := weight_pos.mp weighs
    rwa [bloomBits_crowdedId (by decide)] at positions
  rw [← filter_zero, ← filter_run, ← mayHave_iff] at denied
  exact Bool.eq_false_iff.mpr denied

end DeltaBloom

end PgRipple.Storage
