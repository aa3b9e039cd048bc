import Mathlib.Logic.Basic

/-!
# Term hashes and their halves

A term is known by a hash of 128 bits, which the dictionary table stores as two signed
columns of 64 bits. Reading a hash back from its halves is a place to go wrong: the lower half is
widened as a signed number, so that a hash whose bit 63 is set loses its upper half.
-/

namespace PgRipple.Dictionary

/-- A 128-bit term hash. -/
abbrev Hash := BitVec 128

/-- `(hash128 >> 64) as i64`. -/
def hashHi (hash128 : Hash) : BitVec 64 := hash128.extractLsb' 64 64

/-- `hash128 as i64`. -/
def hashLo (hash128 : Hash) : BitVec 64 := hash128.setWidth 64

/-- `((hash_hi as u128) << 64) | (hash_lo as u128)`: both casts extend the sign. -/
def reassemble (hi lo : BitVec 64) : Hash := hi.signExtend 128 <<< 64 ||| lo.signExtend 128

/-- A hash that is read back as itself. -/
def Reassembles (hash128 : Hash) : Prop := reassemble (hashHi hash128) (hashLo hash128) = hash128

instance : DecidablePred Reassembles :=
  fun hash128 => inferInstanceAs (Decidable (reassemble _ _ = hash128))

variable {hi lo : BitVec 64} {hash128 : Hash} {i : Nat}

/-- The lower half is read as it is, the upper half only under a positive lower half. -/
theorem getLsbD_reassemble (inside : i < 128) :
    (reassemble hi lo).getLsbD i =
      if i < 64 then lo.getLsbD i else hi.getLsbD (i - 64) || lo.getLsbD 63 := by
  rw [reassemble, BitVec.getLsbD_or, BitVec.getLsbD_shiftLeft, BitVec.getLsbD_signExtend,
    BitVec.getLsbD_signExtend]
  by_cases low : i < 64
  · simp [low, inside]
  · have upper : i - 64 < 64 := by omega
    have within : i - 64 < 128 := by omega
    simp [low, inside, upper, within, BitVec.msb_eq_getLsbD_last]

theorem hashLo_reassemble : hashLo (reassemble hi lo) = lo := by
  apply BitVec.eq_of_getLsbD_eq
  intro i low
  have inside : i < 128 := by omega
  rw [hashLo, BitVec.getLsbD_setWidth, getLsbD_reassemble inside, if_pos low]
  simp [low]

theorem getLsbD_hashHi (upper : i < 64) : (hashHi hash128).getLsbD i = hash128.getLsbD
    (64 + i) := by
  rw [hashHi, BitVec.getLsbD_extractLsb']
  simp [upper]

/-- Whatever is read back is read back as itself the second time. -/
theorem reassembles_reassemble : Reassembles (reassemble hi lo) := by
  apply BitVec.eq_of_getLsbD_eq
  intro i inside
  rw [getLsbD_reassemble inside, hashLo_reassemble, getLsbD_reassemble inside]
  by_cases low : i < 64
  · rw [if_pos low, if_pos low]
  · have upper : i - 64 < 64 := by omega
    have place : 64 + (i - 64) = i := by omega
    rw [if_neg low, if_neg low, getLsbD_hashHi upper, place, getLsbD_reassemble inside,
      if_neg low, Bool.or_assoc, Bool.or_self]

end PgRipple.Dictionary
