import PgRipple.Lib.Run
import PgRipple.Storage.Sequence
import Mathlib.Data.Int.Bitwise
import Mathlib.Order.Lattice

/-!
# The temporal fact store

A predicate is registered as temporal with a data model. Its facts are rows with the
interval in which they are valid; the row is open while the end is missing. The
intervals are half-open, as the ranges are that `temporal_window` builds from them.

Timestamps are compared only, so they are elements of any linear order.
-/

namespace PgRipple.Temporal

/-- The `data_model` column of `temporal_predicates`, with the values that its `CHECK` allows. -/
inductive DataModel where
  | snapshot
  | versioned
  deriving DecidableEq, Repr

/-- A row of `temporal_facts`. -/
structure Fact (τ : Type*) where
  s : TermId
  p : TermId
  o : TermId
  g : TermId
  validFrom : τ
  /-- `none`: the row is open. -/
  validTo : Option τ
  deriving DecidableEq, Repr

/-- What a snapshot has one value for. -/
structure Key where
  s : TermId
  p : TermId
  g : TermId
  deriving DecidableEq, Repr

namespace Fact

variable {τ : Type*}

def key (f : Fact τ) : Key := ⟨f.s, f.p, f.g⟩

/-- `SET valid_to = at`. -/
def close (f : Fact τ) (at_ : τ) : Fact τ := { f with validTo := some at_ }

@[simp] theorem key_close (f : Fact τ) (at_ : τ) : (f.close at_).key = f.key := rfl
@[simp] theorem p_close (f : Fact τ) (at_ : τ) : (f.close at_).p = f.p := rfl
@[simp] theorem validFrom_close (f : Fact τ) (at_ : τ) :
    (f.close at_).validFrom = f.validFrom := rfl
@[simp] theorem validTo_close (f : Fact τ) (at_ : τ) : (f.close at_).validTo = some at_ := rfl

variable [LinearOrder τ]

/-- The row ends at its start or later, or not at all. -/
def Ordered (f : Fact τ) : Prop := ∀ e ∈ f.validTo, f.validFrom ≤ e

/-- The fact is valid at the instant: `tstzrange(valid_from, valid_to, '[)')` contains it. -/
def ValidAt (f : Fact τ) (t : τ) : Prop := f.validFrom ≤ t ∧ ∀ e ∈ f.validTo, t < e

instance (f : Fact τ) : Decidable f.Ordered :=
  inferInstanceAs (Decidable (∀ e ∈ f.validTo, f.validFrom ≤ e))

instance (f : Fact τ) (t : τ) : Decidable (f.ValidAt t) :=
  inferInstanceAs (Decidable (_ ∧ ∀ e ∈ f.validTo, t < e))

/-- No instant at which both are valid. -/
def Apart (a b : Fact τ) : Prop := ∀ t, ¬ (a.ValidAt t ∧ b.ValidAt t)

theorem Apart.symm {a b : Fact τ} (h : a.Apart b) : b.Apart a := fun t both => h t both.symm

/-- Closing an open row leaves a part of its interval. -/
theorem ValidAt.of_close {f : Fact τ} {at_ t : τ} (opened : f.validTo = none)
    (h : (f.close at_).ValidAt t) : f.ValidAt t := by
  refine ⟨h.1, fun e ends => ?_⟩
  rw [opened] at ends
  exact absurd ends (by simp)

theorem Apart.close_left {a b : Fact τ} {at_ : τ} (opened : a.validTo = none)
    (h : a.Apart b) : (a.close at_).Apart b :=
  fun t both => h t ⟨both.1.of_close opened, both.2⟩

/-- What is closed at an instant is apart from what starts there. -/
theorem close_apart (f : Fact τ) (new : Fact τ) : (f.close new.validFrom).Apart new :=
  fun _ both => absurd both.2.1 (not_le.mpr (both.1.2 _ rfl))

@[simp] theorem ordered_close (f : Fact τ) (at_ : τ) :
    (f.close at_).Ordered ↔ f.validFrom ≤ at_ := by
  simp [Ordered]

end Fact

/-- The two tables. -/
structure TemporalDb (τ : Type*) where
  /-- `temporal_predicates`. -/
  temporalPredicates : TermId → Option DataModel
  /-- `temporal_facts`. -/
  temporalFacts : List (Fact τ)

namespace TemporalDb

variable {τ : Type*}

/-- After the installation. -/
def empty : TemporalDb τ := ⟨fun _ => none, []⟩

/-- `UPDATE temporal_facts SET valid_to = at` for the open rows of a key. -/
def closeOpen (db : TemporalDb τ) (k : Key) (at_ : τ) : TemporalDb τ :=
  { db with
    temporalFacts := db.temporalFacts.map fun f =>
      if f.key = k ∧ f.validTo = none then f.close at_ else f }

@[simp] theorem temporalPredicates_closeOpen (db : TemporalDb τ) (k : Key) (at_ : τ) :
    (db.closeOpen k at_).temporalPredicates = db.temporalPredicates := rfl

/-- `mark_temporal`. `none`: the error PT0430. -/
def markTemporal (db : TemporalDb τ) (pred : TermId) (dataModel : DataModel) :
    Option (TemporalDb τ) :=
  match db.temporalPredicates pred with
  | some existing => if existing = dataModel then some db else none
  | none =>
    let registered := Function.update db.temporalPredicates pred (some dataModel)
    some { db with temporalPredicates := registered }

/-- `unmark_temporal`. `none`: the error PT0431. -/
def unmarkTemporal (db : TemporalDb τ) (pred : TermId) : Option (TemporalDb τ) :=
  if ∃ f ∈ db.temporalFacts, f.p = pred then none
  else
    let registered := Function.update db.temporalPredicates pred none
    some { db with temporalPredicates := registered }

/-- `insert_triple_temporal`, with the reference value that it returns. `none`: the error
PT0432. -/
def insertTripleTemporal (db : TemporalDb τ) (new : Fact τ) : Option (TermId × TemporalDb τ) :=
  match db.temporalPredicates new.p with
  | none => none
  | some dataModel =>
    let db := if dataModel = .snapshot then db.closeOpen new.key new.validFrom else db
    let reference := (new.s.xor new.p).xor new.o
    some (reference, { db with temporalFacts := db.temporalFacts ++ [new] })

/-- `retract_triple_temporal` in a transaction that began at `now`, with the number of rows
that it closed. -/
def retractTripleTemporal (db : TemporalDb τ) (k : Key) (now : τ) : Option (Nat × TemporalDb τ) :=
  match db.temporalPredicates k.p with
  | none => none
  | some _ =>
    let closed := db.temporalFacts.countP fun f => f.key = k ∧ f.validTo = none
    some (closed, db.closeOpen k now)

end TemporalDb

/-- A call; the end of an inserted fact is missing or not before its start. -/
inductive Call (τ : Type*) [LinearOrder τ] where
  | mark (pred : TermId) (dataModel : DataModel)
  | unmark (pred : TermId)
  | insert (new : Fact τ) (ordered : new.Ordered)
  | retract (k : Key) (now : τ)

/-- A call that raises an error changes nothing, and is not part of a run. -/
def TemporalDb.step {τ : Type*} [LinearOrder τ] (db : TemporalDb τ) : Call τ → Option (TemporalDb τ)
  | .mark pred dataModel => db.markTemporal pred dataModel
  | .unmark pred => db.unmarkTemporal pred
  | .insert new _ => (db.insertTripleTemporal new).map Prod.snd
  | .retract k now => (db.retractTripleTemporal k now).map Prod.snd

end PgRipple.Temporal
