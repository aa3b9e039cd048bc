import PgRipple.Storage.Sequence
import PgRipple.Lib.Run
import Mathlib

/-!
# Pre-allocation of statement ids

Before it launches parallel workers, an inference run reserves a range of statement
ids for each of them with one statement, `setval(seq, nextval(seq) + total - 1)`.
The statement performs two sequence operations, and other sessions may run between
them. `setval` overwrites `last_value` for everybody, but it discards only the
caller's own cached block: the blocks other sessions hold stay in use.

The sequence here has no invariant of its own, because `setval` can move
`last_value` below a block that some session still holds.
`SharedSequence.nextval_ofSequence` connects it to the sequence of the storage layer,
on which nobody calls `setval`.
-/

namespace PgRipple.Datalog

open Storage (cacheSize)

/-- The sequence relation and the block each session holds. -/
structure SharedSequence where
  lastValue : Int
  isCalled : Bool
  cached : Session → Option (Int × Int)

namespace SharedSequence

/-- `MAXVALUE` of an ascending `BIGINT` sequence. -/
def maxValue : Int := 2 ^ 63 - 1

def initial : SharedSequence where
  lastValue := 1
  isCalled := false
  cached := fun _ => none

/-- The first value that has not been reserved. -/
def blockStart (q : SharedSequence) : Int :=
  if q.isCalled then q.lastValue + 1 else q.lastValue

/-- `nextval`: from the session's block, or from a new block. The sequence does not
cycle, so a session without cached values fails once `maxValue` is reserved. -/
def nextval (q : SharedSequence) (session : Session) : Option (Int × SharedSequence) :=
  match q.cached session with
  | some (next, last) =>
    some (next,
      { q with
        cached := Function.update q.cached session (Storage.Sequence.restOfBlock next last) })
  | none =>
    let first := q.blockStart
    if first ≤ maxValue then
      let last := min (first + (cacheSize - 1)) maxValue
      some (first,
        { lastValue := last
          isCalled := true
          cached := Function.update q.cached session (Storage.Sequence.restOfBlock first last) })
    else none

/-- `setval(seq, value)`: `none` stands for the error raised outside the bounds. -/
def setval (q : SharedSequence) (session : Session) (value : Int) : Option SharedSequence :=
  if 1 ≤ value ∧ value ≤ maxValue then
    some
      { lastValue := value
        isCalled := true
        cached := Function.update q.cached session none }
  else none

end SharedSequence

namespace SharedSequence

/-- The value lies in the block the session holds. -/
def InBlock (q : SharedSequence) (session : Session) (x : Int) : Prop :=
  ∃ next last, q.cached session = some (next, last) ∧ next ≤ x ∧ x ≤ last

/-- A session without a value left holds no block. -/
def BlocksNonempty (q : SharedSequence) : Prop :=
  ∀ session next last, q.cached session = some (next, last) → next ≤ last

/-- `value` was the next of the session's block, or the first of a new block. -/
structure Drawn (q : SharedSequence) (session : Session) (value : Int) (q' : SharedSequence) :
    Prop where
  source : q.InBlock session value ∨ q.blockStart ≤ value ∧ value < q'.blockStart
  start_le : q.blockStart ≤ q'.blockStart
  rest : ∀ x, q'.InBlock session x →
    x ≠ value ∧ (q.InBlock session x ∨ q.blockStart ≤ x ∧ x < q'.blockStart)
  others : ∀ s, s ≠ session → q'.cached s = q.cached s
  nonempty : q'.BlocksNonempty

theorem restOfBlock_eq_some {next last n l : Int}
    (h : Storage.Sequence.restOfBlock next last = some (n, l)) :
    n = next + 1 ∧ l = last ∧ next < last := by
  unfold Storage.Sequence.restOfBlock at h
  split at h
  · cases h
    exact ⟨rfl, rfl, by assumption⟩
  · cases h

variable {q q' : SharedSequence} {session : Session} {value : Int}

theorem blocksNonempty_update {next last lastValue : Int} {isCalled : Bool}
    (nonempty : q.BlocksNonempty) :
    BlocksNonempty
      { lastValue := lastValue, isCalled := isCalled,
        cached := Function.update q.cached session
          (Storage.Sequence.restOfBlock next last) } := by
  intro s n l held
  by_cases same : s = session
  · subst same
    dsimp only at held
    rw [Function.update_self] at held
    obtain ⟨rfl, rfl, lt⟩ := restOfBlock_eq_some held
    omega
  · dsimp only at held
    rw [Function.update_of_ne same] at held
    exact nonempty s n l held

theorem inBlock_update {next last lastValue x : Int} {isCalled : Bool}
    (h : InBlock
      { lastValue := lastValue, isCalled := isCalled,
        cached := Function.update q.cached session
          (Storage.Sequence.restOfBlock next last) } session x) :
    next < x ∧ x ≤ last := by
  obtain ⟨n, l, held, le_x, x_le⟩ := h
  dsimp only at held
  rw [Function.update_self] at held
  obtain ⟨rfl, rfl, -⟩ := restOfBlock_eq_some held
  omega

theorem drawn_of_nextval (nonempty : q.BlocksNonempty)
    (h : q.nextval session = some (value, q')) : q.Drawn session value q' := by
  unfold nextval at h
  split at h
  · rename_i next last held
    cases h
    have le := nonempty session value last held
    refine ⟨.inl ⟨value, last, held, le_rfl, le⟩, le_rfl, ?_, ?_, blocksNonempty_update nonempty⟩
    · intro x inRest
      have bounds := inBlock_update inRest
      exact ⟨by omega, .inl ⟨value, last, held, by omega, by omega⟩⟩
    · intro s ne
      exact Function.update_of_ne ne ..
  · dsimp only at h
    split at h
    · rename_i fits
      cases h
      have cache : (0 : Int) < cacheSize := by decide
      have start : q.blockStart < min (q.blockStart + (cacheSize - 1)) maxValue + 1 := by
        omega
      refine ⟨.inr ⟨le_rfl, start⟩, start.le, ?_, ?_, blocksNonempty_update nonempty⟩
      · intro x inRest
        have bounds := inBlock_update inRest
        have upper : x < min (q.blockStart + (cacheSize - 1)) maxValue + 1 := by omega
        exact ⟨by omega, .inr ⟨by omega, upper⟩⟩
      · intro s ne
        exact Function.update_of_ne ne ..
    · cases h

end SharedSequence

/-- The slices of `preallocate_sid_ranges`, one for each worker, the end exclusive. -/
def sidRanges (base : Int) (nWorkers : Nat) (batchSize : Int) : List (Int × Int) :=
  (List.range nWorkers).map fun (i : Nat) =>
    let start := base + i * batchSize
    (start, start + batchSize)

/-- The sequence, the pre-allocations between their `nextval` and their `setval`, with
the base they drew and their arguments, and everything handed out so far. A single
id is the range that ends before its successor. -/
structure Allocation where
  seq : SharedSequence
  pending : Session → Option (Int × Nat × Int)
  issued : List (Int × Int)

inductive AllocationEvent
  /-- A row takes its id. -/
  | nextval (session : Session)
  /-- `preallocate_sid_ranges` up to the evaluation of `nextval`. -/
  | preallocate (session : Session) (nWorkers : Nat) (batchSize : Int)
  /-- The rest of it: `setval` and the computation of the slices. -/
  | setval (session : Session)
  deriving DecidableEq

namespace Allocation

def initial : Allocation where
  seq := .initial
  pending := fun _ => none
  issued := []

/-- One sequence operation. A session runs one statement at a time; a sequence
operation that fails hands nothing out. -/
def step (a : Allocation) : AllocationEvent → Option Allocation
  | .nextval session =>
    match a.pending session with
    | some _ => none
    | none =>
      match a.seq.nextval session with
      | none => some a
      | some (value, seq) =>
        some { a with seq := seq, issued := (value, value + 1) :: a.issued }
  | .preallocate session nWorkers batchSize =>
    match a.pending session with
    | some _ => none
    | none =>
      if nWorkers = 0 then some a
      else
        match a.seq.nextval session with
        | none => some a
        | some (value, seq) =>
          some
            { a with
              seq := seq
              pending := Function.update a.pending session (some (value, nWorkers, batchSize)) }
  | .setval session =>
    match a.pending session with
    | none => none
    | some (value, nWorkers, batchSize) =>
      let total := nWorkers * batchSize
      let newMax := value + total - 1
      let pending := Function.update a.pending session none
      match a.seq.setval session newMax with
      | none => some { a with pending := pending }
      | some seq =>
        let base := newMax - total + 1
        some
          { seq := seq
            pending := pending
            issued := sidRanges base nWorkers batchSize ++ a.issued }

/-- Before a `setval`, the block that its base was drawn from is the newest one: no
session has reserved another block, and none has moved the sequence, since that block
was reserved. The batch is not negative. -/
def NewestBlock (a : Allocation) : AllocationEvent → Prop
  | .setval session =>
    match a.pending session with
    | some (value, _, batchSize) =>
      a.seq.cached session = Storage.Sequence.restOfBlock value a.seq.lastValue ∧ 0 ≤ batchSize
    | none => True
  | _ => True

instance (a : Allocation) : (e : AllocationEvent) → Decidable (a.NewestBlock e)
  | .nextval _ => isTrue trivial
  | .preallocate _ _ _ => isTrue trivial
  | .setval session =>
    match h : a.pending session with
    | none => isTrue (by simp only [NewestBlock, h])
    | some (value, _, batchSize) =>
      decidable_of_iff
        (a.seq.cached session = Storage.Sequence.restOfBlock value a.seq.lastValue ∧ 0 ≤ batchSize)
        (by simp only [NewestBlock, h])

/-- Nothing is handed out twice. -/
def IssuedOnce (a : Allocation) : Prop :=
  a.issued.Pairwise fun r t => Disjoint (Set.Ico r.1 r.2) (Set.Ico t.1 t.2)

/-- The session may still hand the value out: it lies in the session's block, or it is
the base of a pre-allocation of the session. -/
def Reserved (a : Allocation) (session : Session) (x : Int) : Prop :=
  a.seq.InBlock session x ∨ ∃ nWorkers batchSize, a.pending session = some (x, nWorkers, batchSize)

/-- Every value is handed out, reserved by one session, or neither; those from
`blockStart` on are neither. -/
structure Exclusive (a : Allocation) : Prop where
  issuedOnce : a.IssuedOnce
  issued_lt : ∀ r ∈ a.issued, ∀ x ∈ Set.Ico r.1 r.2, x < a.seq.blockStart
  reserved_lt : ∀ session x, a.Reserved session x → x < a.seq.blockStart
  reserved_issued : ∀ session x, a.Reserved session x → ∀ r ∈ a.issued, x ∉ Set.Ico r.1 r.2
  reserved_unique : ∀ s t x, a.Reserved s x → a.Reserved t x → s = t
  nonempty : a.seq.BlocksNonempty

theorem exclusive_initial : initial.Exclusive where
  issuedOnce := .nil
  issued_lt := by
    intro r h
    cases h
  reserved_lt := by
    rintro session x (⟨_, _, h, _⟩ | ⟨_, _, h⟩) <;> cases h
  reserved_issued := by
    intro _ _ _ r h
    cases h
  reserved_unique := by
    rintro s t x (⟨_, _, h, _⟩ | ⟨_, _, h⟩) <;> cases h
  nonempty := by
    intro _ _ _ h
    cases h

variable {a a' : Allocation} {session : Session}

/-- The values a `nextval` of the session may take: its block and those not yet reserved. -/
def Available (a : Allocation) (session : Session) (q' : SharedSequence) (x : Int) : Prop :=
  a.seq.InBlock session x ∨ a.seq.blockStart ≤ x ∧ x < q'.blockStart

section Draw

variable {value x : Int} {q' : SharedSequence}

theorem Exclusive.available_lt (inv : a.Exclusive) (drawn : a.seq.Drawn session value q')
    (h : a.Available session q' x) : x < q'.blockStart := by
  obtain held | ⟨-, lt⟩ := h
  · exact (inv.reserved_lt session x (.inl held)).trans_le drawn.start_le
  · exact lt

theorem Exclusive.available_not_issued (inv : a.Exclusive) (h : a.Available session q' x)
    {r : Int × Int} (hr : r ∈ a.issued) : x ∉ Set.Ico r.1 r.2 := by
  obtain held | ⟨le, -⟩ := h
  · exact inv.reserved_issued session x (.inl held) r hr
  · intro mem
    have := inv.issued_lt r hr x mem
    omega

theorem Exclusive.available_reserved (inv : a.Exclusive) (h : a.Available session q' x)
    {s : Session} (reserved : a.Reserved s x) : s = session := by
  obtain held | ⟨le, -⟩ := h
  · exact inv.reserved_unique s session x reserved (.inl held)
  · have := inv.reserved_lt s x reserved
    omega

/-- After a `nextval` the session keeps available values, and the others what they had. -/
theorem Exclusive.draw (inv : a.Exclusive) (drawn : a.seq.Drawn session value q')
    (seq : a'.seq = q') (issued : a'.issued = a.issued)
    (after : ∀ s x, a'.Reserved s x →
      (s = session ∧ a.Available session q' x) ∨ a.Reserved s x) : a'.Exclusive := by
  subst seq
  refine ⟨?_, ?_, ?_, ?_, ?_, drawn.nonempty⟩
  · unfold IssuedOnce
    rw [issued]
    exact inv.issuedOnce
  · rw [issued]
    intro r hr x mem
    exact (inv.issued_lt r hr x mem).trans_le drawn.start_le
  · intro s x h
    obtain ⟨-, available⟩ | reserved := after s x h
    · exact inv.available_lt drawn available
    · exact (inv.reserved_lt s x reserved).trans_le drawn.start_le
  · rw [issued]
    intro s x h r hr
    obtain ⟨-, available⟩ | reserved := after s x h
    · exact inv.available_not_issued available hr
    · exact inv.reserved_issued s x reserved r hr
  · intro s t x hs ht
    obtain ⟨rfl, available⟩ | reserved := after s x hs
    · obtain ⟨rfl, -⟩ | other := after t x ht
      · rfl
      · exact (inv.available_reserved available other).symm
    · obtain ⟨rfl, available⟩ | other := after t x ht
      · exact inv.available_reserved available reserved
      · exact inv.reserved_unique s t x reserved other

end Draw

/-- Handing out ranges of values that nobody was given and nobody may still hand out. -/
theorem Exclusive.issue (inv : a.Exclusive) {ranges : List (Int × Int)}
    (disjoint : ranges.Pairwise fun r t => Disjoint (Set.Ico r.1 r.2) (Set.Ico t.1 t.2))
    (fresh : ∀ r ∈ ranges, ∀ x ∈ Set.Ico r.1 r.2,
      x < a.seq.blockStart ∧ (∀ s, ¬ a.Reserved s x) ∧ ∀ t ∈ a.issued, x ∉ Set.Ico t.1 t.2) :
    Exclusive { a with issued := ranges ++ a.issued } := by
  refine ⟨?_, ?_, inv.reserved_lt, ?_, inv.reserved_unique, inv.nonempty⟩
  · refine List.pairwise_append.mpr ⟨disjoint, inv.issuedOnce, ?_⟩
    intro r hr t ht
    exact Set.disjoint_left.mpr fun x mem => (fresh r hr x mem).2.2 t ht
  · intro r hr x mem
    obtain hr | hr := List.mem_append.mp hr
    · exact (fresh r hr x mem).1
    · exact inv.issued_lt r hr x mem
  · intro s x reserved r hr mem
    obtain hr | hr := List.mem_append.mp hr
    · exact (fresh r hr x mem).2.1 s reserved
    · exact inv.reserved_issued s x reserved r hr mem

theorem Exclusive.step_nextval (inv : a.Exclusive) (h : a.step (.nextval session) = some a') :
    a'.Exclusive := by
  simp only [step] at h
  split at h
  · cases h
  rename_i idle
  split at h
  · cases h
    exact inv
  rename_i value q' taken
  cases h
  have drawn := SharedSequence.drawn_of_nextval inv.nonempty taken
  have cleared : ∀ s x, Reserved { a with seq := q' } s x →
      (s = session ∧ x ≠ value ∧ a.Available session q' x) ∨ (s ≠ session ∧ a.Reserved s x) := by
    intro s x reserved
    by_cases same : s = session
    · subst same
      obtain held | ⟨n, b, base⟩ := reserved
      · exact .inl ⟨rfl, drawn.rest x held⟩
      · rw [show a.pending s = some (x, n, b) from base] at idle
        cases idle
    · refine .inr ⟨same, reserved.imp_left ?_⟩
      rintro ⟨next, last, held, bounds⟩
      exact ⟨next, last, (drawn.others s same).symm.trans held, bounds⟩
  have inv' : Exclusive { a with seq := q' } := by
    refine inv.draw drawn rfl rfl fun s x reserved => ?_
    obtain ⟨same, -, available⟩ | ⟨-, reserved⟩ := cleared s x reserved
    · exact .inl ⟨same, available⟩
    · exact .inr reserved
  show Exclusive { a with seq := q', issued := [(value, value + 1)] ++ a.issued }
  refine inv'.issue (List.pairwise_singleton ..) ?_
  intro r hr x mem
  rw [List.mem_singleton.mp hr] at mem
  have : x = value := by
    have := mem.1
    have := mem.2
    omega
  subst this
  refine ⟨inv.available_lt drawn drawn.source, ?_, fun t ht =>
    inv.available_not_issued drawn.source ht⟩
  intro s reserved
  obtain ⟨-, ne, -⟩ | ⟨ne, reserved⟩ := cleared s x reserved
  · exact ne rfl
  · exact ne (inv.available_reserved drawn.source reserved)

theorem Exclusive.step_preallocate (inv : a.Exclusive) {nWorkers : Nat} {batchSize : Int}
    (h : a.step (.preallocate session nWorkers batchSize) = some a') : a'.Exclusive := by
  simp only [step] at h
  split at h
  · cases h
  split at h
  · cases h
    exact inv
  split at h
  · cases h
    exact inv
  rename_i value q' taken
  cases h
  have drawn := SharedSequence.drawn_of_nextval inv.nonempty taken
  refine inv.draw drawn rfl rfl fun s x reserved => ?_
  by_cases same : s = session
  · subst same
    obtain held | ⟨n, b, base⟩ := reserved
    · exact .inl ⟨rfl, (drawn.rest x held).2⟩
    · dsimp only at base
      rw [Function.update_self] at base
      cases base
      exact .inl ⟨rfl, drawn.source⟩
  · obtain ⟨next, last, held, bounds⟩ | ⟨n, b, base⟩ := reserved
    · exact .inr (.inl ⟨next, last, (drawn.others s same).symm.trans held, bounds⟩)
    · dsimp only at base
      rw [Function.update_of_ne same] at base
      exact .inr (.inr ⟨n, b, base⟩)

section Ranges

variable {base batchSize x : Int} {nWorkers : Nat} {r : Int × Int}

theorem mem_sidRanges :
    r ∈ sidRanges base nWorkers batchSize ↔
      ∃ i : Nat, i < nWorkers ∧ r = (base + i * batchSize, base + i * batchSize + batchSize) := by
  simp only [sidRanges, List.mem_map, List.mem_range, eq_comm]

/-- The slices tile the block that starts at the base. -/
theorem bounds_of_mem_sidRanges (batch : 0 ≤ batchSize)
    (hr : r ∈ sidRanges base nWorkers batchSize) (mem : x ∈ Set.Ico r.1 r.2) :
    base ≤ x ∧ x < base + nWorkers * batchSize := by
  obtain ⟨i, lt, rfl⟩ := mem_sidRanges.mp hr
  have lower := mem.1
  have upper := mem.2
  dsimp only at lower upper
  have start : 0 ≤ (i : Int) * batchSize := mul_nonneg (by omega) batch
  have last : ((i : Int) + 1) * batchSize ≤ nWorkers * batchSize :=
    mul_le_mul_of_nonneg_right (by omega) batch
  rw [add_one_mul] at last
  omega

theorem sidRanges_pairwise (batch : 0 ≤ batchSize) :
    (sidRanges base nWorkers batchSize).Pairwise fun r t =>
      Disjoint (Set.Ico r.1 r.2) (Set.Ico t.1 t.2) := by
  refine List.pairwise_map.mpr (List.pairwise_lt_range.imp ?_)
  intro i j lt
  refine Set.disjoint_left.mpr fun x before after => ?_
  have upper := before.2
  have lower := after.1
  dsimp only at upper lower
  have : ((i : Int) + 1) * batchSize ≤ j * batchSize :=
    mul_le_mul_of_nonneg_right (by omega) batch
  rw [add_one_mul] at this
  omega

end Ranges

/-- Giving up reserved values; those that remain lie below `blockStart`. -/
theorem Exclusive.release (inv : a.Exclusive) (issued : a'.issued = a.issued)
    (after : ∀ s x, a'.Reserved s x → a.Reserved s x) (nonempty : a'.seq.BlocksNonempty)
    (reserved_lt : ∀ s x, a'.Reserved s x → x < a'.seq.blockStart)
    (issued_lt : ∀ r ∈ a.issued, ∀ x ∈ Set.Ico r.1 r.2, x < a'.seq.blockStart) :
    a'.Exclusive := by
  refine ⟨?_, ?_, reserved_lt, ?_, ?_, nonempty⟩
  · unfold IssuedOnce
    rw [issued]
    exact inv.issuedOnce
  · rw [issued]
    exact issued_lt
  · rw [issued]
    intro s x h
    exact inv.reserved_issued s x (after s x h)
  · intro s t x hs ht
    exact inv.reserved_unique s t x (after s x hs) (after t x ht)

theorem blockStart_le (q : SharedSequence) : q.blockStart ≤ q.lastValue + 1 := by
  unfold SharedSequence.blockStart
  split <;> omega

/-- A session whose block is the newest has reserved everything from the base of its
pre-allocation on. -/
theorem lt_base_of_newest {value : Int} {nWorkers : Nat} {batchSize x : Int}
    (pending : a.pending session = some (value, nWorkers, batchSize))
    (newest : a.seq.cached session = Storage.Sequence.restOfBlock value a.seq.lastValue)
    (lt : x < a.seq.blockStart) (other : ¬ a.Reserved session x) : x < value := by
  by_contra le
  have upper := blockStart_le a.seq
  by_cases base : x = value
  · subst base
    exact other (.inr ⟨nWorkers, batchSize, pending⟩)
  · refine other (.inl ⟨value + 1, a.seq.lastValue, ?_, by omega, by omega⟩)
    rw [newest, Storage.Sequence.restOfBlock, if_pos (by omega)]

/-- The base of the session is no longer pending. -/
theorem reserved_of_cleared {seq : SharedSequence} {s : Session} {x : Int}
    (others : ∀ s, s ≠ session → seq.cached s = a.seq.cached s)
    (h : Reserved { a with seq := seq, pending := Function.update a.pending session none } s x) :
    (s = session ∧ seq.InBlock session x) ∨ (s ≠ session ∧ a.Reserved s x) := by
  by_cases same : s = session
  · subst same
    obtain held | ⟨n, b, base⟩ := h
    · exact .inl ⟨rfl, held⟩
    · dsimp only at base
      rw [Function.update_self] at base
      cases base
  · obtain ⟨next, last, held, bounds⟩ | ⟨n, b, base⟩ := h
    · exact .inr ⟨same, .inl ⟨next, last, (others s same).symm.trans held, bounds⟩⟩
    · dsimp only at base
      rw [Function.update_of_ne same] at base
      exact .inr ⟨same, .inr ⟨n, b, base⟩⟩

/-- The state between `setval` and the hand-out of the slices. -/
theorem Exclusive.setval (inv : a.Exclusive) {value : Int} {nWorkers : Nat} {batchSize : Int}
    (pending : a.pending session = some (value, nWorkers, batchSize))
    (newest : a.seq.cached session = Storage.Sequence.restOfBlock value a.seq.lastValue)
    {seq : SharedSequence} (start : value ≤ seq.blockStart)
    (cached : seq.cached = Function.update a.seq.cached session none) :
    Exclusive { a with seq := seq, pending := Function.update a.pending session none } ∧
      ∀ s x, Reserved { a with seq := seq, pending := Function.update a.pending session none } s x →
        s ≠ session ∧ a.Reserved s x := by
  have others (s : Session) (ne : s ≠ session) : seq.cached s = a.seq.cached s := by
    rw [cached, Function.update_of_ne ne]
  have after (s : Session) (x : Int)
      (h : Reserved { a with seq := seq, pending := Function.update a.pending session none } s x) :
      s ≠ session ∧ a.Reserved s x := by
    obtain ⟨-, next, last, held, -⟩ | other := reserved_of_cleared others h
    · rw [cached, Function.update_self] at held
      cases held
    · exact other
  refine ⟨inv.release rfl (fun s x h => (after s x h).2) ?_ ?_ ?_, after⟩
  · intro s next last held
    by_cases same : s = session
    · subst same
      dsimp only at held
      rw [cached, Function.update_self] at held
      cases held
    · exact inv.nonempty s next last ((others s same).symm.trans held)
  · intro s x h
    obtain ⟨ne, reserved⟩ := after s x h
    refine (lt_base_of_newest pending newest (inv.reserved_lt s x reserved) ?_).trans_le start
    intro own
    exact ne (inv.reserved_unique s session x reserved own)
  · intro r hr x mem
    refine (lt_base_of_newest pending newest (inv.issued_lt r hr x mem) ?_).trans_le start
    intro own
    exact inv.reserved_issued session x own r hr mem

theorem Exclusive.step_setval (inv : a.Exclusive) (newest : a.NewestBlock (.setval session))
    (h : a.step (.setval session) = some a') : a'.Exclusive := by
  simp only [step] at h
  split at h
  · cases h
  rename_i value nWorkers batchSize pending
  simp only [NewestBlock, pending] at newest
  obtain ⟨newest, batch⟩ := newest
  have total : 0 ≤ (nWorkers : Int) * batchSize := mul_nonneg (by omega) batch
  split at h
  · -- The new value is out of bounds; the base is lost and nothing else changes.
    cases h
    have after (s : Session) (x : Int)
        (h : Reserved { a with pending := Function.update a.pending session none } s x) :
        a.Reserved s x := by
      obtain ⟨rfl, held⟩ | ⟨-, reserved⟩ := reserved_of_cleared (fun _ _ => rfl) h
      · exact .inl held
      · exact reserved
    exact inv.release rfl after inv.nonempty (fun s x h => inv.reserved_lt s x (after s x h))
      inv.issued_lt
  · rename_i seq moved
    cases h
    unfold SharedSequence.setval at moved
    split at moved
    · cases moved
      have start : SharedSequence.blockStart
          { lastValue := value + nWorkers * batchSize - 1, isCalled := true,
            cached := Function.update a.seq.cached session none } =
          value + nWorkers * batchSize := by
        show value + nWorkers * batchSize - 1 + 1 = _
        omega
      have base : value + nWorkers * batchSize - 1 - nWorkers * batchSize + 1 = value := by omega
      rw [base]
      have reaches : value ≤ SharedSequence.blockStart
          { lastValue := value + nWorkers * batchSize - 1, isCalled := true,
            cached := Function.update a.seq.cached session none } := by omega
      obtain ⟨inv', after⟩ := inv.setval pending newest reaches rfl
      refine inv'.issue (sidRanges_pairwise batch) ?_
      intro r hr x mem
      have bounds := bounds_of_mem_sidRanges batch hr mem
      refine ⟨by rw [start]; exact bounds.2, ?_, ?_⟩
      · intro s reserved
        obtain ⟨ne, reserved⟩ := after s x reserved
        have := lt_base_of_newest pending newest (inv.reserved_lt s x reserved) fun own =>
          ne (inv.reserved_unique s session x reserved own)
        omega
      · intro t ht mem
        have := lt_base_of_newest pending newest (inv.issued_lt t ht x mem) fun own =>
          inv.reserved_issued session x own t ht mem
        omega
    · cases moved

theorem Exclusive.step (inv : a.Exclusive) {e : AllocationEvent} (newest : a.NewestBlock e)
    (h : a.step e = some a') : a'.Exclusive := by
  cases e with
  | nextval session => exact inv.step_nextval h
  | preallocate session nWorkers batchSize => exact inv.step_preallocate h
  | setval session => exact inv.step_setval newest h

/-- If every `setval` comes while the block of its base is the newest, no statement id is
handed out twice, whether as a single value or as part of a worker's slice. -/
theorem sids_issuedOnce {es : List AllocationEvent}
    (newest : Run.Along step NewestBlock initial es) (run : Run.exec step initial es = some a) :
    a.IssuedOnce :=
  (Run.exec_invariant (fun _ _ _ inv guard stepped => Exclusive.step inv guard stepped)
    exclusive_initial newest run).issuedOnce

/-- Two sessions draw ids, the second one pre-allocates for two workers right after it
took a block, and both go on. -/
theorem sids_issuedOnce_twoWorkers :
    ∃ a, Run.exec step initial
        [.nextval 0, .nextval 1, .preallocate 1 2 100, .setval 1, .nextval 0, .nextval 1] = some a ∧
      (66, 166) ∈ a.issued ∧ (2, 3) ∈ a.issued ∧ (266, 267) ∈ a.issued ∧ a.IssuedOnce := by
  obtain ⟨a, run, issued⟩ : ∃ a, Run.exec step initial
      [.nextval 0, .nextval 1, .preallocate 1 2 100, .setval 1, .nextval 0, .nextval 1] = some a ∧
      a.issued = [(266, 267), (2, 3), (66, 166), (166, 266), (65, 66), (1, 2)] :=
    ⟨_, rfl, by decide⟩
  refine ⟨a, run, ?_, ?_, ?_, sids_issuedOnce (by decide) run⟩ <;> simp [issued]

/-- The first session pre-allocates out of a block it took before the second session took
one: the slice of its first worker contains the id that the second session was given. -/
theorem not_sids_issuedOnce :
    ¬ ∀ (es : List AllocationEvent) (a : Allocation),
      Run.exec step initial es = some a → a.IssuedOnce := by
  intro once
  obtain ⟨a, run, issued⟩ : ∃ a, Run.exec step initial
      [.nextval 0, .nextval 1, .preallocate 0 2 100, .setval 0] = some a ∧
      a.issued = [(2, 102), (102, 202), (65, 66), (1, 2)] :=
    ⟨_, rfl, by decide⟩
  have pairwise := once _ a run
  rw [IssuedOnce, issued] at pairwise
  have disjoint := (List.pairwise_cons.mp pairwise).1 (65, 66) (by simp)
  have inSlice : (65 : Int) ∈ Set.Ico 2 102 := ⟨by decide, by decide⟩
  exact Set.disjoint_left.mp disjoint inSlice ⟨by decide, by decide⟩

end Allocation

end PgRipple.Datalog
