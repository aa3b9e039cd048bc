import PgRipple.Lib.Run
import PgRipple.Lib.Versioned

/-!
# The reconciliation queue

Operators pull diverged events from `reconciliation_queue` and resolve them. Sessions work in
transactions of their own, in PostgreSQL's default isolation: every statement sees what is
committed and what its own transaction wrote, a written row stays locked until the end of the
transaction, and `now()` is the time at which the transaction began. `reconciliation_resolve`
runs two statements that other sessions can come between.

`reconciliation_next` writes a lease and does not read it, and it orders items by `enqueued_at`,
which is the time at which the transaction of the enqueue began. `reconciliation_resolve` acts on
the requested action whether or not its update found the item unresolved. In runs that avoid
these situations, and in which no dead letter of another item is in the way, the queue does what
it should.
-/

namespace PgRipple.Bidi

/-- Microseconds. -/
abbrev Time := Int

abbrev Uuid := Nat

/-- A database session. -/
abbrev Worker := Nat

/-- The actions of `reconciliation_resolve`. -/
inductive Resolution
  | acceptExternal
  | forceInternal
  | mergeViaOwlSameAs
  | deadLetter
  deriving DecidableEq, Repr

/-- The check of the action's name. -/
def Resolution.parse (action : String) : Option Resolution :=
  match action with
  | "accept_external" => some .acceptExternal
  | "force_internal" => some .forceInternal
  | "merge_via_owl_sameAs" => some .mergeViaOwlSameAs
  | "dead_letter" => some .deadLetter
  | _ => none

/-- The columns of `reconciliation_queue` other than the key. -/
structure Item where
  eventId : Uuid
  subscriptionName : String
  enqueuedAt : Time
  divergenceSummary : String
  leasedUntil : Option Time
  leasedBy : Option String
  resolvedAt : Option Time
  resolution : Option Resolution
  resolvedBy : Option String
  resolutionNote : Option String
  /-- Not a column: the session whose lease it is. Sessions can share the name `leased_by`. -/
  holder : Option Worker
  deriving DecidableEq, Repr

/-- A row of `event_dead_letters` of the outbox `reconciliation`, without the key. -/
structure DeadLetter where
  emittedAt : Time
  reason : String
  extra : String
  /-- Not a column: the item whose resolution wrote the row. -/
  origin : Nat
  deriving DecidableEq, Repr

/-- Where a session stands. -/
inductive Session
  | idle
  | active (now : Time)
  /-- `reconciliation_resolve` with `dead_letter`, between its update and its insert. -/
  | resolving (now : Time) (id : Nat)
  deriving DecidableEq, Repr

/-- The database. Items are found by `reconciliation_id`, dead letters by subscription and
event. -/
structure Server where
  clock : Time
  sessions : Worker → Session
  nextId : Nat
  items : Nat → Versioned Worker Item
  deadLetters : String × Uuid → Versioned Worker DeadLetter

namespace Item

/-- The key of the item's dead letter. -/
def key (item : Item) : String × Uuid := (item.subscriptionName, item.eventId)

/-- The row that `reconciliation_enqueue` inserts. -/
def enqueued (eventId : Uuid) (subName : String) (now : Time) (summary : String) : Item :=
  ⟨eventId, subName, now, summary, none, none, none, none, none, none, none⟩

/-- `leased_until = now() + interval '10 minutes', leased_by = session_user`. -/
def lease (item : Item) (w : Worker) (sessionUser : String) (now : Time) : Item :=
  { item with
    leasedUntil := some (now + 600000000), leasedBy := some sessionUser, holder := some w }

/-- The update of `reconciliation_resolve`. -/
def resolve (item : Item) (action : Resolution) (sessionUser : String) (note : Option String)
    (now : Time) : Item :=
  { item with
    resolvedAt := some now, resolution := some action, resolvedBy := some sessionUser,
    resolutionNote := note }

@[simp] theorem lease_resolvedAt (item : Item) (w : Worker) (user : String) (now : Time) :
    (item.lease w user now).resolvedAt = item.resolvedAt := rfl

@[simp] theorem lease_resolution (item : Item) (w : Worker) (user : String) (now : Time) :
    (item.lease w user now).resolution = item.resolution := rfl

@[simp] theorem resolve_resolvedAt (item : Item) (action : Resolution) (user : String)
    (note : Option String) (now : Time) :
    (item.resolve action user note now).resolvedAt = some now := rfl

@[simp] theorem resolve_resolution (item : Item) (action : Resolution) (user : String)
    (note : Option String) (now : Time) :
    (item.resolve action user note now).resolution = some action := rfl

end Item

namespace Server

/-- An empty queue. -/
def initial : Server where
  clock := 0
  sessions _ := .idle
  nextId := 1
  items _ := .absent
  deadLetters _ := .absent

/-- `now()` in a session that can run a statement. -/
def now (s : Server) (w : Worker) : Option Time :=
  match s.sessions w with
  | .active now => some now
  | _ => none

def setSession (s : Server) (w : Worker) (state : Session) : Server :=
  { s with sessions := Function.update s.sessions w state }

def writeItem (s : Server) (w : Worker) (id : Nat) (item : Item) : Server :=
  { s with items := Function.update s.items id ((s.items id).write w item) }

def writeDeadLetter (s : Server) (w : Worker) (key : String × Uuid) (letter : DeadLetter) :
    Server :=
  { s with deadLetters := Function.update s.deadLetters key ((s.deadLetters key).write w letter) }

/-- `reconciliation_enqueue_impl`; `linkback` is the subscription that `pending_linkbacks` has for
the event. -/
def reconciliationEnqueue (s : Server) (w : Worker) (eventId : Uuid) (linkback : Option String)
    (summary : String) : Option Server :=
  (s.now w).map fun now =>
    { s.writeItem w s.nextId (.enqueued eventId (linkback.getD "unknown") now summary) with
      nextId := s.nextId + 1 }

/-- The version of a row that the inner query of `reconciliation_next_impl` can return: unresolved,
and skipped if another session has it locked. -/
def candidate (s : Server) (w : Worker) (subscriptionName : String) (id : Nat) : Option Item :=
  if (s.items id).locked w then none
  else ((s.items id).seen w).filter fun item =>
    item.subscriptionName = subscriptionName ∧ item.resolvedAt = none

/-- The item comes first in `ORDER BY enqueued_at`; the order does not break ties. -/
def First (s : Server) (w : Worker) (subscriptionName : String) (item : Item) : Prop :=
  ∀ id < s.nextId, ∀ other ∈ s.candidate w subscriptionName id, item.enqueuedAt ≤ other.enqueuedAt

instance (s : Server) (w : Worker) (subscriptionName : String) (item : Item) :
    Decidable (s.First w subscriptionName item) :=
  inferInstanceAs (Decidable (∀ id < s.nextId, ∀ other ∈ s.candidate w subscriptionName id, _))

/-- `reconciliation_next_impl`, with the id that it returns; refused if it does not return this
one. -/
def reconciliationNext (s : Server) (w : Worker) (sessionUser subscriptionName : String) :
    Option Nat → Option Server
  | some id =>
    (s.now w).bind fun now =>
      (s.candidate w subscriptionName id).bind fun item =>
        if id < s.nextId ∧ s.First w subscriptionName item then
          some (s.writeItem w id (item.lease w sessionUser now))
        else none
  | none =>
    (s.now w).bind fun _ =>
      if ∀ id < s.nextId, s.candidate w subscriptionName id = none then some s else none

/-- All that an error or a rollback leaves. -/
def rollback (s : Server) (w : Worker) : Server :=
  { s with
    sessions := Function.update s.sessions w .idle
    items := fun id => (s.items id).rollback w
    deadLetters := fun key => (s.deadLetters key).rollback w }

def commit (s : Server) (w : Worker) : Server :=
  { s with
    sessions := Function.update s.sessions w .idle
    items := fun id => (s.items id).commit w
    deadLetters := fun key => (s.deadLetters key).commit w }

/-- The update of `reconciliation_resolve_impl`. It touches an unresolved item only, and waits for
an item that another session has locked. -/
def resolveItem (s : Server) (w : Worker) (sessionUser : String) (now : Time) (id : Nat)
    (action : Resolution) (note : Option String) : Option Server :=
  match (s.items id).seen w with
  | none => some s
  | some item =>
    if item.resolvedAt = none then
      if (s.items id).locked w then none
      else some (s.writeItem w id (item.resolve action sessionUser note now))
    else some s

/-- `reconciliation_resolve_impl` up to its insert. An unknown action is an error. -/
def reconciliationResolve (s : Server) (w : Worker) (sessionUser : String) (id : Nat)
    (action : String)
    (note : Option String) : Option Server :=
  (s.now w).bind fun now =>
    match Resolution.parse action with
    | none => some (s.rollback w)
    | some action =>
      (s.resolveItem w sessionUser now id action note).map fun s' =>
        if action = .deadLetter then s'.setSession w (.resolving now id) else s'

/-- The insert of `reconciliation_resolve_impl`, `ON CONFLICT DO NOTHING`. It waits for a session
that is inserting the same key. -/
def insertDeadLetter (s : Server) (w : Worker) : Option Server :=
  match s.sessions w with
  | .resolving now id =>
    match (s.items id).seen w with
    | none => some (s.setSession w (.active now))
    | some item =>
      if (s.deadLetters item.key).locked w then none
      else if ((s.deadLetters item.key).seen w).isSome then some (s.setSession w (.active now))
      else
        some ((s.writeDeadLetter w item.key
          ⟨now, "reconciliation_dead_letter", item.divergenceSummary, id⟩).setSession w
            (.active now))
  | _ => none

/-- What can happen next. -/
inductive Event
  | tick (passed : Nat)
  | begin (w : Worker)
  | enqueue (w : Worker) (eventId : Uuid) (linkback : Option String) (summary : String)
  | next (w : Worker) (subscriptionName : String) (answer : Option Nat)
  | resolve (w : Worker) (id : Nat) (action : String) (note : Option String)
  | insertDeadLetter (w : Worker)
  | commit (w : Worker)
  | rollback (w : Worker)
  deriving DecidableEq, Repr

/-- One step; `none` if the session cannot make it, or has to wait. `user` gives the
`session_user` of each session. -/
def step (user : Worker → String) (s : Server) : Event → Option Server
  | .tick passed => some { s with clock := s.clock + passed }
  | .begin w => if s.sessions w = .idle then some (s.setSession w (.active s.clock)) else none
  | .enqueue w eventId linkback summary => s.reconciliationEnqueue w eventId linkback summary
  | .next w subscriptionName answer => s.reconciliationNext w (user w) subscriptionName answer
  | .resolve w id action note => s.reconciliationResolve w (user w) id action note
  | .insertDeadLetter w => s.insertDeadLetter w
  | .commit w => (s.now w).map fun _ => s.commit w
  | .rollback w => some (s.rollback w)

/-- An unexpired lease of another session. -/
def LeasedToOther (s : Server) (w : Worker) (item : Item) : Prop :=
  (∃ t ∈ item.leasedUntil, s.clock < t) ∧ item.holder ≠ some w

/-- An item that is handed out is unresolved and not leased to another session, and each item
that was enqueued by an earlier call is out of reach of the session. Ids are given in the order of
the calls. -/
def HandsOutFairly (s : Server) : Event → Prop
  | .next w subscriptionName (some id) =>
    ∃ item ∈ s.candidate w subscriptionName id, ¬ s.LeasedToOther w item ∧
      ∀ id' < id, ∀ other ∈ s.candidate w subscriptionName id', s.LeasedToOther w other
  | _ => True

/-- The event undoes the transaction of the session. -/
def Event.Undoes (w : Worker) : Event → Prop
  | .rollback w' => w' = w
  | .resolve w' _ action _ => w' = w ∧ Resolution.parse action = none
  | _ => False

/-- A resolved item stays as it is: for good if it is committed, else for the rest of the
transaction. -/
def ResolvesOnce (s : Server) (e : Event) (s' : Server) : Prop :=
  ∀ id item, item.resolvedAt ≠ none →
    ((s.items id).committed = some item → (s'.items id).committed = some item) ∧
      ∀ w, (s.items id).pending = some (w, item) → ¬ e.Undoes w →
        (s'.items id).pending = some (w, item) ∨ (s'.items id).committed = some item

/-- There is a dead letter of a committed item just if the item is recorded as a dead
letter. -/
def DeadLettersMatch (s : Server) : Prop :=
  ∀ id item, (s.items id).committed = some item →
    ((∃ key letter, (s.deadLetters key).committed = some letter ∧ letter.origin = id) ↔
      item.resolution = some .deadLetter)

/-- All of it, for one step. -/
def Orderly (user : Worker → String) (s : Server) (e : Event) : Prop :=
  ∀ s', step user s e = some s' →
    s.HandsOutFairly e ∧ s.ResolvesOnce e s' ∧ s'.DeadLettersMatch

/-- The code does not notice a lease or a resolution that is in its way, and it takes the time of
the transaction for that of the call. Calls are careful if this does no harm: the open items of a
subscription are from transactions that began before the one that enqueues another, the oldest
open items are not leased to another session when an item is asked for, and an item is made a dead
letter only if the session sees it open, or as a dead letter already, and no other item of the
same subscription and event is one, or becomes one in an open transaction. -/
def Careful (s : Server) : Event → Prop
  | .enqueue w _ linkback _ =>
    ∀ now ∈ s.now w, ∀ id < s.nextId, ∀ item ∈ (s.items id).versions, item.resolvedAt = none →
      item.subscriptionName = linkback.getD "unknown" → item.enqueuedAt < now
  | .next w subscriptionName _ =>
    ∀ id < s.nextId, ∀ item ∈ s.candidate w subscriptionName id, s.First w subscriptionName item →
      ¬ s.LeasedToOther w item
  | .resolve w id action _ =>
    Resolution.parse action = some .deadLetter →
      ∃ item ∈ (s.items id).seen w,
        (item.resolvedAt = none ∨ item.resolution = some .deadLetter) ∧
        ∀ id' < s.nextId, id' ≠ id → ∀ other ∈ (s.items id').versions, other.key = item.key →
          other.resolution ≠ some .deadLetter
  | _ => True

/-- Items and dead letters agree, also in open transactions. -/
structure Consistent (s : Server) : Prop where
  fresh : ∀ id, s.nextId ≤ id → s.items id = .absent
  recorded : ∀ id, ∀ item ∈ (s.items id).versions, item.resolution ≠ none → item.resolvedAt ≠ none
  settled : ∀ id item, (s.items id).committed = some item → item.resolvedAt ≠ none →
    (s.items id).pending = none
  lettered : ∀ id item, (s.items id).committed = some item → item.resolution = some .deadLetter →
    ∃ letter, (s.deadLetters item.key).committed = some letter ∧ letter.origin = id
  origin : ∀ key letter, (s.deadLetters key).committed = some letter →
    (s.deadLetters key).pending = none ∧
      ∃ item, (s.items letter.origin).committed = some item ∧
        item.resolution = some .deadLetter ∧ item.key = key
  pendingLettered : ∀ id w item, (s.items id).pending = some (w, item) →
    item.resolution = some .deadLetter →
      (∃ now, s.sessions w = .resolving now id) ∨
        ∃ letter, (s.deadLetters item.key).pending = some (w, letter) ∧ letter.origin = id
  pendingOrigin : ∀ key w letter, (s.deadLetters key).pending = some (w, letter) →
    ∃ item, (s.items letter.origin).pending = some (w, item) ∧
      item.resolution = some .deadLetter ∧ item.key = key
  resolving : ∀ w now id, s.sessions w = .resolving now id →
    ∃ item, (s.items id).seen w = some item ∧ item.resolution = some .deadLetter
  unique : ∀ id id', ∀ item ∈ (s.items id).versions, ∀ item' ∈ (s.items id').versions,
    item.resolution = some .deadLetter → item'.resolution = some .deadLetter →
      item.key = item'.key → id = id'

/-- The open items of a subscription are in the order of their ids. -/
def InOrder (s : Server) : Prop :=
  ∀ id id', id < id' → ∀ item ∈ (s.items id).versions, ∀ item' ∈ (s.items id').versions,
    item.resolvedAt = none → item'.resolvedAt = none →
      item.subscriptionName = item'.subscriptionName → item.enqueuedAt < item'.enqueuedAt

variable {s s' : Server} {user : Worker → String} {w : Worker} {id : Nat} {item : Item}

theorem consistent_initial : initial.Consistent where
  fresh _ _ := rfl
  recorded _ _ h := absurd h List.not_mem_nil
  settled _ _ h := nomatch h
  lettered _ _ h := nomatch h
  origin _ _ h := nomatch h
  pendingLettered _ _ _ h := nomatch h
  pendingOrigin _ _ _ h := nomatch h
  resolving _ _ _ h := nomatch h
  unique _ _ _ h := absurd h List.not_mem_nil

theorem Consistent.deadLettersMatch (h : s.Consistent) : s.DeadLettersMatch := by
  intro id item committed
  constructor
  · rintro ⟨key, letter, written, rfl⟩
    obtain ⟨-, item', committed', resolution, -⟩ := h.origin key letter written
    rw [committed] at committed'
    cases committed'
    exact resolution
  · intro resolution
    obtain ⟨letter, written, origin⟩ := h.lettered id item committed resolution
    exact ⟨item.key, letter, written, origin⟩

/-- A row that the session sees is in use. -/
theorem Consistent.lt_nextId (h : s.Consistent) (sees : (s.items id).seen w = some item) :
    id < s.nextId := by
  refine Nat.lt_of_not_le fun le => ?_
  rw [h.fresh id le] at sees
  cases sees

/-- The session has the newest version of an item, and this version is not resolved. -/
structure Open (s : Server) (w : Worker) (id : Nat) : Prop where
  free : (s.items id).locked w = false
  unresolved : ∀ item, (s.items id).seen w = some item → item.resolvedAt = none

/-- No version of an open item is resolved. -/
theorem Open.versions (isOpen : s.Open w id) (h : s.Consistent)
    (mem : item ∈ (s.items id).versions) :
    item.resolvedAt = none := by
  by_contra resolved
  obtain committed | ⟨w', pending⟩ := Versioned.mem_versions.mp mem
  · have idle := h.settled id item committed resolved
    have sees : (s.items id).seen w = some item :=
      (Versioned.seen_of_ne (by simp [idle])).trans committed
    exact resolved (isOpen.unresolved item sees)
  · obtain ⟨idle, -⟩ | ⟨own, pending', sees⟩ := Versioned.free_cases isOpen.free
    · rw [idle] at pending
      cases pending
    · rw [pending'] at pending
      cases pending
      exact resolved (isOpen.unresolved item sees)

/-- So none of them is a dead letter. -/
theorem Open.not_deadLetter (isOpen : s.Open w id) (h : s.Consistent)
    (mem : item ∈ (s.items id).versions) : item.resolution ≠ some .deadLetter := by
  intro resolution
  refine h.recorded id item mem ?_ (isOpen.versions h mem)
  rw [resolution]
  exact Option.some_ne_none _

/-- The new version of an item, and what the session does next, fit together. -/
inductive Writes (s : Server) (w : Worker) (id : Nat) (item : Item) (state : Session) : Prop
  | plain (resolution : item.resolution ≠ some .deadLetter) (active : ∃ now, state = .active now)
  | letter (resolution : item.resolution = some .deadLetter)
      (active : ∃ now, state = .resolving now id)
    (unique : ∀ id', id' ≠ id → ∀ other ∈ (s.items id').versions, other.key = item.key →
      other.resolution ≠ some .deadLetter)

/-- Writing a version of an open item. The number of items can grow at the same time. -/
theorem Consistent.write (h : s.Consistent) {n : Nat} {state : Session} (now : s.now w ≠ none)
    (bound : s.nextId ≤ n) (inside : id < n) (isOpen : s.Open w id)
    (recorded : item.resolution ≠ none → item.resolvedAt ≠ none)
    (writes : s.Writes w id item state) :
    Consistent { (s.writeItem w id item).setSession w state with nextId := n } := by
  let t : Server := { (s.writeItem w id item).setSession w state with nextId := n }
  have here : t.items id = (s.items id).write w item := Function.update_self _ _ _
  have there {id'} (ne : id' ≠ id) : t.items id' = s.items id' := Function.update_of_ne ne _ _
  have session : t.sessions w = state := Function.update_self _ _ _
  have sessions {w'} (ne : w' ≠ w) : t.sessions w' = s.sessions w' := Function.update_of_ne ne _ _
  have busy {w' now id'} (resolving : s.sessions w' = .resolving now id') : w' ≠ w := by
    rintro rfl
    exact now (by simp only [Server.now, resolving])
  have mem_here {x} (mem : x ∈ (t.items id).versions) : x = item ∨ x ∈ (s.items id).versions := by
    rw [here] at mem
    obtain committed | ⟨w', pending⟩ := Versioned.mem_versions.mp mem
    · exact .inr (Versioned.mem_versions.mpr (.inl committed))
    · cases pending
      exact .inl rfl
  -- whatever is a dead letter is another item
  have other {id' x} (mem : x ∈ (s.items id').versions)
      (resolution : x.resolution = some .deadLetter) :
      id' ≠ id := by
    rintro rfl
    exact isOpen.not_deadLetter h mem resolution
  show Consistent t
  refine ⟨?_, ?_, ?_, ?_, ?_, ?_, ?_, ?_, ?_⟩
  · intro id' (le : n ≤ id')
    rw [there (by omega)]
    exact h.fresh id' (by omega)
  · intro id' x mem
    by_cases eq : id' = id
    · subst eq
      obtain rfl | mem := mem_here mem
      · exact recorded
      · exact h.recorded id' x mem
    · rw [there eq] at mem
      exact h.recorded id' x mem
  · intro id' x committed resolved
    by_cases eq : id' = id
    · subst eq
      rw [here] at committed
      exact absurd (isOpen.versions h (Versioned.mem_versions.mpr (.inl committed))) resolved
    · rw [there eq] at committed ⊢
      exact h.settled id' x committed resolved
  · intro id' x committed resolution
    by_cases eq : id' = id
    · subst eq
      rw [here] at committed
      exact absurd rfl (other (Versioned.mem_versions.mpr (.inl committed)) resolution)
    · rw [there eq] at committed
      exact h.lettered id' x committed resolution
  · intro key letter written
    obtain ⟨idle, x, committed, resolution, same⟩ := h.origin key letter written
    have ne := other (Versioned.mem_versions.mpr (.inl committed)) resolution
    exact ⟨idle, x, by rw [there ne]; exact committed, resolution, same⟩
  · intro id' w' x pending resolution
    by_cases eq : id' = id
    · subst eq
      rw [here] at pending
      cases pending
      cases writes with
      | plain not _ => exact absurd resolution not
      | letter _ active _ =>
        obtain ⟨t', rfl⟩ := active
        exact .inl ⟨t', session⟩
    · rw [there eq] at pending
      refine (h.pendingLettered id' w' x pending resolution).imp_left ?_
      rintro ⟨t', resolving⟩
      exact ⟨t', (sessions (busy resolving)).trans resolving⟩
  · intro key w' letter pending
    obtain ⟨x, written, resolution, same⟩ := h.pendingOrigin key w' letter pending
    have ne := other (Versioned.mem_versions.mpr (.inr ⟨w', written⟩)) resolution
    exact ⟨x, by rw [there ne]; exact written, resolution, same⟩
  · intro w' t' id' resolving
    by_cases eq : w' = w
    · subst eq
      rw [session] at resolving
      cases writes with
      | plain _ active =>
        obtain ⟨_, rfl⟩ := active
        cases resolving
      | letter resolution active _ =>
        obtain ⟨_, rfl⟩ := active
        cases resolving
        exact ⟨item, by rw [here]; exact Versioned.seen_of_pending rfl, resolution⟩
    · rw [sessions eq] at resolving
      obtain ⟨x, sees, resolution⟩ := h.resolving w' t' id' resolving
      have ne := other (Versioned.mem_versions_of_seen sees) resolution
      exact ⟨x, by rw [there ne]; exact sees, resolution⟩
  · -- the written version is the only new one
    have fresh {id' x} (mem : x ∈ (t.items id').versions)
        (resolution : x.resolution = some .deadLetter) :
        (id' = id ∧ x = item) ∨ id' ≠ id ∧ x ∈ (s.items id').versions := by
      by_cases eq : id' = id
      · subst eq
        obtain rfl | mem := mem_here mem
        · exact .inl ⟨rfl, rfl⟩
        · exact absurd rfl (other mem resolution)
      · rw [there eq] at mem
        exact .inr ⟨eq, mem⟩
    have apart {id' x} (ne : id' ≠ id) (mem : x ∈ (s.items id').versions)
        (resolution : item.resolution = some .deadLetter) (key : x.key = item.key) :
        x.resolution ≠ some .deadLetter := by
      cases writes with
      | plain not _ => exact absurd resolution not
      | letter _ _ unique => exact unique id' ne x mem key
    intro id₁ id₂ x₁ mem₁ x₂ mem₂ letter₁ letter₂ key
    obtain ⟨rfl, rfl⟩ | ⟨ne₁, old₁⟩ := fresh mem₁ letter₁
    · obtain ⟨rfl, rfl⟩ | ⟨ne₂, old₂⟩ := fresh mem₂ letter₂
      · rfl
      · exact absurd letter₂ (apart ne₂ old₂ letter₁ key.symm)
    · obtain ⟨rfl, rfl⟩ | ⟨ne₂, old₂⟩ := fresh mem₂ letter₂
      · exact absurd letter₁ (apart ne₁ old₁ letter₂ key)
      · exact h.unique id₁ id₂ x₁ old₁ x₂ old₂ letter₁ letter₂ key

/-- A session goes on to the next call if its dead letter is written. -/
theorem Consistent.setActive (h : s.Consistent) {t : Time}
    (done : ∀ now id item, s.sessions w = .resolving now id →
      (s.items id).pending = some (w, item) → item.resolution = some .deadLetter →
        ∃ letter, (s.deadLetters item.key).pending = some (w, letter) ∧ letter.origin = id) :
    (s.setSession w (.active t)).Consistent where
  fresh := h.fresh
  recorded := h.recorded
  settled := h.settled
  lettered := h.lettered
  origin := h.origin
  pendingOrigin := h.pendingOrigin
  unique := h.unique
  pendingLettered := by
    intro id w' item pending resolution
    obtain ⟨now, resolving⟩ | written := h.pendingLettered id w' item pending resolution
    · by_cases eq : w' = w
      · subst eq
        exact .inr (done now id item resolving pending resolution)
      · exact .inl ⟨now, (Function.update_of_ne eq _ _).trans resolving⟩
    · exact .inr written
  resolving := by
    intro w' now id resolving
    by_cases eq : w' = w
    · subst eq
      have active : (s.setSession w' (.active t)).sessions w' = .active t :=
        Function.update_self _ _ _
      rw [active] at resolving
      cases resolving
    · exact h.resolving w' now id ((Function.update_of_ne eq _ _).symm.trans resolving)

/-- The dead letters with the key of a dead-lettered item are its own. -/
theorem Consistent.origin_eq (h : s.Consistent) {letter : DeadLetter}
    (mem : item ∈ (s.items id).versions) (resolution : item.resolution = some .deadLetter)
    (written : letter ∈ (s.deadLetters item.key).versions) : letter.origin = id := by
  obtain committed | ⟨w', pending⟩ := Versioned.mem_versions.mp written
  · obtain ⟨-, other, isCommitted, resolution', key⟩ := h.origin _ letter committed
    exact h.unique _ _ other (Versioned.mem_versions.mpr (.inl isCommitted)) item mem resolution'
      resolution key
  · obtain ⟨other, isPending, resolution', key⟩ := h.pendingOrigin _ w' letter pending
    exact h.unique _ _ other (Versioned.mem_versions.mpr (.inr ⟨w', isPending⟩)) item mem
      resolution'
      resolution key

/-- While a letter is missing, the item's resolution is not committed. -/
theorem Consistent.pending_of_missing (h : s.Consistent) (sees : (s.items id).seen w = some item)
    (resolution : item.resolution = some .deadLetter)
    (missing : (s.deadLetters item.key).seen w = none) :
    (s.items id).pending = some (w, item) := by
  obtain ⟨own, pending, sees'⟩ | ⟨-, same⟩ := (s.items id).seen_cases w
  · rw [sees'] at sees
    cases sees
    exact pending
  · obtain ⟨letter, committed, -⟩ := h.lettered id item (same.symm.trans sees) resolution
    have idle := (h.origin _ letter committed).1
    have seesLetter : (s.deadLetters item.key).seen w = some letter :=
      (Versioned.seen_of_ne (by simp [idle])).trans committed
    rw [missing] at seesLetter
    cases seesLetter

theorem Consistent.writeDeadLetter (h : s.Consistent) {letter : DeadLetter}
    (pending : (s.items id).pending = some (w, item))
    (resolution : item.resolution = some .deadLetter)
    (free : (s.deadLetters item.key).locked w = false)
    (missing : (s.deadLetters item.key).seen w = none) (origin : letter.origin = id) :
    (s.writeDeadLetter w item.key letter).Consistent := by
  let t := s.writeDeadLetter w item.key letter
  have here : t.deadLetters item.key = (s.deadLetters item.key).write w letter :=
    Function.update_self _ _ _
  have there {key} (ne : key ≠ item.key) : t.deadLetters key = s.deadLetters key :=
    Function.update_of_ne ne _ _
  obtain ⟨idle, same⟩ | ⟨own, -, sees⟩ := Versioned.free_cases free
  · have none : (s.deadLetters item.key).committed = none := same.symm.trans missing
    show Consistent t
    refine ⟨h.fresh, h.recorded, h.settled, ?_, ?_, ?_, ?_, h.resolving, h.unique⟩
    · intro id' x committed resolution'
      obtain ⟨letter', written, origin'⟩ := h.lettered id' x committed resolution'
      by_cases eq : x.key = item.key
      · rw [eq, none] at written
        cases written
      · exact ⟨letter', by rw [there eq]; exact written, origin'⟩
    · intro key letter' written
      by_cases eq : key = item.key
      · rw [eq, here] at written
        rw [Versioned.write_committed, none] at written
        cases written
      · rw [there eq] at written ⊢
        exact h.origin key letter' written
    · intro id' w' x pending' resolution'
      refine (h.pendingLettered id' w' x pending' resolution').imp_right ?_
      rintro ⟨letter', written, origin'⟩
      by_cases eq : x.key = item.key
      · rw [eq, idle] at written
        cases written
      · exact ⟨letter', by rw [there eq]; exact written, origin'⟩
    · intro key w' letter' written
      by_cases eq : key = item.key
      · rw [eq, here] at written
        cases written
        exact ⟨item, by rw [origin]; exact pending, resolution, eq.symm⟩
      · rw [there eq] at written
        exact h.pendingOrigin key w' letter' written
  · rw [missing] at sees
    cases sees

theorem Consistent.insertDeadLetter (h : s.Consistent) (done : s.insertDeadLetter w = some s') :
    s'.Consistent := by
  unfold Server.insertDeadLetter at done
  split at done
  · rename_i now id session
    obtain ⟨item, sees, resolution⟩ := h.resolving w now id session
    have mem := Versioned.mem_versions_of_seen sees
    simp only [sees] at done
    split at done
    · cases done
    · rename_i unlocked
      have free : (s.deadLetters item.key).locked w = false := by simpa using unlocked
      split at done
      · rename_i present
        cases done
        refine h.setActive fun now' id' item' session' pending' resolution' => ?_
        rw [session] at session'
        cases session'
        rw [Versioned.seen_of_pending pending'] at sees
        cases sees
        obtain ⟨letter, seesLetter⟩ := Option.isSome_iff_exists.mp present
        have origin := h.origin_eq mem resolution (Versioned.mem_versions_of_seen seesLetter)
        obtain ⟨own, written, same⟩ | ⟨-, same⟩ := (s.deadLetters item.key).seen_cases w
        · rw [same] at seesLetter
          cases seesLetter
          exact ⟨_, written, origin⟩
        · -- a committed letter belongs to a committed resolution
          obtain ⟨-, item', committed, resolution'', -⟩ :=
            h.origin _ letter (same.symm.trans seesLetter)
          rw [origin] at committed
          have resolved := h.recorded id item' (Versioned.mem_versions.mpr (.inl committed))
            (by rw [resolution'']; exact Option.some_ne_none _)
          rw [h.settled id item' committed resolved] at pending'
          cases pending'
      · rename_i absent
        have missing : (s.deadLetters item.key).seen w = none := by simpa using absent
        cases done
        have pending := h.pending_of_missing sees resolution missing
        refine (h.writeDeadLetter pending resolution free missing rfl).setActive ?_
        intro now' id' item' session' pending' resolution'
        have session'' : s.sessions w = .resolving now' id' := session'
        rw [session] at session''
        cases session''
        have same : (s.items id).pending = some (w, item') := pending'
        rw [pending] at same
        cases same
        refine ⟨⟨now, "reconciliation_dead_letter", item.divergenceSummary, id⟩, ?_, rfl⟩
        simp only [Server.writeDeadLetter, Function.update_self, Versioned.write_pending]
  · cases done

theorem items_insertDeadLetter (done : s.insertDeadLetter w = some s') : s'.items = s.items := by
  unfold Server.insertDeadLetter at done
  split at done
  · split at done
    · cases done
      rfl
    · split at done
      · cases done
      · split at done
        · cases done
          rfl
        · cases done
          rfl
  · cases done

/-- A commit makes the items and dead letters of the session visible together. -/
theorem Consistent.commit (h : s.Consistent) (active : s.now w ≠ none) :
    (s.commit w).Consistent := by
  have busy {w' now id'} (resolving : s.sessions w' = .resolving now id') : w' ≠ w := by
    rintro rfl
    exact active (by simp only [Server.now, resolving])
  have sessions {w'} (ne : w' ≠ w) : (s.commit w).sessions w' = s.sessions w' :=
    Function.update_of_ne ne _ _
  have unchanged {id item} (committed : (s.items id).committed = some item)
      (resolution : item.resolution = some .deadLetter) : (s.items id).commit w = s.items id := by
    have resolved := h.recorded id item (Versioned.mem_versions.mpr (.inl committed))
      (by rw [resolution]; exact Option.some_ne_none _)
    exact Versioned.commit_of_idle (h.settled id item committed resolved)
  refine ⟨?_, ?_, ?_, ?_, ?_, ?_, ?_, ?_, ?_⟩
  · intro id le
    have absent := h.fresh id le
    show (s.items id).commit w = .absent
    rw [absent]
    rfl
  · intro id item mem
    exact h.recorded id item (Versioned.versions_commit_subset _ _ mem)
  · intro id item committed resolved
    show ((s.items id).commit w).pending = none
    obtain ⟨own, -, done⟩ | ⟨-, same⟩ := (s.items id).commit_cases w
    · rw [done]
    · rw [same]
      refine h.settled id item ?_ resolved
      rw [← same]
      exact committed
  · intro id item committed resolution
    obtain pending | committed := Versioned.committed_of_commit committed
    · obtain ⟨now, resolving⟩ | ⟨letter, written, origin⟩ :=
        h.pendingLettered id w item pending resolution
      · exact absurd rfl (busy resolving)
      · exact ⟨letter, congrArg Versioned.committed (Versioned.commit_of_pending written), origin⟩
    · obtain ⟨letter, written, origin⟩ := h.lettered id item committed resolution
      have idle := (h.origin _ letter written).1
      refine ⟨letter, ?_, origin⟩
      show ((s.deadLetters item.key).commit w).committed = some letter
      rw [Versioned.commit_of_idle idle]
      exact written
  · intro key letter committed
    obtain pending | committed := Versioned.committed_of_commit committed
    · obtain ⟨item, isPending, resolution, same⟩ := h.pendingOrigin key w letter pending
      refine ⟨congrArg Versioned.pending (Versioned.commit_of_pending pending), item, ?_,
        resolution, same⟩
      exact congrArg Versioned.committed (Versioned.commit_of_pending isPending)
    · obtain ⟨idle, item, isCommitted, resolution, same⟩ := h.origin key letter committed
      refine ⟨?_, item, ?_, resolution, same⟩
      · show ((s.deadLetters key).commit w).pending = none
        rw [Versioned.commit_of_idle idle]
        exact idle
      · show ((s.items letter.origin).commit w).committed = some item
        rw [unchanged isCommitted resolution]
        exact isCommitted
  · intro id w' item pending resolution
    obtain ⟨pending, ne⟩ := Versioned.pending_of_commit pending
    refine (h.pendingLettered id w' item pending resolution).imp ?_ ?_
    · rintro ⟨now, resolving⟩
      exact ⟨now, (sessions ne).trans resolving⟩
    · rintro ⟨letter, written, origin⟩
      refine ⟨letter, ?_, origin⟩
      show ((s.deadLetters item.key).commit w).pending = some (w', letter)
      rw [Versioned.commit_of_other written ne]
      exact written
  · intro key w' letter pending
    obtain ⟨pending, ne⟩ := Versioned.pending_of_commit pending
    obtain ⟨item, isPending, resolution, same⟩ := h.pendingOrigin key w' letter pending
    refine ⟨item, ?_, resolution, same⟩
    show ((s.items letter.origin).commit w).pending = some (w', item)
    rw [Versioned.commit_of_other isPending ne]
    exact isPending
  · intro w' now id resolving
    have ne : w' ≠ w := by
      rintro rfl
      have idle : (s.commit w').sessions w' = .idle := Function.update_self _ _ _
      rw [idle] at resolving
      cases resolving
    rw [sessions ne] at resolving
    obtain ⟨item, sees, resolution⟩ := h.resolving w' now id resolving
    refine ⟨item, ?_, resolution⟩
    show ((s.items id).commit w).seen w' = some item
    obtain ⟨own, pending, sees'⟩ | ⟨-, same⟩ := (s.items id).seen_cases w'
    · rw [Versioned.commit_of_other pending ne]
      exact sees
    · rw [unchanged (same.symm.trans sees) resolution]
      exact sees
  · intro id id' item mem item' mem'
    exact h.unique id id' item (Versioned.versions_commit_subset _ _ mem) item'
      (Versioned.versions_commit_subset _ _ mem')

theorem Consistent.rollback (h : s.Consistent) : (s.rollback w).Consistent := by
  have sessions {w'} (ne : w' ≠ w) : (s.rollback w).sessions w' = s.sessions w' :=
    Function.update_of_ne ne _ _
  have committed {id} : ((s.items id).rollback w).committed = (s.items id).committed :=
    Versioned.rollback_committed _ _
  have written {key} : ((s.deadLetters key).rollback w).committed = (s.deadLetters key).committed :=
    Versioned.rollback_committed _ _
  refine ⟨?_, ?_, ?_, ?_, ?_, ?_, ?_, ?_, ?_⟩
  · intro id le
    have absent := h.fresh id le
    show (s.items id).rollback w = .absent
    rw [absent]
    rfl
  · intro id item mem
    exact h.recorded id item (Versioned.versions_rollback_subset _ _ mem)
  · intro id item isCommitted resolved
    have idle := h.settled id item (committed.symm.trans isCommitted) resolved
    show ((s.items id).rollback w).pending = none
    rw [Versioned.rollback_of_idle idle]
    exact idle
  · intro id item isCommitted resolution
    obtain ⟨letter, isWritten, origin⟩ :=
      h.lettered id item (committed.symm.trans isCommitted) resolution
    exact ⟨letter, written.trans isWritten, origin⟩
  · intro key letter isWritten
    obtain ⟨idle, item, isCommitted, rest⟩ := h.origin key letter (written.symm.trans isWritten)
    refine ⟨?_, item, committed.trans isCommitted, rest⟩
    show ((s.deadLetters key).rollback w).pending = none
    rw [Versioned.rollback_of_idle idle]
    exact idle
  · intro id w' item pending resolution
    obtain ⟨pending, ne⟩ := Versioned.pending_of_rollback pending
    refine (h.pendingLettered id w' item pending resolution).imp ?_ ?_
    · rintro ⟨now, resolving⟩
      exact ⟨now, (sessions ne).trans resolving⟩
    · rintro ⟨letter, isPending, origin⟩
      refine ⟨letter, ?_, origin⟩
      show ((s.deadLetters item.key).rollback w).pending = some (w', letter)
      rw [Versioned.rollback_of_other isPending ne]
      exact isPending
  · intro key w' letter pending
    obtain ⟨pending, ne⟩ := Versioned.pending_of_rollback pending
    obtain ⟨item, isPending, rest⟩ := h.pendingOrigin key w' letter pending
    refine ⟨item, ?_, rest⟩
    show ((s.items letter.origin).rollback w).pending = some (w', item)
    rw [Versioned.rollback_of_other isPending ne]
    exact isPending
  · intro w' now id resolving
    have ne : w' ≠ w := by
      rintro rfl
      have idle : (s.rollback w').sessions w' = .idle := Function.update_self _ _ _
      rw [idle] at resolving
      cases resolving
    rw [sessions ne] at resolving
    obtain ⟨item, sees, resolution⟩ := h.resolving w' now id resolving
    refine ⟨item, ?_, resolution⟩
    show ((s.items id).rollback w).seen w' = some item
    obtain ⟨own, pending, -⟩ | ⟨-, same⟩ := (s.items id).seen_cases w'
    · rw [Versioned.rollback_of_other pending ne]
      exact sees
    · have isCommitted := same.symm.trans sees
      have resolved := h.recorded id item (Versioned.mem_versions.mpr (.inl isCommitted))
        (by rw [resolution]; exact Option.some_ne_none _)
      rw [Versioned.rollback_of_idle (h.settled id item isCommitted resolved)]
      exact sees
  · intro id id' item mem item' mem'
    exact h.unique id id' item (Versioned.versions_rollback_subset _ _ mem) item'
      (Versioned.versions_rollback_subset _ _ mem')

theorem now_eq_some {t : Time} (h : s.now w = some t) : s.sessions w = .active t := by
  unfold now at h
  split at h
  · rename_i session
    cases h
    exact session
  · cases h

/-- A session that goes on with its transaction is as before. -/
theorem setSession_self {t : Time} (h : s.now w = some t) : s.setSession w (.active t) = s := by
  unfold setSession
  rw [← now_eq_some h, Function.update_eq_self]

theorem candidate_eq_some {subscriptionName : String}
    (h : s.candidate w subscriptionName id = some item) :
    (s.items id).locked w = false ∧ (s.items id).seen w = some item ∧ item.resolvedAt = none ∧
      item.subscriptionName = subscriptionName := by
  unfold candidate at h
  split at h
  · cases h
  · rename_i unlocked
    obtain ⟨sees, passes⟩ := Option.filter_eq_some_iff.mp h
    exact ⟨by simpa using unlocked, sees, (of_decide_eq_true passes).symm⟩

theorem open_of_seen (free : (s.items id).locked w = false) (sees : (s.items id).seen w = some item)
    (unresolved : item.resolvedAt = none) : s.Open w id := by
  refine ⟨free, fun item' sees' => ?_⟩
  rw [sees] at sees'
  cases sees'
  exact unresolved

/-- What the three functions write: a version of an open item. -/
inductive Step (s : Server) (w : Worker) : Server → Prop
  | write {n : Nat} {id : Nat} {item : Item} {state : Session} (now : s.now w ≠ none)
    (bound : s.nextId ≤ n) (inside : id < n) (isOpen : s.Open w id)
    (recorded : item.resolution ≠ none → item.resolvedAt ≠ none)
    (writes : s.Writes w id item state) :
    Step s w { (s.writeItem w id item).setSession w state with nextId := n }

theorem Consistent.reconciliationEnqueue (h : s.Consistent) {eventId : Uuid}
    {linkback : Option String} {summary : String}
    (done : s.reconciliationEnqueue w eventId linkback summary = some s') : s.Step w s' := by
  obtain ⟨t, now, rfl⟩ := Option.map_eq_some_iff.mp done
  have absent := h.fresh s.nextId (Nat.le_refl _)
  have isOpen : s.Open w s.nextId := by
    refine ⟨?_, ?_⟩
    · rw [absent]
      rfl
    · intro item sees
      rw [absent] at sees
      cases sees
  have written : s.Step w { (s.writeItem w s.nextId
      (.enqueued eventId (linkback.getD "unknown") t summary)).setSession w (.active t) with
      nextId := s.nextId + 1 } :=
    .write (by rw [now]; exact Option.some_ne_none t) (Nat.le_succ _) (Nat.lt_succ_self _) isOpen
      (fun not => absurd rfl not) (.plain nofun ⟨t, rfl⟩)
  rwa [setSession_self (s := s.writeItem w s.nextId _) now] at written

/-- An unresolved version has no resolution. -/
theorem Consistent.resolution_eq_none (h : s.Consistent) (sees : (s.items id).seen w = some item)
    (unresolved : item.resolvedAt = none) : item.resolution = none := by
  by_contra resolution
  exact h.recorded id item (Versioned.mem_versions_of_seen sees) resolution unresolved

theorem Consistent.reconciliationNext (h : s.Consistent) {sessionUser subscriptionName : String}
    (done : s.reconciliationNext w sessionUser subscriptionName (some id) = some s') :
    s.Step w s' := by
  obtain ⟨t, now, done⟩ := Option.bind_eq_some_iff.mp done
  obtain ⟨item, candidate, done⟩ := Option.bind_eq_some_iff.mp done
  obtain ⟨free, sees, unresolved, -⟩ := candidate_eq_some candidate
  have resolution := h.resolution_eq_none sees unresolved
  split at done
  · cases done
    have written : s.Step w { (s.writeItem w id (item.lease w sessionUser t)).setSession w
        (.active t) with nextId := s.nextId } :=
      .write (by rw [now]; exact Option.some_ne_none t) (Nat.le_refl _) (h.lt_nextId sees)
        (open_of_seen free sees unresolved) (fun not => absurd resolution not)
        (.plain (by simp [resolution]) ⟨t, rfl⟩)
    rwa [setSession_self (s := s.writeItem w id _) now] at written
  · cases done

/-- The session is about to write a dead letter that may be there already. -/
theorem Consistent.setResolving (h : s.Consistent) {t t' : Time} (now : s.now w = some t)
    (sees : (s.items id).seen w = some item) (resolution : item.resolution = some .deadLetter) :
    (s.setSession w (.resolving t' id)).Consistent where
  fresh := h.fresh
  recorded := h.recorded
  settled := h.settled
  lettered := h.lettered
  origin := h.origin
  pendingOrigin := h.pendingOrigin
  unique := h.unique
  pendingLettered := by
    intro id' w' item' pending resolution'
    refine (h.pendingLettered id' w' item' pending resolution').imp_left ?_
    rintro ⟨t'', resolving⟩
    have ne : w' ≠ w := by
      rintro rfl
      rw [now_eq_some now] at resolving
      cases resolving
    exact ⟨t'', (Function.update_of_ne ne _ _).trans resolving⟩
  resolving := by
    intro w' t'' id' resolving
    by_cases eq : w' = w
    · subst eq
      have session : (s.setSession w' (.resolving t' id)).sessions w' = .resolving t' id :=
        Function.update_self _ _ _
      rw [session] at resolving
      cases resolving
      exact ⟨item, sees, resolution⟩
    · exact h.resolving w' t'' id' ((Function.update_of_ne eq _ _).symm.trans resolving)

/-- What a careful call of `reconciliation_resolve` can do. -/
theorem Consistent.reconciliationResolve (h : s.Consistent) {sessionUser action : String}
    {note : Option String} (careful : s.Careful (.resolve w id action note))
    (done : s.reconciliationResolve w sessionUser id action note = some s') :
    (Resolution.parse action = none ∧ s' = s.rollback w) ∨ s' = s ∨
      (s'.Consistent ∧ s'.items = s.items) ∨ s.Step w s' := by
  obtain ⟨t, now, done⟩ := Option.bind_eq_some_iff.mp done
  have active : s.now w ≠ none := by
    rw [now]
    exact Option.some_ne_none t
  cases parsed : Resolution.parse action with
  | none =>
    simp only [parsed] at done
    cases done
    exact .inl ⟨rfl, rfl⟩
  | some action' =>
    simp only [parsed] at done
    obtain ⟨mid, resolved, rfl⟩ := Option.map_eq_some_iff.mp done
    unfold resolveItem at resolved
    split at resolved
    · rename_i unseen
      cases resolved
      split
      · rename_i isLetter
        subst isLetter
        obtain ⟨item, sees, -⟩ := careful parsed
        rw [unseen] at sees
        cases sees
      · exact .inr (.inl rfl)
    · rename_i item sees
      split at resolved
      · rename_i unresolved
        split at resolved
        · cases resolved
        · rename_i unlocked
          have isOpen : s.Open w id := open_of_seen (by simpa using unlocked) sees unresolved
          cases resolved
          refine .inr (.inr (.inr ?_))
          split
          · rename_i isLetter
            subst isLetter
            obtain ⟨item', sees', -, unique⟩ := careful parsed
            rw [sees] at sees'
            cases sees'
            refine Step.write (n := s.nextId) active (Nat.le_refl _) (h.lt_nextId sees) isOpen
              (fun _ => Option.some_ne_none t) (.letter rfl ⟨t, rfl⟩ ?_)
            intro id' ne other mem key
            refine unique id' (Nat.lt_of_not_le fun le => ?_) ne other mem key
            rw [h.fresh id' le] at mem
            exact List.not_mem_nil mem
          · rename_i notLetter
            have written : s.Step w { (s.writeItem w id
                (item.resolve action' sessionUser note t)).setSession w (.active t) with
                nextId := s.nextId } :=
              .write active (Nat.le_refl _) (h.lt_nextId sees) isOpen
                (fun _ => Option.some_ne_none t)
                (.plain (fun eq => notLetter (Option.some.inj eq)) ⟨t, rfl⟩)
            rwa [setSession_self (s := s.writeItem w id _) now] at written
      · rename_i already
        cases resolved
        split
        · rename_i isLetter
          subst isLetter
          obtain ⟨item', sees', letter, -⟩ := careful parsed
          rw [sees] at sees'
          cases sees'
          exact .inr (.inr (.inl ⟨h.setResolving now sees (letter.resolve_left already), rfl⟩))
        · exact .inr (.inl rfl)

theorem Step.consistent (written : s.Step w s') (h : s.Consistent) : s'.Consistent := by
  cases written with
  | write now bound inside isOpen recorded writes =>
    exact h.write now bound inside isOpen recorded writes

variable {e : Event}

theorem resolvesOnce_of_items (same : s'.items = s.items) : s.ResolvesOnce e s' := by
  intro id item _
  rw [same]
  exact ⟨fun committed => committed, fun _ pending _ => .inl pending⟩

theorem Step.resolvesOnce (written : s.Step w s') (h : s.Consistent) : s.ResolvesOnce e s' := by
  cases written with
  | write now bound inside isOpen recorded writes =>
    rename_i n id item state
    intro id' item' resolved
    have other (mem : item' ∈ (s.items id').versions) : id' ≠ id := by
      rintro rfl
      exact resolved (isOpen.versions h mem)
    have there (ne : id' ≠ id) : (s.writeItem w id item).items id' = s.items id' :=
      Function.update_of_ne ne _ _
    constructor
    · intro committed
      have ne := other (Versioned.mem_versions.mpr (.inl committed))
      exact (congrArg Versioned.committed (there ne)).trans committed
    · intro w' pending _
      have ne := other (Versioned.mem_versions.mpr (.inr ⟨w', pending⟩))
      exact .inl ((congrArg Versioned.pending (there ne)).trans pending)

theorem Consistent.resolvesOnce_commit (h : s.Consistent) : s.ResolvesOnce e (s.commit w) := by
  intro id item resolved
  constructor
  · intro committed
    show ((s.items id).commit w).committed = some item
    rw [Versioned.commit_of_idle (h.settled id item committed resolved)]
    exact committed
  · intro w' pending _
    by_cases eq : w' = w
    · subst eq
      exact .inr (congrArg Versioned.committed (Versioned.commit_of_pending pending))
    · exact .inl ((congrArg Versioned.pending (Versioned.commit_of_other pending eq)).trans pending)

theorem resolvesOnce_rollback (undoes : e.Undoes w) : s.ResolvesOnce e (s.rollback w) := by
  intro id item _
  constructor
  · intro committed
    exact (Versioned.rollback_committed _ _).trans committed
  · intro w' pending kept
    have ne : w' ≠ w := by
      rintro rfl
      exact kept undoes
    exact .inl ((congrArg Versioned.pending (Versioned.rollback_of_other pending ne)).trans pending)

/-- A careful step keeps the invariant and all resolutions. -/
theorem Consistent.step (h : s.Consistent) (careful : s.Careful e)
    (done : step user s e = some s') : s'.Consistent ∧ s.ResolvesOnce e s' := by
  cases e with
  | tick passed =>
    cases done
    exact ⟨⟨h.fresh, h.recorded, h.settled, h.lettered, h.origin, h.pendingLettered,
      h.pendingOrigin, h.resolving, h.unique⟩, resolvesOnce_of_items rfl⟩
  | begin w =>
    simp only [Server.step] at done
    split at done
    · rename_i idle
      cases done
      refine ⟨h.setActive fun now id item session => ?_, resolvesOnce_of_items rfl⟩
      rw [idle] at session
      cases session
    · cases done
  | enqueue w eventId linkback summary =>
    have written := h.reconciliationEnqueue done
    exact ⟨written.consistent h, written.resolvesOnce h⟩
  | next w subscriptionName answer =>
    cases answer with
    | some id =>
      have written := h.reconciliationNext done
      exact ⟨written.consistent h, written.resolvesOnce h⟩
    | none =>
      obtain ⟨t, -, done⟩ := Option.bind_eq_some_iff.mp done
      split at done
      · cases done
        exact ⟨h, resolvesOnce_of_items rfl⟩
      · cases done
  | resolve w id action note =>
    obtain ⟨unknown, rfl⟩ | rfl | ⟨consistent, same⟩ | written :=
      h.reconciliationResolve careful done
    · exact ⟨h.rollback, resolvesOnce_rollback ⟨rfl, unknown⟩⟩
    · exact ⟨h, resolvesOnce_of_items rfl⟩
    · exact ⟨consistent, resolvesOnce_of_items same⟩
    · exact ⟨written.consistent h, written.resolvesOnce h⟩
  | insertDeadLetter w =>
    exact ⟨h.insertDeadLetter done, resolvesOnce_of_items (items_insertDeadLetter done)⟩
  | commit w =>
    obtain ⟨t, now, rfl⟩ := Option.map_eq_some_iff.mp done
    refine ⟨h.commit ?_, h.resolvesOnce_commit⟩
    rw [now]
    exact Option.some_ne_none t
  | rollback w =>
    cases done
    exact ⟨h.rollback, resolvesOnce_rollback rfl⟩

/-- Every open version was there before, under the same subscription and time. -/
def OpenBefore (s s' : Server) : Prop :=
  ∀ id, ∀ item' ∈ (s'.items id).versions, item'.resolvedAt = none →
    ∃ item ∈ (s.items id).versions, item.resolvedAt = none ∧
      item.subscriptionName = item'.subscriptionName ∧ item.enqueuedAt = item'.enqueuedAt

theorem OpenBefore.of_subset (subset : ∀ id, (s'.items id).versions ⊆ (s.items id).versions) :
    s.OpenBefore s' :=
  fun id item' mem unresolved => ⟨item', subset id mem, unresolved, rfl, rfl⟩

theorem OpenBefore.inOrder (before : s.OpenBefore s') (h : s.InOrder) : s'.InOrder := by
  intro id id' lt item mem item' mem' unresolved unresolved' same
  obtain ⟨old, hold, open_, name, time⟩ := before id item mem unresolved
  obtain ⟨old', hold', open', name', time'⟩ := before id' item' mem' unresolved'
  have earlier := h id id' lt old hold old' hold' open_ open' (name.trans (same.trans name'.symm))
  rwa [time, time'] at earlier

theorem mem_versions_writeItem {id' : Nat} {x : Item}
    (mem : x ∈ ((s.writeItem w id item).items id').versions) :
    (id' = id ∧ x = item) ∨ x ∈ (s.items id').versions := by
  by_cases same : id' = id
  · subst same
    have here : (s.writeItem w id' item).items id' = (s.items id').write w item :=
      Function.update_self _ _ _
    rw [here] at mem
    obtain committed | ⟨w', pending⟩ := Versioned.mem_versions.mp mem
    · exact .inr (Versioned.mem_versions.mpr (.inl committed))
    · cases pending
      exact .inl ⟨rfl, rfl⟩
  · have there : (s.writeItem w id item).items id' = s.items id' :=
      Function.update_of_ne same _ _
    rw [there] at mem
    exact .inr mem

/-- A new version is resolved, or it takes the place of an open one. -/
theorem openBefore_writeItem (sees : (s.items id).seen w = some item) {new : Item}
    (unresolved : new.resolvedAt = none → item.resolvedAt = none)
    (name : item.subscriptionName = new.subscriptionName)
    (time : item.enqueuedAt = new.enqueuedAt) : s.OpenBefore (s.writeItem w id new) := by
  intro id' x mem isOpen
  obtain ⟨rfl, rfl⟩ | old := mem_versions_writeItem mem
  · exact ⟨item, Versioned.mem_versions_of_seen sees, unresolved isOpen, name, time⟩
  · exact ⟨x, old, isOpen, rfl, rfl⟩

theorem openBefore_reconciliationResolve {sessionUser action : String} {note : Option String}
    (done : s.reconciliationResolve w sessionUser id action note = some s') : s.OpenBefore s' := by
  obtain ⟨t, -, done⟩ := Option.bind_eq_some_iff.mp done
  have same : s.OpenBefore s := .of_subset fun _ => List.Subset.refl _
  cases parsed : Resolution.parse action with
  | none =>
    simp only [parsed] at done
    cases done
    exact .of_subset fun id => Versioned.versions_rollback_subset (s.items id) w
  | some action' =>
    simp only [parsed] at done
    obtain ⟨mid, resolved, rfl⟩ := Option.map_eq_some_iff.mp done
    have before : s.OpenBefore mid := by
      unfold resolveItem at resolved
      split at resolved
      · cases resolved
        exact same
      · rename_i item sees
        split at resolved
        · split at resolved
          · cases resolved
          · cases resolved
            exact openBefore_writeItem sees nofun rfl rfl
        · cases resolved
          exact same
    split
    · exact before
    · exact before

/-- Only an enqueue brings open items. -/
theorem inOrder_step (h : s.Consistent) (order : s.InOrder) (careful : s.Careful e)
    (done : step user s e = some s') : s'.InOrder := by
  have kept (same : s'.items = s.items) : s'.InOrder := by
    rw [InOrder, same]
    exact order
  cases e with
  | tick passed =>
    cases done
    exact order
  | begin w =>
    simp only [Server.step] at done
    split at done
    · cases done
      exact order
    · cases done
  | enqueue w eventId linkback summary =>
    obtain ⟨t, now, rfl⟩ := Option.map_eq_some_iff.mp done
    have inside (id : Nat) (item : Item) (mem : item ∈ (s.items id).versions) : id < s.nextId := by
      refine Nat.lt_of_not_le fun le => ?_
      rw [h.fresh id le] at mem
      cases mem
    intro id id' lt item mem item' mem' unresolved unresolved' same
    obtain ⟨rfl, rfl⟩ | old := mem_versions_writeItem mem
    · obtain ⟨rfl, -⟩ | old' := mem_versions_writeItem mem'
      · exact absurd lt (Nat.lt_irrefl _)
      · exact absurd lt (Nat.not_lt_of_lt (inside id' item' old'))
    · obtain ⟨rfl, rfl⟩ | old' := mem_versions_writeItem mem'
      · exact careful t now id lt item old unresolved same
      · exact order id id' lt item old item' old' unresolved unresolved' same
  | next w subscriptionName answer =>
    cases answer with
    | some id =>
      obtain ⟨t, -, done⟩ := Option.bind_eq_some_iff.mp done
      obtain ⟨item, candidate, done⟩ := Option.bind_eq_some_iff.mp done
      obtain ⟨-, sees, -⟩ := candidate_eq_some candidate
      split at done
      · cases done
        have before : s.OpenBefore (s.writeItem w id (item.lease w (user w) t)) :=
          openBefore_writeItem sees (fun unresolved => unresolved) rfl rfl
        exact before.inOrder order
      · cases done
    | none =>
      obtain ⟨t, -, done⟩ := Option.bind_eq_some_iff.mp done
      split at done
      · cases done
        exact order
      · cases done
  | resolve w id action note => exact (openBefore_reconciliationResolve done).inOrder order
  | insertDeadLetter w => exact kept (items_insertDeadLetter done)
  | commit w =>
    obtain ⟨t, -, rfl⟩ := Option.map_eq_some_iff.mp done
    exact OpenBefore.inOrder
      (.of_subset fun id => Versioned.versions_commit_subset (s.items id) w) order
  | rollback w =>
    cases done
    exact OpenBefore.inOrder
      (.of_subset fun id => Versioned.versions_rollback_subset (s.items id) w) order

/-- The item with the first time is the one with the first id. -/
theorem handsOutFairly_of_careful (order : s.InOrder) (careful : s.Careful e)
    (done : step user s e = some s') : s.HandsOutFairly e := by
  cases e with
  | next w subscriptionName answer =>
    cases answer with
    | none => trivial
    | some id =>
      obtain ⟨t, -, done⟩ := Option.bind_eq_some_iff.mp done
      obtain ⟨item, candidate, done⟩ := Option.bind_eq_some_iff.mp done
      split at done
      · rename_i chosen
        obtain ⟨inside, first⟩ := chosen
        refine ⟨item, candidate, careful id inside item candidate first, ?_⟩
        intro id' lt other candidate'
        obtain ⟨-, sees, unresolved, name⟩ := candidate_eq_some candidate
        obtain ⟨-, sees', unresolved', name'⟩ := candidate_eq_some candidate'
        have earlier := order id' id lt other (Versioned.mem_versions_of_seen sees') item
          (Versioned.mem_versions_of_seen sees) unresolved' unresolved (name'.trans name.symm)
        have notBefore := first id' (Nat.lt_trans lt inside) other candidate'
        exact absurd earlier (Int.not_lt.mpr notBefore)
      · cases done
  | _ => trivial

/-- In every run of careful calls, by any number of sessions with open transactions, the queue
keeps its promises at every step. -/
theorem reconciliation_orderly (user : Worker → String) (events : List Event)
    (careful : Run.Along (step user) Careful initial events) :
    Run.Along (step user) (Orderly user) initial events := by
  have start : initial.InOrder := fun _ _ _ _ mem => nomatch mem
  have keeps (s : Server) (e : Event) (s' : Server) (h : s.Consistent ∧ s.InOrder)
      (careful : s.Careful e) (done : step user s e = some s') : s'.Consistent ∧ s'.InOrder :=
    ⟨(h.1.step careful done).1, inOrder_step h.1 h.2 careful done⟩
  refine Run.along_of_invariant keeps ?_ ⟨consistent_initial, start⟩ careful
  rintro s e ⟨h, order⟩ careful s' done
  obtain ⟨consistent, once⟩ := h.step careful done
  exact ⟨handsOutFairly_of_careful order careful done, once, consistent.deadLettersMatch⟩

instance (s : Server) (w : Worker) (item : Item) : Decidable (s.LeasedToOther w item) :=
  inferInstanceAs (Decidable ((∃ t ∈ item.leasedUntil, s.clock < t) ∧ item.holder ≠ some w))

instance (s : Server) : DecidablePred s.Careful := fun event =>
  match event with
  | .enqueue w _ linkback _ =>
    inferInstanceAs (Decidable (∀ now ∈ s.now w, ∀ id < s.nextId,
      ∀ item ∈ (s.items id).versions, item.resolvedAt = none →
        item.subscriptionName = linkback.getD "unknown" → item.enqueuedAt < now))
  | .next w subscriptionName _ =>
    inferInstanceAs (Decidable (∀ id < s.nextId, ∀ item ∈ s.candidate w subscriptionName id,
      s.First w subscriptionName item → ¬ s.LeasedToOther w item))
  | .resolve w id action _ =>
    inferInstanceAs (Decidable (Resolution.parse action = some .deadLetter →
      ∃ item ∈ (s.items id).seen w,
        (item.resolvedAt = none ∨ item.resolution = some .deadLetter) ∧
        ∀ id' < s.nextId, id' ≠ id → ∀ other ∈ (s.items id').versions, other.key = item.key →
          other.resolution ≠ some .deadLetter))
  | .tick _ => isTrue trivial
  | .begin _ => isTrue trivial
  | .insertDeadLetter _ => isTrue trivial
  | .commit _ => isTrue trivial
  | .rollback _ => isTrue trivial

/-- Two sessions get the two items of a subscription while both transactions are open. -/
def twoWorkers : List Event := [
  .begin 1, .enqueue 1 77 (some "crm") "first", .commit 1, .tick 1000,
  .begin 1, .enqueue 1 78 (some "crm") "second", .commit 1,
  .begin 2, .next 2 "crm" (some 1), .begin 3, .next 3 "crm" (some 2), .commit 2,
  .resolve 3 2 "dead_letter" none, .insertDeadLetter 3, .commit 3, .tick 1000,
  .begin 2, .resolve 2 1 "accept_external" none, .commit 2]

theorem reconciliation_orderly_twoWorkers :
    (Run.exec (step fun _ => "relay") initial twoWorkers).isSome = true ∧
      Run.Along (step fun _ => "relay") (Orderly fun _ => "relay") initial twoWorkers :=
  ⟨by decide, reconciliation_orderly _ _ (by decide)⟩

/-- The lease of session `2` is committed when session `3` asks for an item. -/
theorem not_reconciliation_orderly :
    ¬ ∀ user events, Run.Along (step user) (Orderly user) initial events := by
  intro promised
  have runs : (Run.exec (step fun _ => "relay") initial
      [.begin 1, .enqueue 1 77 (some "crm") "first", .commit 1, .begin 2, .next 2 "crm" (some 1),
        .commit 2, .begin 3]).any (fun s => (step (fun _ => "relay") s
          (.next 3 "crm" (some 1))).isSome &&
          decide (∀ item ∈ s.candidate 3 "crm" 1, s.LeasedToOther 3 item)) = true := by
    decide
  obtain ⟨s, executed, bad⟩ := (Option.any_eq_true _ _).mp runs
  obtain ⟨handed, leased⟩ := (Bool.and_eq_true _ _).mp bad
  obtain ⟨s', done⟩ := Option.isSome_iff_exists.mp handed
  have orderly := (promised (fun _ => "relay") (_ ++ .next 3 "crm" (some 1) :: [])).guard_of_append
    executed s' done
  obtain ⟨item, mem, notLeased, -⟩ := orderly.1
  exact notLeased (of_decide_eq_true leased item mem)

end Server

end PgRipple.Bidi
