import PgRipple.Dictionary.Transactions

/-!
# Ids do not outlive their rows

`Safe` is the invariant of the three tiers. Hashes are unique over committed rows and
those of all open transactions. Whatever the shared cache holds is a row of somebody;
whatever a backend's own cache holds is committed or its own. A row that is not yet
committed occupies at most as many ways of the shared cache as its transaction has
noted, so an abort finds all of them. And a row of a VP table refers to dictionary
rows that are at least as durable as itself.
-/

namespace PgRipple.Dictionary

variable {n : Nat}

namespace Server

/-- A dictionary row, committed or of the open transaction of a backend. -/
def RowOf (srv : Server n) : Option (Fin n) → DictRow → Prop
  | none, r => r ∈ srv.rows
  | some b, r => r ∈ (srv.backends b).uncommitted

/-- A row that is committed or the backend's own. -/
def Visible (srv : Server n) (b : Fin n) (r : DictRow) : Prop :=
    srv.RowOf none r ∨ srv.RowOf (some b) r

/-- The shared cache does not show the backend an uncommitted row of another one. -/
def Clear (srv : Server n) (b : Fin n) (hash128 : Hash) : Prop :=
  ∀ b' ≠ b, ∀ r ∈ (srv.backends b').uncommitted, r.hash = hash128 → ¬ srv.shared.Holds r.hash r.id

/-- Every id occurs in a row that is committed or in one of these levels. -/
def Backed (committed : List DictRow) (levels : List Level) (ids : List Int) : Prop :=
  ∀ id ∈ ids, ∃ r ∈ committed ++ levels.flatMap Level.rows, r.id = id

/-- VP rows of a level refer to rows of the same or an enclosing level. -/
def Scoped (committed : List DictRow) : List Level → Prop
  | [] => True
  | l :: ls => (∀ ids ∈ l.vp, Backed committed (l :: ls) ids) ∧ Scoped committed ls

/-- The invariant. -/
structure Safe (srv : Server n) : Prop where
  unique : ∀ o o' r r', srv.RowOf o r → srv.RowOf o' r' → r.hash = r'.hash → o = o' ∧ r = r'
  shared : ∀ hash128 id, srv.shared.Holds hash128 id → ∃ o, srv.RowOf o ⟨hash128, id⟩
  idle : srv.shared.ready = false → ∀ hash128, srv.shared.entries hash128 = 0
  counted : ∀ b, ∀ r ∈ (srv.backends b).uncommitted,
    srv.shared.entries r.hash ≤ (srv.backends b).txShmemInserts.count r.hash
  cached : ∀ b, ∀ e ∈ (srv.backends b).encodeCache, srv.Visible b ⟨e.1, e.2⟩
  nested : ∀ b, Scoped srv.rows (srv.backends b).levels
  vp : ∀ ids ∈ srv.vp, Backed srv.rows [] ids

variable {srv : Server n} {b b' : Fin n} {be : Backend} {hash128 : Hash} {id : Int} {r : DictRow}

@[simp] theorem setBackend_self : (srv.setBackend b be).backends b = be := Function.update_self ..

theorem setBackend_of_ne (h : b' ≠ b) : (srv.setBackend b be).backends b' = srv.backends b' :=
  Function.update_of_ne h ..

/-- Where a row lies depends on the committed rows and the open levels only. -/
theorem rowOf_congr {srv' : Server n} (rows : srv'.rows = srv.rows)
    (levels : ∀ b, (srv'.backends b).levels = (srv.backends b).levels) (o : Option (Fin n))
    (r : DictRow) : srv'.RowOf o r ↔ srv.RowOf o r := by
  cases o with
  | none => rw [RowOf, RowOf, rows]
  | some b => rw [RowOf, RowOf, Backend.uncommitted, Backend.uncommitted, levels]

/-- A backend that only changes its caches keeps its levels. -/
theorem levels_setBackend (same : be.levels = (srv.backends b).levels) (b' : Fin n) :
    ((srv.setBackend b be).backends b').levels = (srv.backends b').levels := by
  by_cases hb : b' = b
  · subst hb
    rw [setBackend_self, same]
  · rw [setBackend_of_ne hb]

theorem Backed.mono {committed committed' : List DictRow} {levels levels' : List Level}
    {ids : List Int} (h : Backed committed levels ids)
    (more : ∀ r ∈ committed ++ levels.flatMap Level.rows,
      r ∈ committed' ++ levels'.flatMap Level.rows) : Backed committed' levels' ids := by
  intro id hid
  obtain ⟨r, hr, same⟩ := h id hid
  exact ⟨r, more r hr, same⟩

theorem Scoped.mono {committed committed' : List DictRow} {levels : List Level}
    (h : Scoped committed levels) (more : ∀ r ∈ committed, r ∈ committed') :
    Scoped committed' levels := by
  induction levels with
  | nil => trivial
  | cons l ls ih =>
    refine ⟨?_, ih h.2⟩
    intro ids hids
    refine (h.1 ids hids).mono ?_
    intro r hr
    exact List.mem_append.mpr ((List.mem_append.mp hr).imp (more r) id)

/-- The rows stay where they are; the caches must stay true. -/
theorem Safe.of_rowOf {srv' : Server n} (h : srv.Safe)
    (same : ∀ o r, srv'.RowOf o r ↔ srv.RowOf o r)
    (shared : ∀ hash128 id, srv'.shared.Holds hash128 id → ∃ o, srv.RowOf o ⟨hash128, id⟩)
    (idle : srv'.shared.ready = false → ∀ hash128, srv'.shared.entries hash128 = 0)
    (counted : ∀ b, ∀ r, srv.RowOf (some b) r →
      srv'.shared.entries r.hash ≤ (srv'.backends b).txShmemInserts.count r.hash)
    (cached : ∀ b, ∀ e ∈ (srv'.backends b).encodeCache, srv.Visible b ⟨e.1, e.2⟩)
    (nested : ∀ b, Scoped srv.rows (srv'.backends b).levels)
    (vp : srv'.vp = srv.vp) : srv'.Safe where
  unique o o' r r' hr hr' := h.unique o o' r r' ((same o r).mp hr) ((same o' r').mp hr')
  shared hash128 id held := by
    obtain ⟨o, row⟩ := shared hash128 id held
    exact ⟨o, (same o _).mpr row⟩
  idle := idle
  counted b r hr := counted b r ((same (some b) r).mp hr)
  cached b e he := (cached b e he).imp (same none _).mpr (same (some b) _).mpr
  nested b := by
    refine (nested b).mono ?_
    intro r hr
    exact (same none r).mpr hr
  vp ids hids := by
    rw [vp] at hids
    refine (h.vp ids hids).mono ?_
    simp only [List.flatMap_nil, List.append_nil]
    intro r hr
    exact (same none r).mpr hr

/-- What the shared cache answers is visible, if no other transaction is in the way. -/
theorem Safe.visible_of_holds (h : srv.Safe) (clear : srv.Clear b hash128)
    (held : srv.shared.Holds hash128 id) : srv.Visible b ⟨hash128, id⟩ := by
  obtain ⟨o, row⟩ := h.shared hash128 id held
  cases o with
  | none => exact .inl row
  | some b' =>
    by_cases hb : b' = b
    · subst hb
      exact .inr row
    · exact absurd held (clear b' hb ⟨hash128, id⟩ row rfl)

/-- One backend has worked, and whatever it could rely on it still can. -/
structure Extends (b : Fin n) (srv srv' : Server n) : Prop where
  safe : srv'.Safe
  visible : ∀ r, srv.Visible b r → srv'.Visible b r
  clear : ∀ hash128, srv.Clear b hash128 → srv'.Clear b hash128

namespace Extends

theorem refl (h : srv.Safe) : Extends b srv srv := ⟨h, fun _ => id, fun _ => id⟩

theorem trans {srv' srv'' : Server n} (first : Extends b srv srv') (second : Extends b srv' srv'') :
    Extends b srv srv'' where
  safe := second.safe
  visible r hr := second.visible r (first.visible r hr)
  clear hash128 hc := second.clear hash128 (first.clear hash128 hc)

end Extends

section SetTiers

variable {t : Tiers}

theorem levels_setTiers (b' : Fin n) :
    ((srv.setTiers b t).backends b').levels = (srv.backends b').levels := by
  by_cases hb : b' = b
  · subst hb
    rw [setTiers, setBackend_self]
    rfl
  · rw [setTiers, setBackend_of_ne hb]

theorem noted_setTiers (b' : Fin n) :
    ((srv.setTiers b t).backends b').txShmemInserts = (srv.backends b').txShmemInserts := by
  by_cases hb : b' = b
  · subst hb
    rw [setTiers, setBackend_self]
  · rw [setTiers, setBackend_of_ne hb]

theorem mem_encodeCache_setTiers {e : Hash × Int}
    (he : e ∈ ((srv.setTiers b t).backends b').encodeCache) :
    (b' = b ∧ e ∈ t.encodeCache) ∨ e ∈ (srv.backends b').encodeCache := by
  by_cases hb : b' = b
  · subst hb
    rw [setTiers, setBackend_self] at he
    exact .inl ⟨rfl, he⟩
  · rw [setTiers, setBackend_of_ne hb] at he
    exact .inr he

end SetTiers

/-- A lookup changes ages, and copies entries that are safe to copy. -/
theorem Safe.lookup (h : srv.Safe) (clear : srv.Clear b hash128) :
    Extends b srv (srv.lookup b hash128).2 ∧
      ∀ id, (srv.lookup b hash128).1 = some id → srv.Visible b ⟨hash128, id⟩ := by
  have levels (b' : Fin n) :
      ((srv.lookup b hash128).2.backends b').levels = (srv.backends b').levels :=
    levels_setTiers b'
  have same (o : Option (Fin n)) (r : DictRow) :
      (srv.lookup b hash128).2.RowOf o r ↔ srv.RowOf o r := by
    refine rowOf_congr ?_ levels o r
    rfl
  have shared : (srv.lookup b hash128).2.shared = (srv.shared.lookup hash128).2 :=
    Tiers.shared_lookup
  have safe : (srv.lookup b hash128).2.Safe := by
    refine h.of_rowOf same ?_ ?_ ?_ ?_ (fun b' => (levels b').symm ▸ h.nested b') rfl
    · intro hash' id after
      rw [shared] at after
      exact h.shared hash' id (SharedCache.holds_lookup after)
    · intro idle hash'
      rw [shared] at idle ⊢
      have before := h.idle (SharedCache.ready_lookup.symm.trans idle) hash'
      exact Nat.le_zero.mp (before ▸ SharedCache.entries_lookup)
    · intro b' r hr
      have noted : ((srv.lookup b hash128).2.backends b').txShmemInserts =
          (srv.backends b').txShmemInserts := noted_setTiers b'
      rw [shared, noted]
      exact Nat.le_trans SharedCache.entries_lookup (h.counted b' r hr)
    · intro b' e he
      cases mem_encodeCache_setTiers he with
      | inl here =>
        obtain ⟨rfl, he⟩ := here
        cases Tiers.mem_lookup he with
        | inl old => exact h.cached b' e old
        | inr new =>
          rw [new.1]
          exact h.visible_of_holds clear new.2
      | inr other => exact h.cached b' e other
  refine ⟨⟨safe, ?_, ?_⟩, ?_⟩
  · intro r hr
    exact hr.imp (same none r).mpr (same (some b) r).mpr
  · intro hash' clear' b' hb r hr named after
    rw [shared] at after
    exact clear' b' hb r ((same (some b') r).mp hr) named (SharedCache.holds_lookup after)
  · intro id found
    cases Tiers.held_of_lookup found with
    | inl shared => exact h.visible_of_holds clear shared
    | inr own => exact h.cached b (hash128, id) own

theorem levels_publish (b' : Fin n) :
    ((srv.publish b hash128 id).backends b').levels = (srv.backends b').levels := by
  rw [publish]
  refine Eq.trans (levels_setBackend ?_ b') (levels_setTiers b')
  rfl

theorem noted_publish (b' : Fin n) :
    ((srv.publish b hash128 id).backends b').txShmemInserts =
      if b' = b then hash128 :: (srv.backends b').txShmemInserts
      else (srv.backends b').txShmemInserts := by
  rw [publish]
  by_cases hb : b' = b
  · subst hb
    rw [if_pos rfl, setBackend_self]
    exact congrArg _ (noted_setTiers b')
  · rw [if_neg hb, setBackend_of_ne hb, noted_setTiers]

theorem mem_encodeCache_publish {e : Hash × Int}
    (he : e ∈ ((srv.publish b hash128 id).backends b').encodeCache) :
    (b' = b ∧ e = (hash128, id)) ∨ e ∈ (srv.backends b').encodeCache := by
  have tiers : e ∈ ((srv.setTiers b ((srv.tiers b).publish hash128 id)).backends
      b').encodeCache := by
    by_cases hb : b' = b
    · subst hb
      rw [publish, setBackend_self] at he
      exact he
    · rw [publish, setBackend_of_ne hb] at he
      exact he
  cases mem_encodeCache_setTiers tiers with
  | inl here =>
    obtain ⟨rfl, he⟩ := here
    exact (Cache.mem_put he).imp_left fun new => ⟨rfl, new⟩
  | inr other => exact .inr other

theorem Safe.publish (h : srv.Safe) (row : srv.Visible b ⟨hash128, id⟩) :
    Extends b srv (srv.publish b hash128 id) := by
  have levels (b' : Fin n) :
      ((srv.publish b hash128 id).backends b').levels = (srv.backends b').levels :=
    levels_publish b'
  have same (o : Option (Fin n)) (r : DictRow) :
      (srv.publish b hash128 id).RowOf o r ↔ srv.RowOf o r := by
    refine rowOf_congr ?_ levels o r
    rfl
  have mine : ∃ o, srv.RowOf o ⟨hash128, id⟩ ∧ (o = none ∨ o = some b) := by
    cases row with
    | inl committed => exact ⟨none, committed, .inl rfl⟩
    | inr own => exact ⟨some b, own, .inr rfl⟩
  -- no other transaction has a row of this hash
  have apart {b' : Fin n} {r : DictRow} (hb : b' ≠ b) (hr : srv.RowOf (some b') r) :
      r.hash ≠ hash128 := by
    intro named
    obtain ⟨o, mineRow, owner⟩ := mine
    have sameOwner := (h.unique (some b') o r _ hr mineRow named).1
    cases owner with
    | inl none =>
      rw [none] at sameOwner
      cases sameOwner
    | inr own =>
      rw [own] at sameOwner
      exact hb (Option.some.inj sameOwner)
  have held {hash' : Hash} {id' : Int}
      (after : (srv.publish b hash128 id).shared.Holds hash' id') :
      srv.shared.Holds hash' id' ∨ (hash' = hash128 ∧ id' = id) :=
    SharedCache.holds_insert after
  have safe : (srv.publish b hash128 id).Safe := by
    refine h.of_rowOf same ?_ ?_ ?_ ?_ (fun b' => (levels b').symm ▸ h.nested b') rfl
    · intro hash' id' after
      cases held after with
      | inl before => exact h.shared hash' id' before
      | inr new =>
        obtain ⟨o, mineRow, -⟩ := mine
        rw [new.1, new.2]
        exact ⟨o, mineRow⟩
    · intro idle hash'
      have notReady : srv.shared.ready = false := SharedCache.ready_insert.symm.trans idle
      have unchanged : (srv.publish b hash128 id).shared = srv.shared := by
        have inserted : (srv.publish b hash128 id).shared = srv.shared.insert hash128 id := rfl
        rw [inserted, SharedCache.insert, if_neg (by simp [notReady])]
      rw [unchanged]
      exact h.idle notReady hash'
    · intro b' r hr
      have grows : (srv.publish b hash128 id).shared.entries r.hash ≤
          srv.shared.entries r.hash + if r.hash = hash128 then 1 else 0 :=
        SharedCache.entries_insert
      have before := h.counted b' r hr
      rw [noted_publish]
      by_cases hb : b' = b
      · rw [if_pos hb, List.count_cons]
        by_cases named : r.hash = hash128
        · simp only [named, if_true, beq_self_eq_true] at grows before ⊢
          omega
        · rw [if_neg named] at grows
          omega
      · rw [if_neg (apart hb hr)] at grows
        rw [if_neg hb]
        omega
    · intro b' e he
      cases mem_encodeCache_publish he with
      | inl new =>
        obtain ⟨rfl, rfl⟩ := new
        exact row
      | inr old => exact h.cached b' e old
  refine ⟨safe, ?_, ?_⟩
  · intro r hr
    exact hr.imp (same none r).mpr (same (some b) r).mpr
  · intro hash' clear b' hb r hr named after
    have hr : srv.RowOf (some b') r := (same (some b') r).mp hr
    cases held after with
    | inl before => exact clear b' hb r hr named before
    | inr new => exact apart hb hr new.1

/-- No row of this hash exists anywhere. -/
def Absent (srv : Server n) (hash128 : Hash) : Prop := ∀ o r, srv.RowOf o r → r.hash ≠ hash128

/-- The two outcomes of an upsert: a visible row answers, or a new one is inserted. -/
theorem upsert_cases {srv' : Server n} (done : srv.upsert b hash128 = some (id, srv')) :
    (srv.Visible b ⟨hash128, id⟩ ∧ srv' = { srv with nextId := srv.nextId + 1 }) ∨
    (srv.Absent hash128 ∧ id = srv.nextId ∧
      srv' = { srv with nextId := srv.nextId + 1 }.setBackend b
        { srv.backends b with
          current := { (srv.backends b).current with
            rows := ⟨hash128, id⟩ :: (srv.backends b).current.rows } }) := by
  simp only [upsert] at done
  split at done
  · rename_i r found
    cases done
    have named : r.hash = hash128 := by simpa using List.find?_some found
    have row : (⟨hash128, r.id⟩ : DictRow) = r := by rw [← named]
    refine .inl ⟨?_, rfl⟩
    rw [row]
    exact List.mem_append.mp (List.mem_of_find?_eq_some found)
  · rename_i none
    split at done
    · cases done
    · rename_i free
      cases done
      refine .inr ⟨?_, rfl, rfl⟩
      intro o r row named
      cases o with
      | none =>
        have := List.find?_eq_none.mp none r (List.mem_append_left _ row)
        exact this (by simpa using named)
      | some b' => exact free ⟨b', r, row, named⟩

theorem Safe.entries_eq_zero (h : srv.Safe) (absent : srv.Absent hash128) :
    srv.shared.entries hash128 = 0 := by
  rw [SharedCache.entries_eq_zero_iff]
  intro id held
  obtain ⟨o, row⟩ := h.shared hash128 id held
  exact absent o _ row rfl

theorem Safe.insertRow (h : srv.Safe) (absent : srv.Absent hash128) :
    Extends b srv (srv.setBackend b { srv.backends b with
      current := { (srv.backends b).current with
        rows := ⟨hash128, id⟩ :: (srv.backends b).current.rows } }) ∧
    (srv.setBackend b { srv.backends b with
      current := { (srv.backends b).current with
        rows := ⟨hash128, id⟩ :: (srv.backends b).current.rows } }).Visible b ⟨hash128, id⟩ := by
  generalize state : srv.setBackend b { srv.backends b with
      current := { (srv.backends b).current with
        rows := ⟨hash128, id⟩ :: (srv.backends b).current.rows } } = srv'
  have grown : (srv'.backends b).uncommitted = ⟨hash128, id⟩ :: (srv.backends b).uncommitted := by
    rw [← state, setBackend_self]
    rfl
  have other {b' : Fin n} (hb : b' ≠ b) : srv'.backends b' = srv.backends b' := by
    rw [← state, setBackend_of_ne hb]
  have caches : (srv'.backends b).encodeCache = (srv.backends b).encodeCache ∧
      (srv'.backends b).txShmemInserts = (srv.backends b).txShmemInserts := by
    rw [← state, setBackend_self]
    exact ⟨rfl, rfl⟩
  have rows : srv'.rows = srv.rows := by rw [← state]; rfl
  have sharedSame : srv'.shared = srv.shared := by rw [← state]; rfl
  have vpSame : srv'.vp = srv.vp := by rw [← state]; rfl
  have split (o : Option (Fin n)) (r : DictRow) :
      srv'.RowOf o r ↔ srv.RowOf o r ∨ (o = some b ∧ r = ⟨hash128, id⟩) := by
    cases o with
    | none => simp [RowOf, rows]
    | some b' =>
      by_cases hb : b' = b
      · subst hb
        simp only [RowOf, grown, List.mem_cons, true_and]
        exact or_comm
      · simp [RowOf, other hb, hb]
  have mono (o : Option (Fin n)) (r : DictRow) (hr : srv.RowOf o r) : srv'.RowOf o r :=
    (split o r).mpr (.inl hr)
  have seen (b' : Fin n) (r : DictRow) (hr : srv.Visible b' r) : srv'.Visible b' r :=
    hr.imp (mono none r) (mono (some b') r)
  have safe : srv'.Safe := by
    refine ⟨?_, ?_, ?_, ?_, ?_, ?_, ?_⟩
    · intro o o' r r' hr hr' named
      cases (split o r).mp hr with
      | inl old =>
        cases (split o' r').mp hr' with
        | inl old' => exact h.unique o o' r r' old old' named
        | inr new' =>
          rw [new'.2] at named
          exact absurd named (absent o r old)
      | inr new =>
        cases (split o' r').mp hr' with
        | inl old' =>
          rw [new.2] at named
          exact absurd named.symm (absent o' r' old')
        | inr new' => exact ⟨new.1.trans new'.1.symm, new.2.trans new'.2.symm⟩
    · intro hash' id' held
      rw [sharedSame] at held
      obtain ⟨o, row⟩ := h.shared hash' id' held
      exact ⟨o, mono o _ row⟩
    · rw [sharedSame]
      exact h.idle
    · intro b' r hr
      rw [sharedSame]
      cases (split (some b') r).mp hr with
      | inl old =>
        have before := h.counted b' r old
        by_cases hb : b' = b
        · subst hb
          rwa [caches.2]
        · rwa [other hb]
      | inr new =>
        rw [new.2, h.entries_eq_zero absent]
        exact Nat.zero_le _
    · intro b' e he
      apply seen
      by_cases hb : b' = b
      · subst hb
        rw [caches.1] at he
        exact h.cached b' e he
      · rw [other hb] at he
        exact h.cached b' e he
    · intro b'
      rw [rows]
      by_cases hb : b' = b
      · subst hb
        have nested := h.nested b'
        rw [← state, setBackend_self]
        refine ⟨?_, nested.2⟩
        intro ids hids
        refine (nested.1 ids hids).mono ?_
        intro r hr
        simp only [List.flatMap_cons, List.mem_append, List.mem_cons] at hr ⊢
        exact hr.imp_right (Or.imp_left .inr)
      · rw [other hb]
        exact h.nested b'
    · rw [vpSame, rows]
      exact h.vp
  refine ⟨⟨safe, seen b, ?_⟩, .inr ((split (some b) _).mpr (.inr ⟨rfl, rfl⟩))⟩
  intro hash' clear b' hb r hr named held
  rw [other hb] at hr
  rw [sharedSame] at held
  exact clear b' hb r hr named held

/-- The identity sequence is of no concern to the caches. -/
theorem Safe.setNextId (h : srv.Safe) {i : Int} : Extends b srv { srv with nextId := i } where
  safe := ⟨h.unique, h.shared, h.idle, h.counted, h.cached, h.nested, h.vp⟩
  visible _ := id
  clear _ := id

theorem Safe.upsert {srv' : Server n} (h : srv.Safe)
    (done : srv.upsert b hash128 = some (id, srv')) :
    Extends b srv srv' ∧ srv'.Visible b ⟨hash128, id⟩ := by
  have drawn : Extends b srv { srv with nextId := srv.nextId + 1 } := h.setNextId
  obtain ⟨row, rfl⟩ | ⟨absent, -, rfl⟩ := upsert_cases done
  · exact ⟨drawn, row⟩
  · exact ⟨drawn.trans (drawn.safe.insertRow absent).1, (drawn.safe.insertRow absent).2⟩

theorem Safe.encodeInner {srv' : Server n} (h : srv.Safe) (clear : srv.Clear b hash128)
    (done : srv.encodeInner b hash128 = some (id, srv')) :
    Extends b srv srv' ∧ srv'.Visible b ⟨hash128, id⟩ := by
  obtain ⟨looked, answer⟩ := h.lookup (b := b) clear
  rw [Server.encodeInner] at done
  split at done
  · rename_i id' srv₁ found
    cases done
    rw [found] at looked answer
    exact ⟨looked, looked.visible _ (answer id rfl)⟩
  · rename_i srv₁ found
    rw [found] at looked
    obtain ⟨⟨id', srv₂⟩, upserted, done⟩ := Option.bind_eq_some_iff.mp done
    cases done
    obtain ⟨inserted, row⟩ := looked.safe.upsert upserted
    have published := inserted.safe.publish row
    exact ⟨(looked.trans inserted).trans published, published.visible _ row⟩

/-- The ids that go with some hashes are those of visible rows. -/
def Answered (srv : Server n) (b : Fin n) (answers : List (Hash × Int)) : Prop :=
  ∀ a ∈ answers, srv.Visible b ⟨a.1, a.2⟩

theorem answered_nil : srv.Answered b [] := by
  intro a ha
  cases ha

theorem Extends.answered {srv' : Server n} {answers : List (Hash × Int)}
    (h : Extends b srv srv') (before : srv.Answered b answers) : srv'.Answered b answers :=
  fun a ha => h.visible _ (before a ha)

theorem Safe.encodeEach {hs : List Hash} {ids : List Int} {srv' : Server n} (h : srv.Safe)
    (clear : ∀ hash128 ∈ hs, srv.Clear b hash128)
    (done : Server.encodeEach b hs srv = some (ids, srv')) :
    Extends b srv srv' ∧ srv'.Answered b (hs.zip ids) ∧ hs.length = ids.length := by
  induction hs generalizing srv ids with
  | nil =>
    cases done
    exact ⟨.refl h, answered_nil, rfl⟩
  | cons hash128 hs ih =>
    obtain ⟨⟨id, srv₁⟩, first, done⟩ := Option.bind_eq_some_iff.mp done
    obtain ⟨⟨rest, srv₂⟩, later, done⟩ := Option.bind_eq_some_iff.mp done
    cases done
    obtain ⟨encoded, row⟩ := h.encodeInner (clear hash128 List.mem_cons_self) first
    obtain ⟨others, answered, length⟩ := ih encoded.safe
      (fun other ho => encoded.clear other (clear other (List.mem_cons_of_mem _ ho))) later
    refine ⟨encoded.trans others, ?_, congrArg Nat.succ length⟩
    intro a ha
    cases List.mem_cons.mp ha with
    | inl new =>
      rw [new]
      exact others.visible _ row
    | inr old => exact answered a old

/-- The cache hits of a batch. -/
def hits (found : List (Hash × Option Int)) : List (Hash × Int) :=
  found.filterMap fun f => f.2.map fun id => (f.1, id)

theorem Safe.lookupAll {hs : List Hash} (h : srv.Safe)
    (clear : ∀ hash128 ∈ hs, srv.Clear b hash128) :
    Extends b srv (Server.lookupAll b hs srv).2 ∧
      (Server.lookupAll b hs srv).2.Answered b (hits (Server.lookupAll b hs srv).1) ∧
      (Server.lookupAll b hs srv).1.map Prod.fst = hs := by
  induction hs generalizing srv with
  | nil => exact ⟨.refl h, answered_nil, rfl⟩
  | cons hash128 hs ih =>
    obtain ⟨looked, answer⟩ := h.lookup (clear hash128 List.mem_cons_self)
    obtain ⟨others, answered, order⟩ := ih looked.safe
      (fun other ho => looked.clear other (clear other (List.mem_cons_of_mem _ ho)))
    refine ⟨looked.trans others, ?_, ?_⟩
    · intro a ha
      simp only [Server.lookupAll, hits, List.filterMap_cons] at ha
      split at ha
      · exact answered a ha
      · rename_i hit same
        obtain ⟨id, found, rfl⟩ := Option.map_eq_some_iff.mp same
        cases List.mem_cons.mp ha with
        | inl new =>
          rw [new]
          exact (looked.trans others).visible _ (answer id found)
        | inr old => exact answered a old
    · simp only [Server.lookupAll, List.map_cons, order]

theorem Safe.upsertMisses {found : List (Hash × Option Int)} {misses : List (Hash × Int)}
    {srv' : Server n} (h : srv.Safe)
    (done : Server.upsertMisses b found srv = some (misses, srv')) :
    Extends b srv srv' ∧ srv'.Answered b misses := by
  induction found generalizing srv misses with
  | nil =>
    cases done
    exact ⟨.refl h, answered_nil⟩
  | cons f found ih =>
    obtain ⟨hash128, answer⟩ := f
    cases answer with
    | some id => exact ih h done
    | none =>
      obtain ⟨⟨id, srv₁⟩, first, done⟩ := Option.bind_eq_some_iff.mp done
      obtain ⟨⟨rest, srv₂⟩, later, done⟩ := Option.bind_eq_some_iff.mp done
      cases done
      obtain ⟨upserted, row⟩ := h.upsert first
      obtain ⟨others, answered⟩ := ih upserted.safe later
      refine ⟨upserted.trans others, ?_⟩
      intro a ha
      cases List.mem_cons.mp ha with
      | inl new =>
        rw [new]
        exact others.visible _ row
      | inr old => exact answered a old

theorem Safe.publishAll {misses : List (Hash × Int)} (h : srv.Safe)
    (answered : srv.Answered b misses) :
    Extends b srv (misses.foldl (fun srv miss => srv.publish b miss.1 miss.2) srv) := by
  induction misses generalizing srv with
  | nil => exact .refl h
  | cons miss misses ih =>
    have first := h.publish (answered miss List.mem_cons_self)
    refine first.trans (ih first.safe ?_)
    exact first.answered fun a ha => answered a (List.mem_cons_of_mem _ ha)

/-- The answers of a batch are its hits and its misses. -/
theorem mem_zip_batchResults {found : List (Hash × Option Int)} {misses : List (Hash × Int)}
    {srv srv' : Server n} (done : Server.upsertMisses b found srv = some (misses, srv'))
    {a : Hash × Int} (ha : a ∈ (found.map Prod.fst).zip (batchResults found misses)) :
    a ∈ hits found ∨ a ∈ misses := by
  induction found generalizing srv misses with
  | nil => cases ha
  | cons f found ih =>
    obtain ⟨hash128, answer⟩ := f
    cases answer with
    | some id =>
      cases List.mem_cons.mp ha with
      | inl new => exact .inl (new ▸ List.mem_cons_self)
      | inr old => exact (ih done old).imp_left (List.mem_cons_of_mem _)
    | none =>
      obtain ⟨⟨id, srv₁⟩, first, done⟩ := Option.bind_eq_some_iff.mp done
      obtain ⟨⟨rest, srv₂⟩, later, done⟩ := Option.bind_eq_some_iff.mp done
      cases done
      cases List.mem_cons.mp ha with
      | inl new => exact .inr (new ▸ List.mem_cons_self)
      | inr old => exact (ih later old).imp_right (List.mem_cons_of_mem _)

theorem Safe.encodeBatch {hs : List Hash} {ids : List Int} {srv' : Server n} (h : srv.Safe)
    (clear : ∀ hash128 ∈ hs, srv.Clear b hash128)
    (done : srv.encodeBatch b hs = some (ids, srv')) :
    Extends b srv srv' ∧ srv'.Answered b (hs.zip ids) := by
  obtain ⟨looked, hit, order⟩ := h.lookupAll clear
  rw [Server.encodeBatch] at done
  dsimp only at done
  split at done
  case isFalse => cases done
  obtain ⟨⟨misses, srv₁⟩, upserted, done⟩ := Option.bind_eq_some_iff.mp done
  cases done
  obtain ⟨inserted, missed⟩ := looked.safe.upsertMisses upserted
  have published := inserted.safe.publishAll missed
  refine ⟨(looked.trans inserted).trans published, ?_⟩
  intro a ha
  have inOrder : a ∈ ((Server.lookupAll b hs srv).1.map Prod.fst).zip
      (batchResults (Server.lookupAll b hs srv).1 misses) := by
    rw [order]
    exact ha
  cases mem_zip_batchResults upserted inOrder with
  | inl fromCache => exact (inserted.trans published).answered hit a fromCache
  | inr fromTable => exact published.answered missed a fromTable

/-- Where a row lies after one backend was replaced. -/
theorem rowOf_setBackend {o : Option (Fin n)} :
    (srv.setBackend b be).RowOf o r ↔
      if o = some b then r ∈ be.uncommitted else srv.RowOf o r := by
  cases o with
  | none => exact Iff.rfl
  | some b' =>
    by_cases hb : b' = b
    · subst hb
      rw [if_pos rfl, RowOf, setBackend_self]
    · rw [if_neg (fun same => hb (Option.some.inj same)), RowOf, setBackend_of_ne hb, RowOf]

/-- The levels of a backend are arranged differently, with the same dictionary rows. -/
theorem Safe.setLevels (h : srv.Safe) (rows : be.uncommitted = (srv.backends b).uncommitted)
    (cache : be.encodeCache = (srv.backends b).encodeCache)
    (noted : be.txShmemInserts = (srv.backends b).txShmemInserts)
    (nested : Scoped srv.rows be.levels) : (srv.setBackend b be).Safe := by
  have same (o : Option (Fin n)) (r : DictRow) :
      (srv.setBackend b be).RowOf o r ↔ srv.RowOf o r := by
    rw [rowOf_setBackend]
    split
    · rename_i owner
      rw [owner, RowOf, rows]
    · exact Iff.rfl
  have kept (b' : Fin n) :
      ((srv.setBackend b be).backends b').encodeCache = (srv.backends b').encodeCache ∧
      ((srv.setBackend b be).backends b').txShmemInserts = (srv.backends b').txShmemInserts := by
    by_cases hb : b' = b
    · subst hb
      rw [setBackend_self]
      exact ⟨cache, noted⟩
    · rw [setBackend_of_ne hb]
      exact ⟨rfl, rfl⟩
  refine h.of_rowOf same h.shared h.idle ?_ ?_ ?_ rfl
  · intro b' r hr
    rw [(kept b').2]
    exact h.counted b' r hr
  · intro b' e he
    rw [(kept b').1] at he
    exact h.cached b' e he
  · intro b'
    by_cases hb : b' = b
    · subst hb
      rw [setBackend_self]
      exact nested
    · rw [setBackend_of_ne hb]
      exact h.nested b'

theorem backed_of_answered {hs : List Hash} {ids : List Int} (length : hs.length = ids.length)
    (answered : srv.Answered b (hs.zip ids)) : Backed srv.rows (srv.backends b).levels ids := by
  intro id hid
  have named : id ∈ (hs.zip ids).map Prod.snd := by
    rw [List.map_snd_zip (Nat.le_of_eq length.symm)]
    exact hid
  obtain ⟨a, ha, rfl⟩ := List.mem_map.mp named
  exact ⟨⟨a.1, a.2⟩, List.mem_append.mpr (answered a ha), rfl⟩

theorem Safe.insertVp {ids : List Int} (h : srv.Safe)
    (backed : Backed srv.rows (srv.backends b).levels ids) : (srv.insertVp b ids).Safe := by
  have nested := h.nested b
  refine h.setLevels rfl rfl rfl ⟨?_, nested.2⟩
  intro ids' hids
  cases List.mem_cons.mp hids with
  | inl new =>
    rw [new]
    exact backed
  | inr old => exact nested.1 ids' old

theorem Safe.savepoint (h : srv.Safe) : (srv.savepoint b).Safe := by
  refine h.setLevels rfl rfl rfl ⟨?_, h.nested b⟩
  intro ids hids
  cases hids

theorem Safe.release {srv' : Server n} (h : srv.Safe) (done : srv.release b = some srv') :
    srv'.Safe := by
  have nested := h.nested b
  simp only [Server.release] at done
  split at done
  · cases done
  · rename_i enclosing outer found
    cases done
    have before : (srv.backends b).levels = (srv.backends b).current :: enclosing :: outer := by
      rw [Backend.levels, found]
    rw [before] at nested
    refine h.setLevels ?_ rfl rfl ⟨?_, nested.2.2⟩
    · rw [Backend.uncommitted, Backend.uncommitted, before]
      simp [Backend.levels]
    · intro ids hids
      have level : Backed srv.rows ((srv.backends b).current :: enclosing :: outer) ids := by
        cases List.mem_append.mp hids with
        | inl inner => exact nested.1 ids inner
        | inr outside =>
          refine (nested.2.1 ids outside).mono ?_
          intro r hr
          simp only [List.flatMap_cons, List.mem_append] at hr ⊢
          exact hr.imp_right .inr
      refine level.mono ?_
      intro r hr
      simpa [or_assoc] using hr

/-- A subtransaction whose rows are not in the shared cache can be undone. -/
theorem Safe.abortSub {srv' : Server n} (h : srv.Safe)
    (unpublished : ∀ r ∈ (srv.backends b).current.rows, ¬ srv.shared.Holds r.hash r.id)
    (done : srv.abortSub b = some srv') : srv'.Safe := by
  have nested := h.nested b
  simp only [Server.abortSub] at done
  split at done
  · cases done
  · rename_i enclosing outer found
    cases done
    have before : (srv.backends b).levels = (srv.backends b).current :: enclosing :: outer := by
      rw [Backend.levels, found]
    rw [before] at nested
    generalize state : srv.setBackend b { srv.backends b with
      current := enclosing, outer := outer, encodeCache := [] } = srv'
    have split (o : Option (Fin n)) (r : DictRow) : srv.RowOf o r ↔
        srv'.RowOf o r ∨ (o = some b ∧ r ∈ (srv.backends b).current.rows) := by
      rw [← state, rowOf_setBackend]
      split
      · rename_i owner
        rw [owner, RowOf, Backend.uncommitted, before, Backend.uncommitted, Backend.levels]
        simp only [List.flatMap_cons, List.mem_append, true_and]
        exact or_comm
      · rename_i other
        simp [other]
    have kept (b' : Fin n) (hb : b' ≠ b) : srv'.backends b' = srv.backends b' := by
      rw [← state, setBackend_of_ne hb]
    refine ⟨?_, ?_, ?_, ?_, ?_, ?_, ?_⟩
    · intro o o' r r' hr hr'
      exact h.unique o o' r r' ((split o r).mpr (.inl hr)) ((split o' r').mpr (.inl hr'))
    · intro hash128 id held
      have held : srv.shared.Holds hash128 id := by
        rw [← state] at held
        exact held
      obtain ⟨o, row⟩ := h.shared hash128 id held
      refine ⟨o, ((split o _).mp row).resolve_right ?_⟩
      intro undone
      exact unpublished _ undone.2 held
    · rw [← state]
      exact h.idle
    · intro b' r hr
      have counted := h.counted b' r ((split (some b') r).mpr (.inl hr))
      rw [← state] at hr ⊢
      by_cases hb : b' = b
      · subst hb
        rw [setBackend_self]
        exact counted
      · rw [setBackend_of_ne hb]
        exact counted
    · intro b' e he
      by_cases hb : b' = b
      · subst hb
        rw [← state, setBackend_self] at he
        cases he
      · rw [kept b' hb] at he
        refine (h.cached b' e he).imp ?_ ?_
        · intro row
          refine ((split none _).mp row).resolve_right ?_
          intro undone
          cases undone.1
        · intro row
          refine ((split (some b') _).mp row).resolve_right ?_
          intro undone
          exact hb (Option.some.inj undone.1)
    · intro b'
      by_cases hb : b' = b
      · subst hb
        rw [← state, setBackend_self]
        exact nested.2
      · rw [kept b' hb, ← state]
        exact h.nested b'
    · rw [← state]
      exact h.vp

/-- Everything that the levels of a transaction hold is committed. -/
theorem Scoped.backed {committed : List DictRow} {levels : List Level}
    (h : Scoped committed levels) {ids : List Int} (hids : ids ∈ levels.flatMap Level.vp) :
    Backed committed levels ids := by
  induction levels with
  | nil => cases hids
  | cons l ls ih =>
    cases List.mem_append.mp hids with
    | inl here => exact h.1 ids here
    | inr outside =>
      refine (ih h.2 outside).mono ?_
      intro r hr
      simp only [List.flatMap_cons, List.mem_append] at hr ⊢
      exact hr.imp_right .inr

theorem Safe.commit (h : srv.Safe) : (srv.commit b).Safe := by
  generalize state : srv.commit b = srv'
  have rows : srv'.rows = (srv.backends b).uncommitted ++ srv.rows := by rw [← state]; rfl
  have self : srv'.backends b =
      { srv.backends b with current := .empty, outer := [], txShmemInserts := [] } := by
    rw [← state, Server.commit, setBackend_self]
  have kept (b' : Fin n) (hb : b' ≠ b) : srv'.backends b' = srv.backends b' := by
    rw [← state, Server.commit, setBackend_of_ne hb]
  have sharedSame : srv'.shared = srv.shared := by rw [← state]; rfl
  have vp : srv'.vp = (srv.backends b).levels.flatMap Level.vp ++ srv.vp := by rw [← state]; rfl
  -- a row keeps its owner, except that `b`'s become committed
  have owner (o : Option (Fin n)) (r : DictRow) : srv.RowOf o r →
      srv'.RowOf (if o = some b then none else o) r := by
    intro row
    cases o with
    | none =>
      rw [if_neg (by simp), RowOf, rows]
      exact List.mem_append_right _ row
    | some b' =>
      by_cases hb : b' = b
      · subst hb
        rw [if_pos rfl, RowOf, rows]
        exact List.mem_append_left _ row
      · rw [if_neg (fun same => hb (Option.some.inj same)), RowOf, kept b' hb]
        exact row
  have origin (o : Option (Fin n)) (r : DictRow) (row : srv'.RowOf o r) :
      ∃ o', srv.RowOf o' r ∧ o = if o' = some b then none else o' := by
    cases o with
    | none =>
      rw [RowOf, rows] at row
      cases List.mem_append.mp row with
      | inl own => exact ⟨some b, own, by simp⟩
      | inr committed => exact ⟨none, committed, by simp⟩
    | some b' =>
      by_cases hb : b' = b
      · subst hb
        rw [RowOf, self] at row
        cases row
      · rw [RowOf, kept b' hb] at row
        exact ⟨some b', row, by simp [hb]⟩
  have committed (r : DictRow) (row : r ∈ srv.rows) : r ∈ srv'.rows := by
    rw [rows]
    exact List.mem_append_right _ row
  have all (r : DictRow) (row : r ∈ srv.rows ++ (srv.backends b).levels.flatMap Level.rows) :
      r ∈ srv'.rows ++ List.flatMap Level.rows [] := by
    rw [rows, List.flatMap_nil, List.append_nil]
    exact List.mem_append.mpr (List.mem_append.mp row).symm
  refine ⟨?_, ?_, ?_, ?_, ?_, ?_, ?_⟩
  · intro o o' r r' hr hr' named
    obtain ⟨o₁, row, rfl⟩ := origin o r hr
    obtain ⟨o₁', row', rfl⟩ := origin o' r' hr'
    obtain ⟨sameOwner, sameRow⟩ := h.unique o₁ o₁' r r' row row' named
    exact ⟨by rw [sameOwner], sameRow⟩
  · intro hash128 id held
    rw [sharedSame] at held
    obtain ⟨o, row⟩ := h.shared hash128 id held
    exact ⟨_, owner o _ row⟩
  · rw [sharedSame]
    exact h.idle
  · intro b' r hr
    by_cases hb : b' = b
    · subst hb
      rw [self] at hr
      cases hr
    · rw [kept b' hb] at hr ⊢
      rw [sharedSame]
      exact h.counted b' r hr
  · intro b' e he
    by_cases hb : b' = b
    · subst hb
      rw [self] at he
      have row := h.cached b' e he
      refine .inl ?_
      rw [RowOf, rows]
      exact List.mem_append.mpr row.symm
    · rw [kept b' hb] at he
      refine (h.cached b' e he).imp ?_ ?_
      · exact committed _
      · intro row
        rw [RowOf, kept b' hb]
        exact row
  · intro b'
    by_cases hb : b' = b
    · subst hb
      rw [self]
      refine ⟨?_, trivial⟩
      intro ids hids
      cases hids
    · rw [kept b' hb]
      exact (h.nested b').mono committed
  · intro ids hids
    rw [vp] at hids
    cases List.mem_append.mp hids with
    | inl own => exact ((h.nested b).backed own).mono all
    | inr old =>
      refine (h.vp ids old).mono ?_
      simp only [List.flatMap_nil, List.append_nil]
      exact committed

theorem Safe.abort (h : srv.Safe) : (srv.abort b).Safe := by
  generalize state : srv.abort b = srv'
  have sharedAfter : srv'.shared =
      (srv.backends b).txShmemInserts.reverse.foldl SharedCache.evict srv.shared := by
    rw [← state]
    rfl
  have rows : srv'.rows = srv.rows := by rw [← state]; rfl
  have vp : srv'.vp = srv.vp := by rw [← state]; rfl
  have self : srv'.backends b = .fresh := by rw [← state, Server.abort, setBackend_self]
  have kept (b' : Fin n) (hb : b' ≠ b) : srv'.backends b' = srv.backends b' := by
    rw [← state, Server.abort, setBackend_of_ne hb]
  have split (o : Option (Fin n)) (r : DictRow) :
      srv'.RowOf o r ↔ srv.RowOf o r ∧ o ≠ some b := by
    cases o with
    | none => simp [RowOf, rows]
    | some b' =>
      by_cases hb : b' = b
      · subst hb
        rw [RowOf, self]
        simp [Backend.fresh, Backend.uncommitted, Backend.levels, Level.empty]
      · simp [RowOf, kept b' hb, hb]
  -- what the transaction has published is no longer there
  have gone {r : DictRow} (row : srv.RowOf (some b) r) : srv'.shared.entries r.hash = 0 := by
    have counted := h.counted b r row
    cases ready : srv.shared.ready with
    | false =>
      have idle := h.idle ready r.hash
      have less : ((srv.backends b).txShmemInserts.reverse.foldl SharedCache.evict
          srv.shared).entries r.hash ≤ srv.shared.entries r.hash := SharedCache.entries_evictAll_le
      rw [sharedAfter]
      omega
    | true =>
      have less : ((srv.backends b).txShmemInserts.reverse.foldl SharedCache.evict
          srv.shared).entries r.hash ≤ srv.shared.entries r.hash -
            (srv.backends b).txShmemInserts.reverse.count r.hash :=
        SharedCache.entries_evictAll ready
      rw [List.count_reverse] at less
      rw [sharedAfter]
      omega
  refine ⟨?_, ?_, ?_, ?_, ?_, ?_, ?_⟩
  · intro o o' r r' hr hr'
    exact h.unique o o' r r' ((split o r).mp hr).1 ((split o' r').mp hr').1
  · intro hash128 id held
    have before : srv.shared.Holds hash128 id := by
      rw [sharedAfter] at held
      exact SharedCache.holds_evictAll held
    obtain ⟨o, row⟩ := h.shared hash128 id before
    refine ⟨o, (split o _).mpr ⟨row, ?_⟩⟩
    intro own
    rw [own] at row
    exact SharedCache.entries_eq_zero_iff.mp (gone row) id held
  · intro idle hash128
    rw [sharedAfter] at idle ⊢
    have before := h.idle (SharedCache.ready_evictAll.symm.trans idle) hash128
    exact Nat.le_zero.mp (before ▸ SharedCache.entries_evictAll_le)
  · intro b' r hr
    by_cases hb : b' = b
    · subst hb
      rw [self] at hr
      cases hr
    · rw [kept b' hb] at hr ⊢
      refine Nat.le_trans ?_ (h.counted b' r hr)
      rw [sharedAfter]
      exact SharedCache.entries_evictAll_le
  · intro b' e he
    by_cases hb : b' = b
    · subst hb
      rw [self] at he
      cases he
    · rw [kept b' hb] at he
      refine (h.cached b' e he).imp ?_ ?_
      · intro row
        exact (split none _).mpr ⟨row, by simp⟩
      · intro row
        exact (split (some b') _).mpr ⟨row, fun same => hb (Option.some.inj same)⟩
  · intro b'
    rw [rows]
    by_cases hb : b' = b
    · subst hb
      rw [self]
      refine ⟨?_, trivial⟩
      intro ids hids
      cases hids
    · rw [kept b' hb]
      exact h.nested b'
  · rw [vp, rows]
    exact h.vp

/-- The call meets neither of the two situations. -/
def Undisturbed (srv : Server n) : Fin n × Call → Prop
  | (b, .encode hash128) => srv.Clear b hash128
  | (b, .encodeBatch hs) => ∀ hash128 ∈ hs, srv.Clear b hash128
  | (b, .insertTriple hs) => ∀ hash128 ∈ hs, srv.Clear b hash128
  | (b, .abortSub) => ∀ r ∈ (srv.backends b).current.rows, ¬ srv.shared.Holds r.hash r.id
  | _ => True

/-- Every id that the call returns is that of a row for its term, committed or of the
same transaction. -/
def AnswersWell (srv : Server n) (event : Fin n × Call) : Prop :=
  ∀ answers srv', srv.perform event.1 event.2 = some (answers, srv') →
    srv'.Answered event.1 answers

/-- Committed VP rows refer to committed dictionary rows. -/
def NoDangling (srv : Server n) : Prop := ∀ ids ∈ srv.vp, ∀ id ∈ ids, ∃ r ∈ srv.rows, r.id = id

/-- An undisturbed call keeps the invariant and answers well. -/
theorem Safe.perform {event : Fin n × Call} {answers : List (Hash × Int)} {srv' : Server n}
    (h : srv.Safe) (undisturbed : srv.Undisturbed event)
    (done : srv.perform event.1 event.2 = some (answers, srv')) :
    srv'.Safe ∧ srv'.Answered event.1 answers := by
  obtain ⟨b, call⟩ := event
  cases call with
  | encode hash128 =>
    obtain ⟨⟨id, srv₁⟩, encoded, done⟩ := Option.map_eq_some_iff.mp done
    cases done
    obtain ⟨extended, row⟩ := h.encodeInner undisturbed encoded
    refine ⟨extended.safe, ?_⟩
    intro a ha
    rw [List.mem_singleton.mp ha]
    exact row
  | encodeBatch hs =>
    obtain ⟨⟨ids, srv₁⟩, encoded, done⟩ := Option.map_eq_some_iff.mp done
    cases done
    obtain ⟨extended, answered⟩ := h.encodeBatch undisturbed encoded
    exact ⟨extended.safe, answered⟩
  | insertTriple hs =>
    obtain ⟨⟨ids, srv₁⟩, encoded, done⟩ := Option.map_eq_some_iff.mp done
    cases done
    obtain ⟨extended, answered, length⟩ := h.encodeEach undisturbed encoded
    refine ⟨extended.safe.insertVp (backed_of_answered length answered), ?_⟩
    intro a ha
    refine (answered a ha).imp ?_ ?_
    · intro row
      exact row
    · intro row
      rw [RowOf, Server.insertVp, setBackend_self]
      exact row
  | savepoint =>
    cases done
    exact ⟨h.savepoint, answered_nil⟩
  | release =>
    obtain ⟨srv₁, released, done⟩ := Option.map_eq_some_iff.mp done
    cases done
    exact ⟨h.release released, answered_nil⟩
  | abortSub =>
    obtain ⟨srv₁, aborted, done⟩ := Option.map_eq_some_iff.mp done
    cases done
    exact ⟨h.abortSub undisturbed aborted, answered_nil⟩
  | commit =>
    cases done
    exact ⟨h.commit, answered_nil⟩
  | abort =>
    cases done
    exact ⟨h.abort, answered_nil⟩

theorem Safe.noDangling (h : srv.Safe) : srv.NoDangling := by
  intro ids hids id hid
  obtain ⟨r, hr, same⟩ := h.vp ids hids id hid
  exact ⟨r, by simpa using hr, same⟩

theorem safe_initial {ready : Bool} {dbOid : BitVec 32} : (initial n ready dbOid).Safe := by
  have noRow (o : Option (Fin n)) (r : DictRow) : ¬ (initial n ready dbOid).RowOf o r := by
    cases o with
    | none => exact List.not_mem_nil
    | some b => exact List.not_mem_nil
  have noEntry (hash128 : Hash) (id : Int) :
      ¬ (initial n ready dbOid).shared.Holds hash128 id := SharedCache.not_holds_initial
  refine ⟨?_, ?_, ?_, ?_, ?_, ?_, ?_⟩
  · intro o o' r r' hr
    exact absurd hr (noRow o r)
  · intro hash128 id held
    exact absurd held (noEntry hash128 id)
  · intro _ hash128
    rw [SharedCache.entries_eq_zero_iff]
    exact noEntry hash128
  · intro b r hr
    exact absurd hr (noRow (some b) r)
  · intro b e he
    cases he
  · intro b
    refine ⟨?_, trivial⟩
    intro ids hids
    cases hids
  · intro ids hids
    cases hids

/-- In every interleaving in which no backend encodes a term that another open
transaction has published, and no subtransaction aborts while the shared cache holds
one of its rows, every call answers well and no committed VP row dangles. -/
theorem ids_haveRows {ready : Bool} {dbOid : BitVec 32} {events : List (Fin n × Call)}
    (undisturbed : Run.Along step Undisturbed (initial n ready dbOid) events) :
    Run.Along step AnswersWell (initial n ready dbOid) events ∧
      ∀ srv, Run.exec step (initial n ready dbOid) events = some srv → srv.NoDangling := by
  have keeps (srv : Server n) (event : Fin n × Call) (srv' : Server n) (h : srv.Safe)
      (free : srv.Undisturbed event) (stepped : srv.step event = some srv') : srv'.Safe := by
    obtain ⟨⟨answers, srv₁⟩, done, rfl⟩ := Option.map_eq_some_iff.mp stepped
    exact (h.perform free done).1
  constructor
  · refine Run.along_of_invariant keeps ?_ safe_initial undisturbed
    intro srv event h free answers srv' done
    exact (h.perform free done).2
  · intro srv executed
    exact (Run.exec_invariant keeps safe_initial undisturbed executed).noDangling

instance (srv : Server n) (b : Fin n) (hash128 : Hash) : Decidable (srv.Clear b hash128) :=
  inferInstanceAs (Decidable (∀ _, _))

instance (srv : Server n) : DecidablePred srv.Undisturbed := fun event =>
  match event with
  | (b, .encode hash128) => inferInstanceAs (Decidable (srv.Clear b hash128))
  -- not by way of the finite type of hashes
  | (b, .encodeBatch hs) => List.decidableBAll (fun hash128 => srv.Clear b hash128) hs
  | (b, .insertTriple hs) => List.decidableBAll (fun hash128 => srv.Clear b hash128) hs
  | (b, .abortSub) => inferInstanceAs (Decidable (∀ r ∈ (srv.backends b).current.rows, _))
  | (_, .savepoint) => isTrue trivial
  | (_, .release) => isTrue trivial
  | (_, .commit) => isTrue trivial
  | (_, .abort) => isTrue trivial

/-- Two backends load data; one of them gives up, and the other uses its terms later. -/
def loading : List (Fin 2 × Call) := [
  (0, .insertTriple [1, 2, 3]), (0, .savepoint), (1, .insertTriple [4, 5, 6]), (0, .release),
  (0, .commit), (1, .encodeBatch [1, 7, 7]), (1, .abort), (0, .insertTriple [4, 2, 7]),
  (0, .commit)]

theorem ids_haveRows_loading :
    Run.Along step AnswersWell (initial 2 true 5) loading ∧
      ∀ srv, Run.exec step (initial 2 true 5) loading = some srv → srv.NoDangling :=
  ids_haveRows (by decide +kernel)

/-- A backend uses a term that another one has published, and commits; the other
aborts. -/
theorem not_ids_haveRows :
    ¬ ∀ (n : Nat) (ready : Bool) (dbOid : BitVec 32) (events : List (Fin n × Call)),
      Run.Along step AnswersWell (initial n ready dbOid) events ∧
        ∀ srv, Run.exec step (initial n ready dbOid) events = some srv → srv.NoDangling := by
  intro promised
  have runs : (Run.exec step (initial 2 true 5)
      [(0, .insertTriple [1, 2, 3]), (1, .insertTriple [1, 2, 4]), (1, .commit),
        (0, .abort)]).any (fun srv => decide (¬ ∀ ids ∈ srv.vp, ∀ id ∈ ids,
          ∃ r ∈ srv.rows, r.id = id)) = true := by
    decide +kernel
  obtain ⟨srv, executed, dangling⟩ := (Option.any_eq_true _ _).mp runs
  exact of_decide_eq_true dangling ((promised 2 true 5 _).2 srv executed)

end Server

end PgRipple.Dictionary
