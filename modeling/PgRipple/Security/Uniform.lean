import PgRipple.Security.Rls
import PgRipple.Lib.Run
import Mathlib.Logic.Equiv.List
import Mathlib.Data.Fintype.EquivFin

/-!
# The graphs that a role can read

`Grants` is what the two interfaces are for: a grant stands until it is revoked through the
interface that made it. After `enable_graph_rls` a role should read, in every table, the
default graph and the graphs granted to it.

On `vp_rare` this holds as long as the names of policies are kept apart. The tables of a
dedicated predicate never have a policy: a role reads either all graphs or none of them.
-/

namespace PgRipple.Security

open Storage
open Dictionary (Text)

/-- The grants of each interface that stand. -/
structure Grants where
  byAccess : List (Text × TermId)
  byPermission : List AccessRow

/-- The effect of a call that returned. -/
def Grants.apply (server : Server) (grants : Grants) : Call → Grants
  | .grantGraphAccess iri role _ =>
    { grants with byAccess := grants.byAccess ++ [(role, server.encode iri)] }
  | .revokeGraphAccess iri role =>
    { grants with byAccess := grants.byAccess.filter fun x => x ≠ (role, server.encode iri) }
  | .grantGraphPermission role graph permission =>
    { grants with
      byPermission :=
        grants.byPermission ++ [⟨role, server.encode (stripAngleBrackets graph), permission⟩] }
  | .revokeGraphPermission role graph permission =>
    let g := server.encode (stripAngleBrackets graph)
    { grants with byPermission := grants.byPermission.filter fun r => !r.revokedBy role g permission
    }
  | .enableGraphRls => grants
  | .storage _ => grants

/-- The graph is granted to the role. -/
def Grants.Granted (grants : Grants) (role : Text) (g : TermId) : Prop :=
  (role, g) ∈ grants.byAccess ∨ ∃ permission, ⟨role, g, permission⟩ ∈ grants.byPermission

/-- The database and the grants that stand. -/
structure Audited where
  sys : System
  grants : Grants

def Audited.initial : Audited := ⟨.initial, ⟨[], []⟩⟩

/-- A call that ends with an error changes nothing. -/
def Audited.step (server : Server) (a : Audited) (call : Call) : Option Audited :=
  match a.sys.apply server call with
  | some sys => some ⟨sys, a.grants.apply server call⟩
  | none => some a

/-- A table shows the role the default graph and the granted ones. Ids of graphs are not
negative. -/
def Audited.Shows (a : Audited) (role : Text) (acl : TableAcl) : Prop :=
  ∀ g, 0 ≤ g → (acl.reads a.sys.access role g = true ↔ g = 0 ∨ a.grants.Granted role g)

/-- All tables show the same. -/
structure Audited.Uniform (a : Audited) (role : Text) : Prop where
  rare : a.Shows role a.sys.rare
  delta : ∀ p, a.sys.store.isDedicated p = true → a.Shows role (a.sys.tables p).delta
  main : ∀ p, a.sys.store.isDedicated p = true → a.Shows role (a.sys.tables p).main

/-- No policy on the tables of predicates. -/
def System.NoVpPolicies (sys : System) : Prop :=
  ∀ p, (sys.tables p).delta.policies = [] ∧ (sys.tables p).main.policies = []

section NoPolicies

variable {server : Server} {sys sys' : System} {acl acl' : TableAcl} {p : TermId}

theorem policies_attempt {policy : Policy}
    (h : server.attempt (createPolicyIfNotExists policy) acl = some acl') : acl' = acl := by
  simp only [Server.attempt, createPolicyIfNotExists] at h
  split at h
  · cases h
  · exact (Option.some.inj h).symm

theorem policies_applyRlsToVpTable {table : Text}
    (h : sys.applyRlsToVpTable server table acl = some acl') : acl'.policies = acl.policies := by
  rw [System.applyRlsToVpTable] at h
  split at h
  · have kept : ∀ (rows : List AccessRow) (acl acl' : TableAcl),
        rows.foldlM (fun acl r =>
          let command := if server.toUppercase r.permission = "SELECT".toList then Command.select
            else .all
          if isSafeRoleName r.roleName then
            server.attempt (createPolicyIfNotExists ⟨server.vpPolicyName table r.roleName r.graphId,
              command, some r.roleName, .graph r.graphId⟩) acl
          else some acl) acl = some acl' → acl' = acl := by
      intro rows
      induction rows with
      | nil =>
        intro acl acl' h
        exact (Option.some.inj h).symm
      | cons r rows ih =>
        intro acl acl' h
        rw [List.foldlM_cons] at h
        obtain ⟨mid, first, rest⟩ := Option.bind_eq_some_iff.mp h
        rw [ih mid acl' rest]
        simp only at first
        split at first
        · exact policies_attempt first
        · exact (Option.some.inj first).symm
    rw [kept _ _ _ h]
    rfl
  · rw [← Option.some.inj h]

theorem System.NoVpPolicies.setTables (h : sys.NoVpPolicies) {acl : PredicateAcl}
    (delta : acl.delta.policies = []) (main : acl.main.policies = []) :
    (sys.setTables p acl).NoVpPolicies := by
  intro p'
  simp only [System.setTables]
  split
  · exact ⟨delta, main⟩
  · exact h p'

theorem policies_applyRlsToPredicate {acl acl' : PredicateAcl}
    (h : sys.applyRlsToPredicate server p acl = some acl') :
    acl'.delta.policies = acl.delta.policies ∧ acl'.main.policies = acl.main.policies := by
  rw [System.applyRlsToPredicate] at h
  obtain ⟨delta, hdelta, h⟩ := Option.bind_eq_some_iff.mp h
  obtain ⟨main, hmain, h⟩ := Option.bind_eq_some_iff.mp h
  cases h
  exact ⟨policies_applyRlsToVpTable hdelta, policies_applyRlsToVpTable hmain⟩

theorem System.NoVpPolicies.promote (h : sys.NoVpPolicies)
    (promoted : sys.promote server p = some sys') : sys'.NoVpPolicies := by
  rw [System.promote] at promoted
  obtain ⟨created, hcreated, promoted⟩ := Option.bind_eq_some_iff.mp promoted
  obtain ⟨acl, applied, promoted⟩ := Option.bind_eq_some_iff.mp promoted
  cases promoted
  have none : created.delta.policies = [] ∧ created.main.policies = [] := by
    rw [System.ensuredTables] at hcreated
    split at hcreated
    · cases hcreated
      exact h p
    · obtain ⟨delta, main⟩ := policies_applyRlsToPredicate hcreated
      exact ⟨delta, main⟩
  obtain ⟨delta, main⟩ := policies_applyRlsToPredicate applied
  exact h.setTables (delta.trans none.1) (main.trans none.2)

theorem System.NoVpPolicies.replaceMain (h : sys.NoVpPolicies) (op : Op) :
    (sys.replaceMain op).NoVpPolicies := by
  cases op with
  | mergePredicate cfg p =>
    rw [System.replaceMain]
    split
    · exact h.setTables (h p).1 rfl
    · exact h
  | _ => exact h

theorem System.NoVpPolicies.applyRlsPolicyToAll (h : sys.NoVpPolicies) {g : TermId} {role : Text}
    {command : Command} (applied : sys.applyRlsPolicyToAll server g role command = some sys') :
    sys'.NoVpPolicies := by
  rw [System.applyRlsPolicyToAll] at applied
  generalize sys.store.dedicatedPredicates = preds at applied
  induction preds generalizing sys with
  | nil =>
    cases applied
    exact h
  | cons p preds ih =>
    rw [List.foldlM_cons] at applied
    obtain ⟨mid, first, rest⟩ := Option.bind_eq_some_iff.mp applied
    obtain ⟨delta, hdelta, first⟩ := Option.bind_eq_some_iff.mp first
    obtain ⟨main, hmain, first⟩ := Option.bind_eq_some_iff.mp first
    cases first
    refine ih (h.setTables ?_ ?_) rest
    · rw [policies_attempt hdelta]
      exact (h p).1
    · rw [policies_attempt hmain]
      exact (h p).2

theorem policies_drop_nil {name : Text} (h : acl.policies = []) :
    (acl.drop name).policies = [] := by
  rw [TableAcl.drop, h]
  rfl

/-- No call puts a policy on a table of a predicate. -/
theorem System.NoVpPolicies.apply (h : sys.NoVpPolicies) {call : Call}
    (applied : sys.apply server call = some sys') : sys'.NoVpPolicies := by
  cases call with
  | enableGraphRls =>
    cases applied
    exact h
  | grantGraphAccess iri role privilege =>
    simp only [System.apply, System.grantGraphAccess] at applied
    split at applied
    · obtain ⟨command, -, applied⟩ := Option.bind_eq_some_iff.mp applied
      obtain ⟨rare, -, applied⟩ := Option.bind_eq_some_iff.mp applied
      have kept : { sys with rare := rare }.NoVpPolicies := h
      exact kept.applyRlsPolicyToAll applied
    · cases applied
  | revokeGraphAccess iri role =>
    simp only [System.apply, System.revokeGraphAccess] at applied
    split at applied
    · cases applied
      refine List.foldlRecOn (motive := System.NoVpPolicies) _ _ h ?_
      intro sys kept p _
      exact kept.setTables (policies_drop_nil (kept p).1) (policies_drop_nil (kept p).2)
    · split at applied
      · cases applied
      · cases applied
        exact h
  | grantGraphPermission role graph permission =>
    simp only [System.apply, System.grantGraphPermission] at applied
    split at applied
    · cases applied
      exact h
    · cases applied
  | revokeGraphPermission role graph permission =>
    cases applied
    exact h
  | storage op =>
    simp only [System.apply, System.storage] at applied
    obtain ⟨mid, promoted, same⟩ := Option.map_eq_some_iff.mp applied
    cases same
    have kept : mid.NoVpPolicies := by
      cases found : promotedBy sys.store op with
      | none =>
        rw [found] at promoted
        cases promoted
        exact h
      | some p =>
        rw [found] at promoted
        exact h.promote promoted
    exact kept.replaceMain op

theorem noVpPolicies_step {a a' : Audited} {call : Call} (h : a.sys.NoVpPolicies)
    (stepped : a.step server call = some a') : a'.sys.NoVpPolicies := by
  rw [Audited.step] at stepped
  split at stepped
  · rename_i sys applied
    cases stepped
    exact h.apply applied
  · cases stepped
    exact h

end NoPolicies

theorem exists_not_granted (grants : Grants) (role : Text) :
    ∃ g, 0 < g ∧ ¬ grants.Granted role g := by
  let ids := (grants.byAccess.map Prod.snd ++ grants.byPermission.map AccessRow.graphId).toFinset
  obtain ⟨n, hn⟩ := Infinite.exists_notMem_finset (insert 0 (ids.image Int.toNat))
  rw [Finset.mem_insert, not_or] at hn
  refine ⟨(n : Int), Int.natCast_pos.mpr (Nat.pos_of_ne_zero hn.1), ?_⟩
  intro granted
  refine hn.2 (Finset.mem_image.mpr ⟨(n : Int), ?_, Int.toNat_natCast n⟩)
  rw [List.mem_toFinset, List.mem_append, List.mem_map, List.mem_map]
  obtain access | ⟨permission, entry⟩ := granted
  · exact .inl ⟨_, access, rfl⟩
  · exact .inr ⟨_, entry, rfl⟩

/-- A table without policies shows the wrong graphs: all of them, or none. -/
theorem not_shows_of_no_policies {a : Audited} {role : Text} {acl : TableAcl}
    (none : acl.policies = []) : ¬ a.Shows role acl := by
  intro shows
  cases secured : acl.rowSecurity with
  | true =>
    have first := (shows 0 (Int.le_refl 0)).mpr (.inl rfl)
    rw [TableAcl.reads, secured, none] at first
    cases first
  | false =>
    obtain ⟨g, pos, other⟩ := exists_not_granted a.grants role
    have reads : acl.reads a.sys.access role g = true := by
      rw [TableAcl.reads, secured]
      rfl
    obtain zero | granted := (shows g (Int.le_of_lt pos)).mp reads
    · exact absurd (zero ▸ pos) (Int.lt_irrefl 0)
    · exact other granted

/-- No state with a dedicated predicate is uniform. -/
theorem not_uniform_of_dedicated {a : Audited} (h : a.sys.NoVpPolicies) {p : TermId}
    (dedicated : a.sys.store.isDedicated p = true) (role : Text) : ¬ a.Uniform role :=
  fun uniform => not_shows_of_no_policies (h p).1 (uniform.delta p dedicated)

/-- What the calls keep true of `vp_rare` while names of policies are kept apart. -/
structure Tracks (server : Server) (a : Audited) : Prop where
  entries : ∀ r : AccessRow, 0 ≤ r.graphId →
    (r ∈ a.sys.access ↔ r ∈ a.grants.byPermission)
  valid : ∀ r ∈ a.grants.byPermission,
    r.permission ∈ ["read".toList, "write".toList, "admin".toList]
  policies : ∀ role g, server.roleExists role = true →
    ((∃ policy ∈ a.sys.rare.policies, policy.role = some role ∧ policy.condition = .graph g) ↔
      (role, g) ∈ a.grants.byAccess)
  named : ∀ policy ∈ a.sys.rare.policies, ∀ role, policy.role = some role →
    ∃ iri, policy.name = server.policyName role iri ∧ policy.condition = .graph (server.encode iri)
  everyone : ∀ policy ∈ a.sys.rare.policies, policy.role = none →
    policy.condition = .rlsRead ∨ policy.condition = .rlsWrite
  enabled : rlsMarker ∈ a.sys.access → a.sys.rare.rowSecurity = true ∧
    ∃ policy ∈ a.sys.rare.policies, policy.role = none ∧ policy.condition = .rlsRead

/-- Policies of this name belong to this role and this graph. -/
def NameFree (server : Server) (sys : System) (iri role : Text) : Prop :=
  ∀ policy ∈ sys.rare.policies, policy.name = server.policyName role iri →
    policy.role = some role ∧ policy.condition = .graph (server.encode iri)

/-- Calls that keep names of policies apart and give no predicate tables of its own. -/
def KeepsUniform (server : Server) (a : Audited) : Call → Prop
  | .grantGraphAccess iri role _ => NameFree server a.sys iri role
  | .revokeGraphAccess iri role =>
    isSafeRoleName role = true ∧ NameFree server a.sys iri role
  | .storage op => ∀ p, (op.apply a.sys.store).isDedicated p = false
  | _ => True

section Rare

variable {server : Server} {a : Audited}

/-- With row security enabled, `vp_rare` shows what it should. -/
theorem Tracks.shows (h : Tracks server a) (enabled : rlsMarker ∈ a.sys.access) {role : Text}
    (real : server.roleExists role = true) : a.Shows role a.sys.rare := by
  intro g nonneg
  obtain ⟨secured, policy, mem, everyone, condition⟩ := h.enabled enabled
  rw [TableAcl.reads, secured, Bool.not_true, Bool.false_or, List.any_eq_true]
  constructor
  · rintro ⟨policy, mem, applies⟩
    rw [Bool.and_eq_true, Bool.or_eq_true, decide_eq_true_iff, decide_eq_true_iff] at applies
    obtain ⟨for_, accepts⟩ := applies
    have entry : (∃ r ∈ a.sys.access, r.roleName = role ∧ r.graphId = g) →
        a.grants.Granted role g := by
      rintro ⟨⟨_, _, permission⟩, mem, rfl, rfl⟩
      exact .inr ⟨permission, (h.entries _ nonneg).mp mem⟩
    obtain public_ | own := for_
    · -- whether it is the policy that reads or the one that writes
      obtain condition | condition := h.everyone policy mem public_
      all_goals
        rw [condition] at accepts
        simp only [Using.accepts, Bool.or_eq_true, decide_eq_true_eq, List.any_eq_true,
          Bool.and_eq_true] at accepts
        obtain zero | ⟨r, hr, ⟨named, graph⟩, -⟩ := accepts
        · exact .inl zero
        · exact .inr (entry ⟨r, hr, named, graph⟩)
    · obtain ⟨iri, -, condition⟩ := h.named policy mem role own
      rw [condition, Using.accepts, decide_eq_true_iff] at accepts
      subst accepts
      exact .inr (.inl ((h.policies role _ real).mp ⟨policy, mem, own, condition⟩))
  · rintro (zero | access | ⟨permission, entry⟩)
    · refine ⟨policy, mem, ?_⟩
      rw [everyone, condition, Using.accepts, zero]
      simp
    · obtain ⟨policy, mem, own, condition⟩ := (h.policies role g real).mpr access
      refine ⟨policy, mem, ?_⟩
      rw [own, condition, Using.accepts]
      simp
    · refine ⟨policy, mem, ?_⟩
      have valid := h.valid _ entry
      have stored := (h.entries _ nonneg).mpr entry
      rw [everyone, condition, Using.accepts]
      have found : a.sys.access.any (fun r => r.roleName = role && r.graphId = g &&
          r.permission ∈ ["read".toList, "write".toList, "admin".toList]) = true := by
        rw [List.any_eq_true]
        exact ⟨_, stored, by simpa using valid⟩
      rw [found]
      simp

theorem tracks_initial : Tracks server .initial where
  entries _ _ := Iff.rfl
  valid _ h := nomatch h
  policies _ _ _ := by
    constructor
    · rintro ⟨_, h, -⟩
      cases h
    · intro h
      cases h
  named _ h := nomatch h
  everyone _ h := nomatch h
  enabled h := nomatch h

/-- `vp_rare` and the entries are left alone. -/
structure SameRare (sys sys' : System) : Prop where
  rare : sys'.rare = sys.rare
  access : sys'.access = sys.access

theorem SameRare.refl (sys : System) : SameRare sys sys := ⟨rfl, rfl⟩

theorem SameRare.trans {sys₁ sys₂ sys₃ : System} (h : SameRare sys₁ sys₂)
    (h' : SameRare sys₂ sys₃) : SameRare sys₁ sys₃ :=
  ⟨h'.rare.trans h.rare, h'.access.trans h.access⟩

theorem sameRare_applyRlsPolicyToAll {sys sys' : System} {g : TermId} {role : Text}
    {command : Command} (applied : sys.applyRlsPolicyToAll server g role command = some sys') :
    SameRare sys sys' := by
  rw [System.applyRlsPolicyToAll] at applied
  generalize sys.store.dedicatedPredicates = preds at applied
  induction preds generalizing sys with
  | nil =>
    cases applied
    exact ⟨rfl, rfl⟩
  | cons p preds ih =>
    rw [List.foldlM_cons] at applied
    obtain ⟨mid, first, rest⟩ := Option.bind_eq_some_iff.mp applied
    obtain ⟨delta, -, first⟩ := Option.bind_eq_some_iff.mp first
    obtain ⟨main, -, first⟩ := Option.bind_eq_some_iff.mp first
    cases first
    have later := ih rest
    exact ⟨later.rare, later.access⟩

theorem sameRare_storage {sys sys' : System} {op : Op}
    (applied : sys.storage server op = some sys') : SameRare sys sys' := by
  rw [System.storage] at applied
  obtain ⟨mid, promoted, same⟩ := Option.map_eq_some_iff.mp applied
  cases same
  have first : SameRare sys mid := by
    cases found : promotedBy sys.store op with
    | none =>
      rw [found] at promoted
      cases promoted
      exact .refl sys
    | some p =>
      rw [found] at promoted
      simp only [Option.elim_some, System.promote] at promoted
      obtain ⟨created, -, promoted⟩ := Option.bind_eq_some_iff.mp promoted
      obtain ⟨acl, -, promoted⟩ := Option.bind_eq_some_iff.mp promoted
      cases promoted
      exact ⟨rfl, rfl⟩
  refine first.trans ?_
  cases op with
  | mergePredicate cfg p =>
    simp only [System.replaceMain]
    split
    · exact ⟨rfl, rfl⟩
    · exact ⟨rfl, rfl⟩
  | _ => exact ⟨rfl, rfl⟩

/-- Tables of predicates and storage do not matter. -/
theorem Tracks.congr {sys : System} {a : Audited} (h : Tracks server a)
    (same : SameRare a.sys sys) : Tracks server ⟨sys, a.grants⟩ := by
  refine ⟨?_, h.valid, ?_, ?_, ?_, ?_⟩ <;> simp only [same.rare, same.access]
  · exact h.entries
  · exact h.policies
  · exact h.named
  · exact h.everyone
  · exact h.enabled

/-- Names of policies for roles differ from the names of the policies for everyone. -/
theorem policyName_ne (server : Server) (role iri : Text) :
    server.policyName role iri ≠ rlsReadPolicy.name ∧
      server.policyName role iri ≠ rlsWritePolicy.name := by
  have letter : (server.policyName role iri)[10]? = some 'g' := by
    rw [Server.policyName, foldIdent, List.getElem?_take_of_lt (by decide), List.append_assoc,
      List.map_append, List.getElem?_append_left (by decide)]
    rfl
  constructor
  · intro same
    rw [same] at letter
    exact absurd letter (by decide)
  · intro same
    rw [same] at letter
    exact absurd letter (by decide)

theorem mem_replace {acl : TableAcl} {policy new : Policy} :
    policy ∈ (acl.replace new).policies ↔
      (policy ∈ acl.policies ∧ policy.name ≠ new.name) ∨ policy = new := by
  simp only [TableAcl.replace, TableAcl.drop, List.mem_append, List.mem_filter, List.mem_singleton,
    decide_eq_true_eq]

/-- Replacing a policy for everyone leaves those for roles alone. -/
theorem mem_replace_of_role {acl : TableAcl} {policy new : Policy} {role : Text}
    (own : policy.role = some role) (everyone : new.role = none) (other : policy.name ≠ new.name) :
    policy ∈ (acl.replace new).policies ↔ policy ∈ acl.policies := by
  rw [mem_replace]
  constructor
  · rintro (⟨old, -⟩ | rfl)
    · exact old
    · rw [everyone] at own
      cases own
  · exact fun old => .inl ⟨old, other⟩

theorem Tracks.enableGraphRls (h : Tracks server a) :
    Tracks server ⟨a.sys.enableGraphRls, a.grants⟩ := by
  have old {policy : Policy} {role : Text} (own : policy.role = some role)
      (hp : policy ∈ a.sys.enableGraphRls.rare.policies) : policy ∈ a.sys.rare.policies := by
    obtain ⟨hp, -⟩ | rfl := mem_replace.mp hp
    · obtain ⟨hp, -⟩ | rfl := mem_replace.mp hp
      · exact hp
      · cases own
    · cases own
  have kept {policy : Policy} {role : Text} (own : policy.role = some role)
      (hp : policy ∈ a.sys.rare.policies) : policy ∈ a.sys.enableGraphRls.rare.policies := by
    obtain ⟨iri, name, -⟩ := h.named policy hp role own
    have other := policyName_ne server role iri
    rw [← name] at other
    exact (mem_replace_of_role own rfl other.2).mpr ((mem_replace_of_role own rfl other.1).mpr hp)
  refine ⟨?_, h.valid, ?_, ?_, ?_, ?_⟩
  · intro r nonneg
    rw [← h.entries r nonneg]
    simp only [System.enableGraphRls]
    split
    · exact Iff.rfl
    · rw [List.mem_append, List.mem_singleton]
      constructor
      · rintro (old | rfl)
        · exact old
        · exact absurd nonneg (by decide)
      · exact .inl
  · intro role g real
    rw [← h.policies role g real]
    constructor
    · rintro ⟨policy, hp, own, condition⟩
      exact ⟨policy, old own hp, own, condition⟩
    · rintro ⟨policy, hp, own, condition⟩
      exact ⟨policy, kept own hp, own, condition⟩
  · intro policy hp role own
    exact h.named policy (old own hp) role own
  · intro policy hp everyone
    obtain ⟨hp, -⟩ | rfl := mem_replace.mp hp
    · obtain ⟨hp, -⟩ | rfl := mem_replace.mp hp
      · exact h.everyone policy hp everyone
      · exact .inl rfl
    · exact .inr rfl
  · intro _
    have different : rlsReadPolicy.name ≠ rlsWritePolicy.name := by decide
    exact ⟨rfl, rlsReadPolicy,
      mem_replace.mpr (.inl ⟨mem_replace.mpr (.inr rfl), different⟩), rfl, rfl⟩

/-- What `grant_graph_access` does to `vp_rare`. -/
theorem grantGraphAccess_cases {sys sys' : System} {iri role privilege : Text}
    (h : sys.grantGraphAccess server iri role privilege = some sys') :
    ∃ rare, SameRare { sys with rare := rare } sys' ∧ rare.rowSecurity = true ∧
      ((∃ command, rare.policies = sys.rare.policies ++
          [⟨server.policyName role iri, command, some role, .graph (server.encode iri)⟩]) ∨
        rare.policies = sys.rare.policies ∧
          ((∃ policy ∈ sys.rare.policies, policy.name = server.policyName role iri) ∨
            server.roleExists role = false)) := by
  rw [System.grantGraphAccess] at h
  split at h
  · obtain ⟨command, -, h⟩ := Option.bind_eq_some_iff.mp h
    obtain ⟨rare, created, h⟩ := Option.bind_eq_some_iff.mp h
    refine ⟨rare, sameRare_applyRlsPolicyToAll h, ?_⟩
    rw [Server.attempt, Server.createPolicy] at created
    by_cases taken : (sys.rare.enable.policies.any fun p' => p'.name = server.policyName role iri) =
        true ∨ server.roleExists role = false
    · have refused :
          ((sys.rare.enable.policies.any fun p' => p'.name = server.policyName role iri) ||
          !(some role).all server.roleExists) = true := by
        rw [Bool.or_eq_true, Option.all_some, Bool.not_eq_true']
        exact taken
      rw [if_pos refused] at created
      simp only at created
      split at created
      · cases created
      · cases created
        refine ⟨rfl, .inr ⟨rfl, ?_⟩⟩
        obtain name | missing := taken
        · obtain ⟨policy, hp, name⟩ := List.any_eq_true.mp name
          exact .inl ⟨policy, hp, of_decide_eq_true name⟩
        · exact .inr missing
    · have accepted : ¬ ((sys.rare.enable.policies.any fun p' =>
          p'.name = server.policyName role iri) || !(some role).all server.roleExists) = true := by
        rw [Bool.or_eq_true, Option.all_some, Bool.not_eq_true']
        exact taken
      rw [if_neg accepted] at created
      cases created
      exact ⟨rfl, .inl ⟨command, rfl⟩⟩
  · cases h

theorem Tracks.grantGraphAccess (h : Tracks server a) {iri role privilege : Text} {sys : System}
    (free : NameFree server a.sys iri role)
    (granted : a.sys.grantGraphAccess server iri role privilege = some sys) :
    Tracks server ⟨sys, a.grants.apply server (.grantGraphAccess iri role privilege)⟩ := by
  obtain ⟨rare, same, secured, effect⟩ := grantGraphAccess_cases granted
  have older {x : Text × TermId} : x ∈ a.grants.byAccess ++ [(role, server.encode iri)] ↔
      x ∈ a.grants.byAccess ∨ x = (role, server.encode iri) := by
    rw [List.mem_append, List.mem_singleton]
  refine Tracks.congr (a := ⟨{ a.sys with rare := rare }, _⟩) ?_ same
  obtain ⟨command, created⟩ | ⟨unchanged, refused⟩ := effect
  · have mem {policy : Policy} : policy ∈ rare.policies ↔ policy ∈ a.sys.rare.policies ∨
        policy = ⟨server.policyName role iri, command, some role, .graph (server.encode iri)⟩ := by
      rw [created, List.mem_append, List.mem_singleton]
    refine ⟨h.entries, h.valid, ?_, ?_, ?_, ?_⟩
    · intro role' g real
      refine Iff.trans ?_ older.symm
      rw [← h.policies role' g real]
      constructor
      · rintro ⟨policy, hp, own, condition⟩
        obtain old | rfl := mem.mp hp
        · exact .inl ⟨policy, old, own, condition⟩
        · cases own
          cases condition
          exact .inr rfl
      · rintro (⟨policy, hp, own, condition⟩ | new)
        · exact ⟨policy, mem.mpr (.inl hp), own, condition⟩
        · cases new
          exact ⟨_, mem.mpr (.inr rfl), rfl, rfl⟩
    · intro policy hp role' own
      obtain old | rfl := mem.mp hp
      · exact h.named policy old role' own
      · cases own
        exact ⟨iri, rfl, rfl⟩
    · intro policy hp everyone
      obtain old | rfl := mem.mp hp
      · exact h.everyone policy old everyone
      · cases everyone
    · intro marked
      obtain ⟨-, policy, hp, everyone, condition⟩ := h.enabled marked
      exact ⟨secured, policy, mem.mpr (.inl hp), everyone, condition⟩
  · refine ⟨h.entries, h.valid, ?_, ?_, ?_, ?_⟩
    · intro role' g real
      simp only [unchanged]
      refine Iff.trans ?_ older.symm
      rw [← h.policies role' g real]
      constructor
      · exact .inl
      · rintro (old | new)
        · exact old
        · -- the policy is there already, since the role exists
          cases new
          obtain ⟨policy, hp, name⟩ | missing := refused
          · obtain ⟨own, condition⟩ := free policy hp name
            exact ⟨policy, hp, own, condition⟩
          · rw [real] at missing
            cases missing
    · simp only [unchanged]
      exact h.named
    · simp only [unchanged]
      exact h.everyone
    · intro marked
      simp only [unchanged]
      exact ⟨secured, (h.enabled marked).2⟩

theorem Tracks.revokeGraphAccess (h : Tracks server a) {iri role : Text} {sys : System}
    (safe : isSafeRoleName role = true) (free : NameFree server a.sys iri role)
    (revoked : a.sys.revokeGraphAccess server iri role = some sys) :
    Tracks server ⟨sys, a.grants.apply server (.revokeGraphAccess iri role)⟩ := by
  have same : SameRare { a.sys with rare := a.sys.rare.drop (server.policyName role iri) } sys := by
    rw [System.revokeGraphAccess, if_pos safe] at revoked
    cases revoked
    refine List.foldlRecOn (motive := SameRare { a.sys with
      rare := a.sys.rare.drop (server.policyName role iri) }) _ _ (.refl _) ?_
    intro sys kept p _
    exact ⟨kept.rare, kept.access⟩
  have mem {policy : Policy} : policy ∈ (a.sys.rare.drop (server.policyName role iri)).policies ↔
      policy ∈ a.sys.rare.policies ∧ policy.name ≠ server.policyName role iri := by
    simp only [TableAcl.drop, List.mem_filter, decide_eq_true_eq]
  refine Tracks.congr
    (a := ⟨{ a.sys with rare := a.sys.rare.drop (server.policyName role iri) }, _⟩)
    ?_ same
  refine ⟨h.entries, h.valid, ?_, ?_, ?_, ?_⟩
  · intro role' g real
    simp only [mem, List.mem_filter, decide_eq_true_eq]
    rw [← h.policies role' g real]
    constructor
    · rintro ⟨policy, ⟨hp, other⟩, own, condition⟩
      refine ⟨⟨policy, hp, own, condition⟩, ?_⟩
      rintro same
      cases same
      -- a policy for this role and graph has the name that was dropped
      obtain ⟨iri', name, condition'⟩ := h.named policy hp role own
      have graphs : server.encode iri = server.encode iri' :=
        Using.graph.inj (condition.symm.trans condition')
      exact other (by rw [name, server.encode_injective graphs])
    · rintro ⟨⟨policy, hp, own, condition⟩, other⟩
      refine ⟨policy, ⟨hp, ?_⟩, own, condition⟩
      intro name
      obtain ⟨own', condition'⟩ := free policy hp name
      have roles : role' = role := Option.some.inj (own.symm.trans own')
      have graphs : g = server.encode iri := Using.graph.inj (condition.symm.trans condition')
      exact other (by rw [roles, graphs])
  · intro policy hp
    exact h.named policy (mem.mp hp).1
  · intro policy hp
    exact h.everyone policy (mem.mp hp).1
  · intro marked
    obtain ⟨secured, policy, hp, everyone, condition⟩ := h.enabled marked
    refine ⟨secured, policy, mem.mpr ⟨hp, ?_⟩, everyone, condition⟩
    intro name
    have own := (free policy hp name).1
    rw [everyone] at own
    cases own

theorem Tracks.grantGraphPermission (h : Tracks server a) {role graph permission : Text}
    {sys : System}
    (granted : a.sys.grantGraphPermission server role graph permission = some sys) :
    Tracks server ⟨sys, a.grants.apply server (.grantGraphPermission role graph permission)⟩ := by
  rw [System.grantGraphPermission] at granted
  split at granted
  · rename_i valid
    cases granted
    have mem {r : AccessRow} : r ∈ (if (⟨role, server.encode (stripAngleBrackets graph),
        permission⟩ : AccessRow) ∈ a.sys.access then a.sys.access
        else a.sys.access ++ [⟨role, server.encode (stripAngleBrackets graph), permission⟩]) ↔
        r ∈ a.sys.access ∨ r = ⟨role, server.encode (stripAngleBrackets graph), permission⟩ := by
      split
      · rename_i present
        constructor
        · exact .inl
        · rintro (old | rfl)
          · exact old
          · exact present
      · rw [List.mem_append, List.mem_singleton]
    refine ⟨?_, ?_, h.policies, h.named, h.everyone, ?_⟩
    · intro r nonneg
      simp only [Grants.apply, List.mem_append, List.mem_singleton]
      rw [mem, h.entries r nonneg]
    · intro r hr
      obtain old | new := List.mem_append.mp hr
      · exact h.valid r old
      · cases List.mem_singleton.mp new
        exact valid
    · intro marked
      obtain old | new := mem.mp marked
      · exact h.enabled old
      · have graphs : (-1 : TermId) = server.encode (stripAngleBrackets graph) :=
          congrArg AccessRow.graphId new
        have pos := server.encode_pos (stripAngleBrackets graph)
        rw [← graphs] at pos
        exact absurd pos (by decide)
  · cases granted

theorem Tracks.revokeGraphPermission (h : Tracks server a) {role graph : Text}
    {permission : Option Text} :
    Tracks server ⟨a.sys.revokeGraphPermission server role graph permission,
      a.grants.apply server (.revokeGraphPermission role graph permission)⟩ := by
  refine ⟨?_, ?_, h.policies, h.named, h.everyone, ?_⟩
  · intro r nonneg
    simp only [System.revokeGraphPermission, Grants.apply, List.mem_filter]
    rw [h.entries r nonneg]
  · intro r hr
    exact h.valid r (List.mem_filter.mp hr).1
  · intro marked
    exact h.enabled (List.mem_filter.mp marked).1

/-- Calls that keep names apart keep track. -/
theorem Tracks.step (h : Tracks server a) {call : Call} {a' : Audited}
    (keeps : KeepsUniform server a call) (stepped : a.step server call = some a') :
    Tracks server a' := by
  rw [Audited.step] at stepped
  split at stepped
  · rename_i sys applied
    cases stepped
    cases call with
    | enableGraphRls =>
      cases applied
      exact h.enableGraphRls
    | grantGraphAccess iri role privilege => exact h.grantGraphAccess keeps applied
    | revokeGraphAccess iri role => exact h.revokeGraphAccess keeps.1 keeps.2 applied
    | grantGraphPermission role graph permission => exact h.grantGraphPermission applied
    | revokeGraphPermission role graph permission =>
      cases applied
      exact h.revokeGraphPermission
    | storage op => exact h.congr (sameRare_storage applied)
  · cases stepped
    exact h

theorem store_applyRlsPolicyToAll {sys sys' : System} {g : TermId} {role : Text}
    {command : Command} (applied : sys.applyRlsPolicyToAll server g role command = some sys') :
    sys'.store = sys.store := by
  rw [System.applyRlsPolicyToAll] at applied
  generalize sys.store.dedicatedPredicates = preds at applied
  induction preds generalizing sys with
  | nil =>
    cases applied
    rfl
  | cons p preds ih =>
    rw [List.foldlM_cons] at applied
    obtain ⟨mid, first, rest⟩ := Option.bind_eq_some_iff.mp applied
    obtain ⟨delta, -, first⟩ := Option.bind_eq_some_iff.mp first
    obtain ⟨main, -, first⟩ := Option.bind_eq_some_iff.mp first
    cases first
    have later := ih rest
    exact later

/-- Only storage calls change the store. -/
theorem store_apply {sys sys' : System} {call : Call}
    (applied : sys.apply server call = some sys') :
    sys'.store = sys.store ∨ ∃ op, call = .storage op ∧ sys'.store = op.apply sys.store := by
  cases call with
  | enableGraphRls =>
    cases applied
    exact .inl rfl
  | grantGraphAccess iri role privilege =>
    simp only [System.apply, System.grantGraphAccess] at applied
    split at applied
    · obtain ⟨command, -, applied⟩ := Option.bind_eq_some_iff.mp applied
      obtain ⟨rare, -, applied⟩ := Option.bind_eq_some_iff.mp applied
      have same := store_applyRlsPolicyToAll applied
      exact .inl same
    · cases applied
  | revokeGraphAccess iri role =>
    simp only [System.apply, System.revokeGraphAccess] at applied
    split at applied
    · cases applied
      refine .inl (List.foldlRecOn (motive := fun s : System => s.store = sys.store) _ _ rfl ?_)
      intro sys' kept p _
      exact kept
    · split at applied
      · cases applied
      · cases applied
        exact .inl rfl
  | grantGraphPermission role graph permission =>
    simp only [System.apply, System.grantGraphPermission] at applied
    split at applied
    · cases applied
      exact .inl rfl
    · cases applied
  | revokeGraphPermission role graph permission =>
    cases applied
    exact .inl rfl
  | storage op =>
    simp only [System.apply, System.storage] at applied
    obtain ⟨mid, -, same⟩ := Option.map_eq_some_iff.mp applied
    cases same
    exact .inr ⟨op, rfl, rfl⟩

/-- Guarded calls give no predicate tables. -/
theorem notDedicated_step {call : Call} {a' : Audited}
    (none : ∀ p, a.sys.store.isDedicated p = false) (keeps : KeepsUniform server a call)
    (stepped : a.step server call = some a') : ∀ p, a'.sys.store.isDedicated p = false := by
  rw [Audited.step] at stepped
  split at stepped
  · rename_i sys applied
    cases stepped
    obtain same | ⟨op, rfl, same⟩ := store_apply applied
    · rw [same]
      exact none
    · rw [same]
      exact keeps
  · cases stepped
    exact none

theorem noVpPolicies_of_run {calls : List Call}
    (executed : Run.exec (Audited.step server) .initial calls = some a) : a.sys.NoVpPolicies := by
  have keeps (a : Audited) (call : Call) (a' : Audited) (h : a.sys.NoVpPolicies) (_ : True)
      (stepped : a.step server call = some a') : a'.sys.NoVpPolicies := noVpPolicies_step h stepped
  have start : Audited.initial.sys.NoVpPolicies := fun _ => ⟨rfl, rfl⟩
  exact Run.exec_invariant keeps start (Run.along_of_forall fun _ _ _ => trivial) executed

end Rare

/-- In every run that keeps names of policies apart and in which no predicate has tables of
its own, every table shows each role the default graph and the graphs granted to it once row
security is enabled. Where a predicate has tables, no role is shown just these. -/
theorem uniform_of_run (server : Server) (calls : List Call) (a : Audited)
    (executed : Run.exec (Audited.step server) .initial calls = some a) (role : Text) :
    (Run.Along (Audited.step server) (KeepsUniform server) .initial calls →
      rlsMarker ∈ a.sys.access → server.roleExists role = true → a.Uniform role) ∧
    ((∃ p, a.sys.store.isDedicated p = true) → ¬ a.Uniform role) := by
  constructor
  · intro guarded enabled real
    have keeps (a : Audited) (call : Call) (a' : Audited)
        (h : Tracks server a ∧ ∀ p, a.sys.store.isDedicated p = false)
        (guard : KeepsUniform server a call) (stepped : a.step server call = some a') :
        Tracks server a' ∧ ∀ p, a'.sys.store.isDedicated p = false :=
      ⟨h.1.step guard stepped, notDedicated_step h.2 guard stepped⟩
    obtain ⟨tracks, none⟩ :=
      Run.exec_invariant keeps ⟨tracks_initial, fun _ => rfl⟩ guarded executed
    refine ⟨tracks.shows enabled real, ?_, ?_⟩
    · intro p dedicated
      rw [none p] at dedicated
      cases dedicated
    · intro p dedicated
      rw [none p] at dedicated
      cases dedicated
  · rintro ⟨p, dedicated⟩
    exact not_uniform_of_dedicated (noVpPolicies_of_run executed) dedicated role

/-- A server on which every role exists and failed statements are reported. -/
def plainServer : Server where
  encode iri := (Encodable.encode (iri.map Char.toNat) : Int) + 1
  xxh3 iri := iri
  roleExists _ := true
  toUppercase s := s.map Char.toUpper
  raises := false
  encode_injective iri iri' same := by
    have codes : Encodable.encode (iri.map Char.toNat) = Encodable.encode (iri'.map Char.toNat) :=
      Int.natCast_inj.mp (Int.add_left_inj 1 |>.mp same)
    have chars : Function.Injective Char.toNat := fun _ _ => Char.toNat_inj.mp
    exact List.map_injective_iff.mpr chars (Encodable.encode_injective codes)
  encode_pos iri := Int.lt_add_one_of_le (Int.natCast_nonneg _)

/-- Row security is enabled and one graph is granted. -/
theorem uniform_granted : ∃ a, Run.exec (Audited.step plainServer) .initial
    [.enableGraphRls, .grantGraphPermission "app".toList "<g>".toList "read".toList] = some a ∧
      a.Uniform "app".toList := by
  have runs : (Run.exec (Audited.step plainServer) .initial
      [.enableGraphRls, .grantGraphPermission "app".toList "<g>".toList "read".toList]).any
      (fun a => decide (rlsMarker ∈ a.sys.access)) = true := by
    decide
  obtain ⟨a, executed, enabled⟩ := (Option.any_eq_true _ _).mp runs
  refine ⟨a, executed, (uniform_of_run plainServer _ a executed "app".toList).1 ?_
    (of_decide_eq_true enabled) rfl⟩
  refine Run.along_of_forall ?_
  intro _ call hcall
  simp only [List.mem_cons, List.not_mem_nil, or_false] at hcall
  obtain rfl | rfl := hcall
  · trivial
  · trivial

/-- Once a predicate has tables, its default graph is out of reach. -/
theorem not_uniform_promoted :
    ¬ ∀ (server : Server) (calls : List Call) (a : Audited) (role : Text),
      Run.exec (Audited.step server) .initial calls = some a → rlsMarker ∈ a.sys.access →
      server.roleExists role = true → a.Uniform role := by
  intro promised
  have runs : (Run.exec (Audited.step plainServer) .initial
      [.enableGraphRls, .storage (.insertTriple ⟨10000, true, 3600⟩ 0 ⟨101, 11, 102, 0⟩),
        .storage (.promotePredicate 11)]).any
      (fun a => decide (rlsMarker ∈ a.sys.access ∧ a.sys.store.isDedicated 11 = true)) = true := by
    decide
  obtain ⟨a, executed, reached⟩ := (Option.any_eq_true _ _).mp runs
  obtain ⟨enabled, dedicated⟩ := of_decide_eq_true reached
  exact not_uniform_of_dedicated (noVpPolicies_of_run executed) dedicated "app".toList
    (promised plainServer _ a "app".toList executed enabled rfl)

end PgRipple.Security
