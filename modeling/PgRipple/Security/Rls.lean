import PgRipple.Storage.Reachable
import PgRipple.Dictionary.Term

/-!
# Row-level security on graphs

Two interfaces grant a role the rows of a graph. `grant_graph_access` creates a policy on
`vp_rare` and on the tables of every dedicated predicate; `grant_graph_permission` writes a
row of `graph_access`, which the policy of `enable_graph_rls` on `vp_rare` consults. Tables
that are created later are covered by `apply_rls_to_vp_table`.

A table without row security shows all its rows. With row security a row is shown if one of
the policies for the role, or for everyone, accepts it; without such a policy nothing is
shown. `CREATE POLICY` knows no `IF NOT EXISTS`, so a statement with it is a syntax error.
-/

namespace PgRipple.Security

open Storage
open Dictionary (Text trim)

/-- The condition of a policy. -/
inductive Using where
  /-- `g = {graph_id}`. -/
  | graph (g : TermId)
  /-- The default graph, or an entry of `graph_access` with any permission. -/
  | rlsRead
  /-- The default graph, or an entry with `write` or `admin`. -/
  | rlsWrite
  deriving DecidableEq, Repr

inductive Command where
  | select
  | all
  deriving DecidableEq, Repr

/-- A permissive policy; `none` is `PUBLIC`. -/
structure Policy where
  name : Text
  command : Command
  role : Option Text
  condition : Using
  deriving DecidableEq, Repr

/-- What decides about the rows of a table that a role sees. -/
structure TableAcl where
  rowSecurity : Bool
  policies : List Policy
  deriving DecidableEq, Repr

/-- A table just created. -/
def TableAcl.fresh : TableAcl := ⟨false, []⟩

/-- `ALTER TABLE … ENABLE ROW LEVEL SECURITY`. -/
def TableAcl.enable (acl : TableAcl) : TableAcl := { acl with rowSecurity := true }

/-- `DROP POLICY IF EXISTS`. -/
def TableAcl.drop (acl : TableAcl) (name : Text) : TableAcl :=
  { acl with policies := acl.policies.filter fun p => p.name ≠ name }

/-- A row of `_pg_ripple.graph_access`. -/
structure AccessRow where
  roleName : Text
  graphId : TermId
  permission : Text
  deriving DecidableEq, Repr

/-- Whether a condition accepts the rows of a graph, for a role and with the bypass off. -/
def Using.accepts (access : List AccessRow) (role : Text) (g : TermId) : Using → Bool
  | .graph g' => g = g'
  | .rlsRead => g = 0 || access.any fun r => r.roleName = role && r.graphId = g &&
      r.permission ∈ ["read".toList, "write".toList, "admin".toList]
  | .rlsWrite => g = 0 || access.any fun r => r.roleName = role && r.graphId = g &&
      r.permission ∈ ["write".toList, "admin".toList]

/-- The role sees the rows of the graph. Both kinds of policies apply to reading. -/
def TableAcl.reads (acl : TableAcl) (access : List AccessRow) (role : Text) (g : TermId) : Bool :=
  !acl.rowSecurity || acl.policies.any fun p =>
    (p.role = none || p.role = some role) && p.condition.accepts access role g

/-- What the calls depend on besides the database. -/
structure Server where
  /-- `dictionary::encode` of an IRI. -/
  encode : Text → TermId
  /-- The 32 digits of `xxh3_128`. -/
  xxh3 : Text → Text
  roleExists : Text → Bool
  toUppercase : Text → Text
  /-- A failed SQL statement ends the call, rather than being reported to it. -/
  raises : Bool
  encode_injective : Function.Injective encode
  encode_pos : ∀ iri, 0 < encode iri

/-- `is_safe_role_name`. -/
def isSafeRoleName (role : Text) : Bool :=
  match role with
  | [] => false
  | first :: rest =>
    (first.isAlpha || first = '_') && rest.all fun c => c.isAlphanum || c = '_' || c = '$'

/-- An identifier without quotes: folded to lower case, and cut off after 63 bytes. -/
def foldIdent (s : Text) : Text := (s.map Char.toLower).take 63

/-- The name of the policy on `vp_rare`. -/
def Server.policyName (server : Server) (role iri : Text) : Text :=
  foldIdent ("pg_ripple_graph_".toList ++ role ++ '_' :: server.xxh3 iri)

/-- The name of the policy on a table of a predicate. -/
def Server.vpPolicyName (server : Server) (table role : Text) (g : TermId) : Text :=
  foldIdent ("pg_ripple_vp_".toList ++ role ++ '_' ::
    server.xxh3 (table ++ ':' :: role ++ ':' :: (toString g).toList))

/-- `CREATE POLICY`: names are unique per table, and the role must exist. -/
def Server.createPolicy (server : Server) (p : Policy) (acl : TableAcl) : Option TableAcl :=
  if (acl.policies.any fun p' => p'.name = p.name) || !p.role.all server.roleExists then none
  else some { acl with policies := acl.policies ++ [p] }

/-- `CREATE POLICY IF NOT EXISTS`, which is no statement. -/
def createPolicyIfNotExists (_p : Policy) (_acl : TableAcl) : Option TableAcl := none

/-- A statement whose error is turned into a warning, unless errors end the call. -/
def Server.attempt (server : Server) (statement : TableAcl → Option TableAcl) (acl : TableAcl) :
    Option TableAcl :=
  match statement acl with
  | some acl => some acl
  | none => if server.raises then none else some acl

/-- The tables of a predicate. -/
structure PredicateAcl where
  delta : TableAcl
  main : TableAcl
  deriving DecidableEq, Repr

structure System where
  store : Store
  rare : TableAcl
  tables : TermId → PredicateAcl
  access : List AccessRow

def System.initial : System :=
  ⟨Store.initial, .fresh, fun _ => ⟨.fresh, .fresh⟩, []⟩

/-- The entry by which row security is known to be enabled. -/
def rlsMarker : AccessRow := ⟨"__rls_enabled__".toList, -1, "admin".toList⟩

/-- `is_rls_enabled`. -/
def System.isRlsEnabled (sys : System) : Bool :=
  sys.access.any fun r => r.roleName = rlsMarker.roleName && r.graphId = rlsMarker.graphId

def System.setTables (sys : System) (p : TermId) (acl : PredicateAcl) : System :=
  { sys with tables := fun p' => if p' = p then acl else sys.tables p' }

/-- `_pg_ripple.vp_{id}{suffix}`. -/
def tableName (p : TermId) (suffix : String) : Text :=
  "_pg_ripple.vp_".toList ++ (toString p).toList ++ suffix.toList

/-- `apply_rls_to_vp_table`. -/
def System.applyRlsToVpTable (server : Server) (sys : System) (table : Text) (acl : TableAcl) :
    Option TableAcl :=
  if sys.isRlsEnabled then
    (sys.access.filter fun r => r.roleName ≠ rlsMarker.roleName && 0 < r.graphId).foldlM
      (fun acl r =>
        -- permissions are `read`, `write` or `admin`, so the command is never `SELECT`
        let command := if server.toUppercase r.permission = "SELECT".toList then .select else .all
        if isSafeRoleName r.roleName then
          server.attempt (createPolicyIfNotExists ⟨server.vpPolicyName table r.roleName r.graphId,
            command, some r.roleName, .graph r.graphId⟩) acl
        else some acl) acl.enable
  else some acl

/-- `apply_rls_to_vp_table` on both tables of a predicate. -/
def System.applyRlsToPredicate (server : Server) (sys : System) (p : TermId) (acl : PredicateAcl) :
    Option PredicateAcl := do
  let delta ← sys.applyRlsToVpTable server (tableName p "_delta") acl.delta
  let main ← sys.applyRlsToVpTable server (tableName p "_main") acl.main
  return ⟨delta, main⟩

def rlsReadPolicy : Policy := ⟨"pg_ripple_rls_read".toList, .select, none, .rlsRead⟩

def rlsWritePolicy : Policy := ⟨"pg_ripple_rls_write".toList, .all, none, .rlsWrite⟩

/-- `DROP POLICY IF EXISTS` and `CREATE POLICY`. -/
def TableAcl.replace (acl : TableAcl) (p : Policy) : TableAcl :=
  { acl.drop p.name with policies := (acl.drop p.name).policies ++ [p] }

/-- `enable_graph_rls`. -/
def System.enableGraphRls (sys : System) : System :=
  { sys with
    rare := (sys.rare.enable.replace rlsReadPolicy).replace rlsWritePolicy
    access := if rlsMarker ∈ sys.access then sys.access else sys.access ++ [rlsMarker] }

/-- `apply_rls_policy_to_all_dedicated_tables`. -/
def System.applyRlsPolicyToAll (server : Server) (sys : System) (g : TermId) (role : Text)
    (command : Command) : Option System :=
  sys.store.dedicatedPredicates.foldlM (fun sys p => do
    let create (table : Text) := server.attempt (createPolicyIfNotExists
      ⟨server.vpPolicyName table role g, command, some role, .graph g⟩)
    let delta ← create (tableName p "_delta") (sys.tables p).delta.enable
    let main ← create (tableName p "_main") (sys.tables p).main.enable
    return sys.setTables p ⟨delta, main⟩) sys

/-- The privileges that `grant_graph_access` accepts. -/
def Server.grantCommand (server : Server) (privilege : Text) : Option Command :=
  if server.toUppercase privilege = "SELECT".toList then some .select
  else if server.toUppercase privilege = "ALL".toList then some .all
  else none

/-- `grant_graph_access`; `none` is an error, after which nothing has changed. -/
def System.grantGraphAccess (server : Server) (iri role privilege : Text) (sys : System) :
    Option System :=
  if isSafeRoleName role then do
    let command ← server.grantCommand privilege
    let rare ← server.attempt (server.createPolicy
      ⟨server.policyName role iri, command, some role, .graph (server.encode iri)⟩) sys.rare.enable
    { sys with rare := rare }.applyRlsPolicyToAll server (server.encode iri) role command
  else none

/-- `revoke_graph_access`. A role that is no identifier makes the statements fail. -/
def System.revokeGraphAccess (server : Server) (iri role : Text) (sys : System) : Option System :=
  if isSafeRoleName role then
    let g := server.encode iri
    let sys := { sys with rare := sys.rare.drop (server.policyName role iri) }
    some (sys.store.dedicatedPredicates.foldl (fun sys p => sys.setTables p
      ⟨(sys.tables p).delta.drop (server.vpPolicyName (tableName p "_delta") role g),
        (sys.tables p).main.drop (server.vpPolicyName (tableName p "_main") role g)⟩) sys)
  else if server.raises then none
  else some sys

/-- `strip_angle_brackets`. -/
def stripAngleBrackets (term : Text) : Text :=
  let t := trim term
  if t.head? = some '<' ∧ t.getLast? = some '>' then t.tail.dropLast else t

/-- `grant_graph_permission`. -/
def System.grantGraphPermission (server : Server) (role graph permission : Text) (sys : System) :
    Option System :=
  if permission ∈ ["read".toList, "write".toList, "admin".toList] then
    let r : AccessRow := ⟨role, server.encode (stripAngleBrackets graph), permission⟩
    some { sys with access := if r ∈ sys.access then sys.access else sys.access ++ [r] }
  else none

/-- The entries that `revoke_graph_permission` deletes. -/
def AccessRow.revokedBy (role : Text) (g : TermId) (permission : Option Text)
    (r : AccessRow) : Bool :=
  r.roleName = role && r.graphId = g && permission.all fun perm => r.permission = perm

/-- `revoke_graph_permission`. -/
def System.revokeGraphPermission (server : Server) (role graph : Text) (permission : Option Text)
    (sys : System) : System :=
  let g := server.encode (stripAngleBrackets graph)
  { sys with access := sys.access.filter fun r => !r.revokedBy role g permission }

/-- The predicate that a storage call promotes. -/
def promotedBy (st : Store) : Op → Option TermId
  | .promotePredicate p => some p
  | .insertTriple cfg session q =>
    if !st.isDedicated q.p &&
        cfg.vpPromotionThreshold ≤ (Store.insertIntoVpRare session q st).2.tripleCount q.p
    then some q.p else none
  | _ => none

/-- The tables that `ensure_vp_table` leaves behind. -/
def System.ensuredTables (server : Server) (sys : System) (p : TermId) : Option PredicateAcl :=
  if sys.store.isDedicated p then some (sys.tables p)
  else sys.applyRlsToPredicate server p ⟨.fresh, .fresh⟩

/-- The part of `promote_predicate` that concerns policies: new tables get them when they are
created, and all tables once more. -/
def System.promote (server : Server) (sys : System) (p : TermId) : Option System := do
  let acl ← sys.ensuredTables server p
  let acl ← sys.applyRlsToPredicate server p acl
  return sys.setTables p acl

/-- A merge puts a new table in the place of `main`. -/
def System.replaceMain (sys : System) : Op → System
  | .mergePredicate _ p =>
    if sys.store.isHtap p then sys.setTables p { sys.tables p with main := .fresh } else sys
  | _ => sys

/-- A storage call. -/
def System.storage (server : Server) (op : Op) (sys : System) : Option System :=
  ((promotedBy sys.store op).elim (some sys) (sys.promote server)).map fun sys' =>
    { sys'.replaceMain op with store := op.apply sys.store }

inductive Call where
  | enableGraphRls
  | grantGraphAccess (iri role privilege : Text)
  | revokeGraphAccess (iri role : Text)
  | grantGraphPermission (role graph permission : Text)
  | revokeGraphPermission (role graph : Text) (permission : Option Text)
  | storage (op : Op)

/-- The database after a call; `none` if the call ends with an error. -/
def System.apply (server : Server) (sys : System) : Call → Option System
  | .enableGraphRls => some sys.enableGraphRls
  | .grantGraphAccess iri role privilege => sys.grantGraphAccess server iri role privilege
  | .revokeGraphAccess iri role => sys.revokeGraphAccess server iri role
  | .grantGraphPermission role graph permission =>
    sys.grantGraphPermission server role graph permission
  | .revokeGraphPermission role graph permission =>
    some (sys.revokeGraphPermission server role graph permission)
  | .storage op => sys.storage server op

end PgRipple.Security
