import PgRipple.Lib.OuterJoin
import PgRipple.Sparql.FilterCorrect
import PgRipple.Sparql.Union

/-!
# `OPTIONAL`

Both sides of an `OPTIONAL` become subqueries that are joined on plain equations between
the shared variables, with a `LEFT JOIN` or, where the right side is taken to have a
partner for every row, with an `INNER JOIN`. The filter inside of the `OPTIONAL` is
translated over the columns of the right side only and moved into the right subquery; if
it cannot be translated there, it is left out.

A row of the result comes from a row on the left and its partner on the right, or from a
row on the left alone.
-/

namespace PgRipple.Sparql

/-- A filter: what `translate_expr` makes of it over some columns, and the solutions for
which it is true. -/
structure FilterExpr where
  translate : List (String × ColExpr) → Option SqlBool
  holds : Mapping String TermId → Prop

/-- The filter of an expression. -/
def Expression.filterExpr {τ : Type} [DecidableEq τ] (sem : TermSemantics τ) (env : Env)
    (iriId : String → TermId) (e : Expression) : FilterExpr where
  translate bindings := translateExpr env iriId bindings e
  holds μ := truth sem (fun v => (μ v).map sem.decode) e = some true

/-- The condition of an optional filter on the solutions. -/
def filterHolds (expression : Option FilterExpr) (μ : Mapping String TermId) : Prop :=
  ∀ expr ∈ expression, expr.holds μ

section Translate

variable (ident : String → String) (env : Env) (mandatory : Bool) (n : Nat)
  (left right : Fragment) (expression : Option FilterExpr)

/-- `{prefix}{sanitize_sql_ident(v)}`, as the server reads it. -/
def optionalColumn (pre v : String) : Col := columnOf ident pre (env.sanitizeSqlIdent v)

/-- The condition that is moved into the right subquery. -/
def pushedFilter (db : Db) (j : Joined) : Bool :=
  match expression.bind fun expr => expr.translate right.bindings with
  | some cond => decide (cond db j = some true)
  | none => true

/-- A row of the left subquery. -/
def optionalLeft (db : Db) (j : Joined) : SqlRow :=
  selectAs (optionalColumn ident env "_lc_") left.vars (left.value db j)

/-- A row of the right subquery. -/
def optionalRight (db : Db) (j : Joined) : SqlRow :=
  selectAs (optionalColumn ident env "_rc_") right.vars (right.value db j)

/-- The `ON` clause. -/
def optionalOn (db : Db) (l r : Joined) : Bool :=
  (sharedVars left right).all fun v =>
    let x := (optionalLeft ident env left db l).get (optionalColumn ident env "_lc_" v)
    x.isSome && decide
      (x = (optionalRight ident env right db r).get (optionalColumn ident env "_rc_" v))

/-- `FROM {left_subq} {join_kw} {right_subq} {on_clause}`: the rows of both sides that a row
comes from. -/
def optionalPairs (db : Db) : List (Joined × Option Joined) :=
  let rights := (right.joined db).filter (pushedFilter right expression db)
  let pairs := OuterJoin.leftJoin (optionalOn ident env left right db) (left.joined db) rights
  if mandatory then pairs.filter fun pair => pair.2.isSome else pairs

/-- The variables that only the right side has. -/
def rightOnly : List String := right.vars.filter (· ∉ left.vars)

/-- `SELECT {combined_select}`. -/
def optionalRow (db : Db) (pair : Joined × Option Joined) : SqlRow :=
  selectAs (optionalColumn ident env "_lj_") (left.vars ++ rightOnly left right) fun v =>
    if v ∈ left.vars then
      (optionalLeft ident env left db pair.1).get (optionalColumn ident env "_lc_" v)
    else
      pair.2.bind fun r =>
        (optionalRight ident env right db r).get (optionalColumn ident env "_rc_" v)

/-- `(SELECT … FROM … JOIN …)`. -/
def optionalSubquery : Source where
  rows db := (optionalPairs ident env mandatory left right expression db).map
    (optionalRow ident env left right db)
  mentionsVp := (left.fromItems ++ right.fromItems).any fun item => item.2.mentionsVp

/-- `translate_left_join`; `none` if a column that is read is ambiguous. -/
def translateLeftJoin : Option Fragment :=
  let lj := optionalColumn ident env "_lj_"
  let vars := left.vars ++ rightOnly left right
  if (left.vars.map (optionalColumn ident env "_lc_")).Nodup ∧
      (right.vars.map (optionalColumn ident env "_rc_")).Nodup ∧ (vars.map lj).Nodup then
    some ⟨[(n, optionalSubquery ident env mandatory left right expression)], [],
      vars.map fun v => (v, column n (lj v))⟩
  else none

end Translate

section Correct

variable {ident : String → String} {env : Env} {mandatory : Bool} {n : Nat}
  {left right frag : Fragment} {expression : Option FilterExpr} {db : Db} {l r : Joined}
  {v : String} {pair : Joined × Option Joined}

/-- Two rows are compatible, and the filter holds of both together. -/
def Partner (left right : Fragment) (expression : Option FilterExpr) (db : Db)
    (l r : Joined) : Prop :=
  Mapping.Compatible (left.value db l) (right.value db r) ∧
    filterHolds expression (Mapping.merge (left.value db l) (right.value db r))

open Classical in
/-- The pairs of `LeftJoin`: a row on the left with a partner, or alone if it has none. -/
noncomputable def leftJoinPairs (left right : Fragment) (expression : Option FilterExpr)
    (db : Db) : List (Joined × Option Joined) :=
  OuterJoin.leftJoin (fun l r => decide (Partner left right expression db l r)) (left.joined db)
    (right.joined db)

/-- The solution of a pair. -/
def pairSolution (left right : Fragment) (db : Db) (pair : Joined × Option Joined) :
    Mapping String TermId :=
  match pair.2 with
  | some r => Mapping.merge (left.value db pair.1) (right.value db r)
  | none => left.value db pair.1

/-- The `OPTIONAL` is translated, its rows are those of `LeftJoin`, and they come from the
same rows of both sides. -/
structure OptionalRight (ident : String → String) (env : Env) (mandatory : Bool) (n : Nat)
    (left right : Fragment) (expression : Option FilterExpr) (db : Db) : Prop where
  rows : ∃ frag, translateLeftJoin ident env mandatory n left right expression = some frag ∧
    frag.solutions db =
      Mapping.leftJoin (filterHolds expression) (left.solutions db) (right.solutions db)
  pairs : optionalPairs ident env mandatory left right expression db =
    leftJoinPairs left right expression db

/-- Different variables have different columns. -/
structure OptionalColumnsApart (ident : String → String) (env : Env) (left right : Fragment) :
    Prop where
  ofLeft : Set.InjOn (fun v => ident ("_lc_" ++ env.sanitizeSqlIdent v)) {v | v ∈ left.names}
  ofRight : Set.InjOn (fun v => ident ("_rc_" ++ env.sanitizeSqlIdent v)) {v | v ∈ right.names}
  ofBoth : Set.InjOn (fun v => ident ("_lj_" ++ env.sanitizeSqlIdent v))
    {v | v ∈ left.names ∨ v ∈ right.names}

/-- Two rows bind the shared variables, to the same terms. -/
def Agree (left right : Fragment) (db : Db) (l r : Joined) : Prop :=
  ∀ v ∈ left.names, v ∈ right.names →
    left.value db l v ≠ none ∧ left.value db l v = right.value db r v

/-- When an `OPTIONAL` is a `LeftJoin`. -/
structure OptionalSafe (ident : String → String) (env : Env) (mandatory : Bool)
    (left right : Fragment) (expression : Option FilterExpr) (db : Db) : Prop where
  columns : OptionalColumnsApart ident env left right
  /-- Where a side leaves a shared variable unbound, the rows are no partners. -/
  bound : ∀ l ∈ left.joined db, ∀ r ∈ right.joined db, Partner left right expression db l r →
    ∀ v ∈ left.names, v ∈ right.names → left.value db l v ≠ none ∧ right.value db r v ≠ none
  /-- Where both sides bind the shared variables to the same terms, what is left of the
  filter over the right columns means what the filter means on the joined row. -/
  filter : ∀ l ∈ left.joined db, ∀ r ∈ right.joined db, Agree left right db l r →
    (pushedFilter right expression db r = true ↔
      filterHolds expression (Mapping.merge (left.value db l) (right.value db r)))
  /-- With an inner join, every row on the left has a partner. -/
  partner : mandatory = true → ∀ l ∈ left.joined db, ∃ r ∈ right.joined db,
    Partner left right expression db l r

@[simp] theorem mem_rightOnly : v ∈ rightOnly left right ↔ v ∈ right.names ∧ v ∉ left.names := by
  rw [rightOnly, List.mem_filter, decide_eq_true_iff, mem_vars, mem_vars]

theorem nodup_optionalVars : (left.vars ++ rightOnly left right).Nodup := by
  rw [List.nodup_append]
  refine ⟨nodup_vars, nodup_vars.filter _, ?_⟩
  intro v hv w hw
  rintro rfl
  exact (mem_rightOnly.mp hw).2 (mem_vars.mp hv)

theorem mem_optionalVars :
    v ∈ left.vars ++ rightOnly left right ↔ v ∈ left.names ∨ v ∈ right.names := by
  rw [List.mem_append, mem_vars, mem_rightOnly]
  by_cases hv : v ∈ left.names <;> simp [hv]

theorem nodup_map_optionalColumn {pre : String} {vars : List String} (nodup : vars.Nodup) :
    (vars.map (optionalColumn ident env pre)).Nodup ↔
      Set.InjOn (fun v => ident (pre ++ env.sanitizeSqlIdent v)) {v | v ∈ vars} := by
  rw [List.nodup_map_iff_inj_on nodup]
  constructor
  · intro inj v hv w hw same
    exact inj v hv w hw (congrArg Col.named same)
  · intro inj v hv w hw same
    exact inj hv hw (Col.named.inj same)

/-- The `ON` clause compares what both sides bind. -/
theorem optionalOn_iff (hl : (left.vars.map (optionalColumn ident env "_lc_")).Nodup)
    (hr : (right.vars.map (optionalColumn ident env "_rc_")).Nodup) :
    optionalOn ident env left right db l r = true ↔ Agree left right db l r := by
  rw [optionalOn, List.all_eq_true, Agree]
  constructor
  · intro all v hv hv'
    have here := all v (mem_sharedVars.mpr ⟨hv, hv'⟩)
    rw [optionalLeft, optionalRight, get_selectAs hl (mem_vars.mpr hv),
      get_selectAs hr (mem_vars.mpr hv'), Bool.and_eq_true, decide_eq_true_iff,
      Option.isSome_iff_ne_none] at here
    exact here
  · intro all v hv
    obtain ⟨hv, hv'⟩ := mem_sharedVars.mp hv
    rw [optionalLeft, optionalRight, get_selectAs hl (mem_vars.mpr hv),
      get_selectAs hr (mem_vars.mpr hv'), Bool.and_eq_true, decide_eq_true_iff,
      Option.isSome_iff_ne_none]
    exact all v hv hv'

/-- Rows that agree on the shared variables are compatible. -/
theorem compatible_of_agree (agree : Agree left right db l r) :
    Mapping.Compatible (left.value db l) (right.value db r) := by
  intro v
  by_cases hv : v ∈ left.names
  · by_cases hv' : v ∈ right.names
    · exact Or.inr (Or.inr (agree v hv hv').2)
    · exact Or.inr (Or.inl (Fragment.within_value v hv'))
  · exact Or.inl (Fragment.within_value v hv)

theorem agree_of_compatible (pair : Mapping.Compatible (left.value db l) (right.value db r))
    (bound : ∀ v ∈ left.names, v ∈ right.names →
      left.value db l v ≠ none ∧ right.value db r v ≠ none) : Agree left right db l r := by
  intro v hv hv'
  obtain ⟨hl, hr⟩ := bound v hv hv'
  obtain free | free | same := pair v
  · exact absurd free hl
  · exact absurd free hr
  · exact ⟨hl, same⟩

theorem mem_optionalPairs_some :
    (l, some r) ∈ optionalPairs ident env mandatory left right expression db ↔
      l ∈ left.joined db ∧ r ∈ right.joined db ∧ pushedFilter right expression db r = true ∧
        optionalOn ident env left right db l r = true := by
  have pairs : (l, some r) ∈ optionalPairs ident env mandatory left right expression db ↔
      (l, some r) ∈ OuterJoin.leftJoin (optionalOn ident env left right db) (left.joined db)
        ((right.joined db).filter (pushedFilter right expression db)) := by
    rw [optionalPairs]
    cases mandatory <;> simp
  rw [pairs, OuterJoin.mem_leftJoin_some, List.mem_filter, and_assoc]

theorem mem_optionalPairs_none (h : mandatory = true) :
    (l, none) ∉ optionalPairs ident env mandatory left right expression db := by
  subst h
  simp [optionalPairs]

theorem mem_leftJoinPairs_some :
    (l, some r) ∈ leftJoinPairs left right expression db ↔
      l ∈ left.joined db ∧ r ∈ right.joined db ∧ Partner left right expression db l r := by
  classical
  rw [leftJoinPairs, OuterJoin.mem_leftJoin_some, decide_eq_true_iff]

theorem mem_leftJoinPairs_none :
    (l, none) ∈ leftJoinPairs left right expression db ↔
      l ∈ left.joined db ∧ ∀ r ∈ right.joined db, ¬ Partner left right expression db l r := by
  rw [leftJoinPairs, OuterJoin.mem_leftJoin_none]
  refine and_congr_right fun _ => forall₂_congr fun r _ => ?_
  exact decide_eq_false_iff_not

/-- The solutions of the pairs of `LeftJoin`. -/
theorem map_leftJoinPairs :
    (Multiset.ofList ((leftJoinPairs left right expression db).map (pairSolution left right db))) =
      Mapping.leftJoin (filterHolds expression) (left.solutions db) (right.solutions db) := by
  classical
  rw [leftJoinPairs, OuterJoin.leftJoin, List.map_flatMap, ← Multiset.coe_bind, Mapping.leftJoin,
    Fragment.solutions, Multiset.bind_map]
  refine Multiset.bind_congr fun l _ => ?_
  have some_partner : (∃ ν ∈ right.solutions db, Mapping.Compatible (left.value db l) ν ∧
      filterHolds expression (Mapping.merge (left.value db l) ν)) ↔
        ∃ r ∈ right.joined db, Partner left right expression db l r := by
    constructor
    · rintro ⟨ν, hν, partner⟩
      obtain ⟨r, hr, rfl⟩ := Multiset.mem_map.mp hν
      exact ⟨r, hr, partner⟩
    · rintro ⟨r, hr, partner⟩
      exact ⟨_, Multiset.mem_map_of_mem _ hr, partner⟩
  cases partners : (right.joined db).filter
      fun r => decide (Partner left right expression db l r) with
  | nil =>
    have nobody : ¬ ∃ r ∈ right.joined db, Partner left right expression db l r := by
      rintro ⟨r, hr, partner⟩
      have mem : r ∈ (right.joined db).filter
          fun r => decide (Partner left right expression db l r) :=
        List.mem_filter.mpr ⟨hr, decide_eq_true partner⟩
      rw [partners] at mem
      cases mem
    rw [if_neg (some_partner.not.mpr nobody)]
    rfl
  | cons r rest =>
    have somebody : ∃ r ∈ right.joined db, Partner left right expression db l r := by
      have mem : r ∈ (right.joined db).filter
          fun r => decide (Partner left right expression db l r) := by
        rw [partners]
        exact List.mem_cons_self
      obtain ⟨hr, partner⟩ := List.mem_filter.mp mem
      exact ⟨r, hr, of_decide_eq_true partner⟩
    rw [if_pos (some_partner.mpr somebody)]
    show Multiset.ofList
        (((r :: rest).map fun r => (l, some r)).map (pairSolution left right db)) = _
    rw [← partners, List.map_map, Fragment.solutions, Multiset.filter_map, Multiset.filter_coe,
      Multiset.map_map, Multiset.map_coe]
    refine congrArg (fun rows => Multiset.ofList (List.map _ rows)) ?_
    refine List.filter_congr fun r _ => ?_
    rw [decide_eq_decide]
    rfl

/-- The row of a pair holds its solution. -/
theorem optionalRow_eq (hl : (left.vars.map (optionalColumn ident env "_lc_")).Nodup)
    (hr : (right.vars.map (optionalColumn ident env "_rc_")).Nodup)
    (mem : pair ∈ optionalPairs ident env mandatory left right expression db) :
    optionalRow ident env left right db pair =
      selectAs (optionalColumn ident env "_lj_") (left.vars ++ rightOnly left right)
        (pairSolution left right db pair) := by
  obtain ⟨l, r⟩ := pair
  refine List.map_congr_left fun v hv => Prod.ext rfl ?_
  by_cases onLeft : v ∈ left.vars
  · show (if v ∈ left.vars then _ else _) = pairSolution left right db (l, r) v
    rw [if_pos onLeft, optionalLeft, get_selectAs hl onLeft]
    cases r with
    | none => rfl
    | some r =>
      have on := (mem_optionalPairs_some.mp mem).2.2.2
      show left.value db l v = (left.value db l v).or (right.value db r v)
      by_cases onRight : v ∈ right.names
      · obtain ⟨bound, -⟩ := (optionalOn_iff hl hr).mp on v (mem_vars.mp onLeft) onRight
        obtain ⟨id, value⟩ := Option.ne_none_iff_exists'.mp bound
        rw [value]
        rfl
      · rw [@Fragment.within_value right db r v onRight, Option.or_none]
  · have onRight : v ∈ right.vars := by
      rw [List.mem_append] at hv
      exact mem_vars.mpr (mem_rightOnly.mp (hv.resolve_left onLeft)).1
    have free : left.value db l v = none :=
      Fragment.within_value v fun names => onLeft (mem_vars.mpr names)
    show (if v ∈ left.vars then _ else _) = pairSolution left right db (l, r) v
    rw [if_neg onLeft]
    cases r with
    | none => exact free.symm
    | some r =>
      show (optionalRight ident env right db r).get _ =
        (left.value db l v).or (right.value db r v)
      rw [optionalRight, get_selectAs hr onRight, free]
      rfl

theorem solutions_optionalSubquery (hl : (left.vars.map (optionalColumn ident env "_lc_")).Nodup)
    (hr : (right.vars.map (optionalColumn ident env "_rc_")).Nodup)
    (hlj : ((left.vars ++ rightOnly left right).map (optionalColumn ident env "_lj_")).Nodup) :
    (⟨[(n, optionalSubquery ident env mandatory left right expression)], [],
      (left.vars ++ rightOnly left right).map fun v =>
        (v, column n (optionalColumn ident env "_lj_" v))⟩ : Fragment).solutions db =
      Multiset.ofList ((optionalPairs ident env mandatory left right expression db).map
        (pairSolution left right db)) := by
  rw [Fragment.solutions, joined_single, Multiset.map_coe, List.map_map, optionalSubquery,
    List.map_map]
  refine congrArg Multiset.ofList (List.map_congr_left fun pair mem => ?_)
  have within : Mapping.Within (left.vars ++ rightOnly left right)
      (pairSolution left right db pair) := by
    intro v hv
    rw [mem_optionalVars, not_or] at hv
    obtain ⟨l, r⟩ := pair
    have free := @Fragment.within_value left db l v hv.1
    cases r with
    | none => exact free
    | some r =>
      show (left.value db l v).or (right.value db r v) = none
      rw [free, @Fragment.within_value right db r v hv.2]
      rfl
  rw [Function.comp_apply, Function.comp_apply, optionalRow_eq hl hr mem]
  have read := @value_selectAs (optionalColumn ident env "_lj_") (left.vars ++ rightOnly left right)
    n (optionalSubquery ident env mandatory left right expression) db
    (pairSolution left right db pair) [] hlj within
  rw [List.append_nil] at read
  exact read

/-- A pair is joined just if it should be, where the right side keeps what it should. -/
theorem joined_iff_partner (hl : (left.vars.map (optionalColumn ident env "_lc_")).Nodup)
    (hr : (right.vars.map (optionalColumn ident env "_rc_")).Nodup)
    (safe : OptionalSafe ident env mandatory left right expression db) (memL : l ∈ left.joined db)
    (memR : r ∈ right.joined db) :
    pushedFilter right expression db r = true ∧ optionalOn ident env left right db l r = true ↔
      Partner left right expression db l r := by
  rw [optionalOn_iff hl hr]
  constructor
  · rintro ⟨kept, agree⟩
    exact ⟨compatible_of_agree agree, (safe.filter l memL r memR agree).mp kept⟩
  · intro partner
    have agree := agree_of_compatible partner.1 (safe.bound l memL r memR partner)
    exact ⟨(safe.filter l memL r memR agree).mpr partner.2, agree⟩

theorem optionalPairs_eq (hl : (left.vars.map (optionalColumn ident env "_lc_")).Nodup)
    (hr : (right.vars.map (optionalColumn ident env "_rc_")).Nodup)
    (safe : OptionalSafe ident env mandatory left right expression db) :
    optionalPairs ident env mandatory left right expression db =
      leftJoinPairs left right expression db := by
  classical
  have outer : OuterJoin.leftJoin (optionalOn ident env left right db) (left.joined db)
      ((right.joined db).filter (pushedFilter right expression db)) =
        leftJoinPairs left right expression db := by
    rw [OuterJoin.leftJoin_filter, leftJoinPairs]
    refine OuterJoin.leftJoin_congr fun l memL r memR => ?_
    rw [Bool.eq_iff_iff, Bool.and_eq_true, decide_eq_true_iff]
    exact joined_iff_partner hl hr safe memL memR
  rw [optionalPairs]
  simp only [outer]
  cases inner : mandatory with
  | false => rfl
  | true =>
    rw [if_pos rfl, List.filter_eq_self]
    intro pair mem
    obtain ⟨l, r⟩ := pair
    cases r with
    | some r => rfl
    | none =>
      obtain ⟨memL, nobody⟩ := mem_leftJoinPairs_none.mp mem
      obtain ⟨r, memR, partner⟩ := safe.partner inner l memL
      exact absurd partner (nobody r memR)

theorem nodup_optionalColumns_iff :
    (left.vars.map (optionalColumn ident env "_lc_")).Nodup ∧
        (right.vars.map (optionalColumn ident env "_rc_")).Nodup ∧
        ((left.vars ++ rightOnly left right).map (optionalColumn ident env "_lj_")).Nodup ↔
      OptionalColumnsApart ident env left right := by
  rw [nodup_map_optionalColumn nodup_vars, nodup_map_optionalColumn nodup_vars,
    nodup_map_optionalColumn nodup_optionalVars]
  simp only [mem_vars, mem_optionalVars]
  constructor
  · rintro ⟨ofLeft, ofRight, ofBoth⟩
    exact ⟨ofLeft, ofRight, ofBoth⟩
  · rintro ⟨ofLeft, ofRight, ofBoth⟩
    exact ⟨ofLeft, ofRight, ofBoth⟩

end Correct

/-- An `OPTIONAL` is a `LeftJoin` just if it is safe. -/
theorem optionalRight_iff (ident : String → String) (env : Env) (mandatory : Bool) (n : Nat)
    (left right : Fragment) (expression : Option FilterExpr) (db : Db) :
    OptionalRight ident env mandatory n left right expression db ↔
      OptionalSafe ident env mandatory left right expression db := by
  constructor
  · rintro ⟨⟨frag, done, -⟩, pairs⟩
    rw [translateLeftJoin] at done
    split at done
    · next distinct =>
      have columns := nodup_optionalColumns_iff.mp distinct
      obtain ⟨hl, hr, -⟩ := distinct
      have same (l r : Joined) : (l ∈ left.joined db ∧ r ∈ right.joined db ∧
          pushedFilter right expression db r = true ∧
            optionalOn ident env left right db l r = true) ↔
          l ∈ left.joined db ∧ r ∈ right.joined db ∧ Partner left right expression db l r := by
        rw [← mem_leftJoinPairs_some, ← pairs, mem_optionalPairs_some]
      refine ⟨columns, ?_, ?_, ?_⟩
      · intro l memL r memR partner v hv hv'
        obtain ⟨-, -, -, on⟩ := (same l r).mpr ⟨memL, memR, partner⟩
        obtain ⟨bound, equal⟩ := (optionalOn_iff hl hr).mp on v hv hv'
        exact ⟨bound, equal ▸ bound⟩
      · intro l memL r memR agree
        have on := (optionalOn_iff hl hr).mpr agree
        constructor
        · intro kept
          exact ((same l r).mp ⟨memL, memR, kept, on⟩).2.2.2
        · intro holds
          exact ((same l r).mpr ⟨memL, memR, compatible_of_agree agree, holds⟩).2.2.1
      · intro inner l memL
        by_contra nobody
        have alone : (l, none) ∈ leftJoinPairs left right expression db := by
          refine mem_leftJoinPairs_none.mpr ⟨memL, fun r memR partner => ?_⟩
          exact nobody ⟨r, memR, partner⟩
        rw [← pairs] at alone
        exact mem_optionalPairs_none inner alone
    · cases done
  · intro safe
    obtain ⟨hl, hr, hlj⟩ := nodup_optionalColumns_iff.mpr safe.columns
    have pairs := optionalPairs_eq hl hr safe
    refine ⟨⟨_, if_pos ⟨hl, hr, hlj⟩, ?_⟩, pairs⟩
    rw [solutions_optionalSubquery hl hr hlj, pairs, map_leftJoinPairs]

/-- `VALUES ?{v} { <a> }`, with aliases from `n` on. -/
def valuesOfA (n : Nat) (v : String) : Fragment :=
  (translateValues oneIri n [v] [[some (.namedNode "a")]]).1

/-- `FILTER(!sameTerm(?x, ?y))`. -/
def differ : FilterExpr :=
  (Expression.not (.sameTerm (.var "x") (.var "y"))).filterExpr coarseTerms oneIri fun _ => 2

/-- `VALUES ?x { <a> } OPTIONAL { VALUES ?y { <a> } FILTER(!sameTerm(?x, ?y)) }`: the filter
is left out, and the row on the left gets a partner. -/
theorem not_optionalRight :
    ¬ OptionalRight id oneIri false 4 (valuesOfA 0 "x") (valuesOfA 2 "y") (some differ)
      ⟨.initial, []⟩ := by
  rintro ⟨-, pairs⟩
  have joined : ([(.counted 1, [(Col.named "x", some 1)])],
      some [(.counted 3, [(Col.named "y", some 1)])]) ∈
      optionalPairs id oneIri false (valuesOfA 0 "x") (valuesOfA 2 "y") (some differ)
        ⟨.initial, []⟩ :=
    mem_optionalPairs_some.mpr ⟨List.mem_singleton_self _, List.mem_singleton_self _, by decide,
      by decide⟩
  rw [pairs] at joined
  obtain ⟨-, -, -, holds⟩ := mem_leftJoinPairs_some.mp joined
  have kept : truth coarseTerms _ (.not (.sameTerm (.var "x") (.var "y"))) = some true :=
    holds differ rfl
  exact absurd kept (by decide)

end PgRipple.Sparql
