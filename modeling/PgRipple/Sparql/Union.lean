import PgRipple.Sparql.MergeCorrect
import Mathlib.Data.List.Sort
import Mathlib.Data.String.Basic

/-!
# `UNION` and `MINUS`

Both translators put their sides into subqueries, with a column for each variable. The
union aligns the columns of both sides and fills up with `NULL`; the difference keeps the
rows on the left for which no row on the right agrees on the shared variables that both
bind and binds one of them together with it.

The columns are named after the variables, and the names are not quoted. The server folds
their case and cuts them to a length, so that two variables can end up with one column
name. A query that reads such a column is ambiguous, and the server rejects it. The
identifier that the server reads is a parameter here.
-/

namespace PgRipple.Sparql

/-- The keys of `bindings`. -/
def Fragment.vars (frag : Fragment) : List String := frag.names.dedup

/-- `{prefix}{v}`, as the server reads it. -/
def columnOf (ident : String → String) (pre v : String) : Col := .named (ident (pre ++ v))

/-- `{col} AS {name}` for some variables, each with a column name. -/
def selectAs (col : String → Col) (vars : List String) (values : String → Value) : SqlRow :=
  vars.map fun v => (col v, values v)

/-- The variables of both sides, sorted. -/
def unionVars (left right : Fragment) : List String :=
  (left.vars ++ right.vars).dedup.insertionSort (· ≤ ·)

/-- `build_union_arm`. The graph column is the one of the first item. -/
def unionArm (ident : String → String) (includeG : Bool) (allVars : List String)
    (frag : Fragment) (db : Db) : List SqlRow :=
  (frag.joined db).map fun j =>
    selectAs (columnOf ident "_u_") allVars (frag.value db j) ++
      if includeG then [(.g, frag.fromItems.head?.bind fun item => j.col item.1 .g)] else []

/-- `((…) UNION ALL (…))`. -/
def unionSubquery (ident : String → String) (includeG : Bool) (left right : Fragment) : Source
    where
  rows db :=
    unionArm ident includeG (unionVars left right) left db ++
      unionArm ident includeG (unionVars left right) right db
  mentionsVp := (left.fromItems ++ right.fromItems).any fun item => item.2.mentionsVp

/-- The graph column of a side exists, if one is asked for; `hasG` tells which items have one. -/
def unionArmReads (includeG : Bool) (hasG : Alias → Bool) (frag : Fragment) : Prop :=
  includeG = true → ∀ item ∈ frag.fromItems.head?, hasG item.1 = true

instance (includeG : Bool) (hasG : Alias → Bool) (frag : Fragment) :
    Decidable (unionArmReads includeG hasG frag) :=
  inferInstanceAs (Decidable (_ → _))

/-- `translate_union`; `none` if a column that is read is ambiguous or does not exist. -/
def translateUnion (ident : String → String) (includeG : Bool) (hasG : Alias → Bool) (n : Nat)
    (left right : Fragment) : Option Fragment :=
  let allVars := unionVars left right
  if (allVars.map (columnOf ident "_u_")).Nodup ∧ unionArmReads includeG hasG left ∧
      unionArmReads includeG hasG right then
    some ⟨[(n, unionSubquery ident includeG left right)], [],
      allVars.map fun v => (v, column n (columnOf ident "_u_" v))⟩
  else none

/-- The variables of both sides that both have. -/
def sharedVars (left right : Fragment) : List String :=
  (left.vars.filter (· ∈ right.vars)).insertionSort (· ≤ ·)

/-- `({any_bound}) AND ({all_compatible})`. -/
def minusPartner (ident : String → String) (shared : List String) (l r : SqlRow) : Bool :=
  (shared.any fun v =>
      (l.get (columnOf ident "_m_" v)).isSome && (r.get (columnOf ident "_m_" v)).isSome) &&
    shared.all fun v =>
      (l.get (columnOf ident "_m_" v)).isNone || (r.get (columnOf ident "_m_" v)).isNone ||
        decide (l.get (columnOf ident "_m_" v) = r.get (columnOf ident "_m_" v))

/-- A row of `_lminus`. -/
def minusLeft (ident : String → String) (left right : Fragment) (db : Db) (j : Joined) : SqlRow :=
  selectAs (columnOf ident "_ma_") left.vars (left.value db j) ++
    selectAs (columnOf ident "_m_") (sharedVars left right) (left.value db j)

/-- A row of `_rminus`. -/
def minusRight (ident : String → String) (left right : Fragment) (db : Db) (j : Joined) : SqlRow :=
  selectAs (columnOf ident "_m_") (sharedVars left right) (right.value db j)

/-- `(SELECT … FROM ({left}) AS _lminus WHERE NOT EXISTS (…))`. -/
def minusSubquery (ident : String → String) (left right : Fragment) : Source where
  rows db :=
    let rightRows := (right.joined db).map (minusRight ident left right db)
    (((left.joined db).map (minusLeft ident left right db)).filter fun l =>
      !rightRows.any (minusPartner ident (sharedVars left right) l)).map fun l =>
        selectAs (columnOf ident "_mn_") left.vars fun v => l.get (columnOf ident "_ma_" v)
  mentionsVp := (left.fromItems ++ right.fromItems).any fun item => item.2.mentionsVp

/-- `translate_minus`; `none` if a column that is read is ambiguous. -/
def translateMinus (ident : String → String) (n : Nat) (left right : Fragment) :
    Option Fragment :=
  let shared := sharedVars left right
  if shared.isEmpty then some left
  else if (left.vars.map (columnOf ident "_ma_") ++ shared.map (columnOf ident "_m_")).Nodup ∧
      (left.vars.map (columnOf ident "_mn_")).Nodup then
    some ⟨[(n, minusSubquery ident left right)], [],
      left.vars.map fun v => (v, column n (columnOf ident "_mn_" v))⟩
  else none

section Columns

variable {col : String → Col} {v : String} {vars : List String} {values : String → Value}
  {rest : SqlRow}

theorem get_selectAs_append (distinct : (vars.map col).Nodup) (hv : v ∈ vars) :
    SqlRow.get (selectAs col vars values ++ rest) (col v) = values v := by
  induction vars with
  | nil => cases hv
  | cons w vars ih =>
    obtain ⟨fresh, distinct⟩ := List.nodup_cons.mp distinct
    rw [SqlRow.get, selectAs, List.map_cons, List.cons_append, List.lookup_cons]
    by_cases same : col v = col w
    · have here : v = w := by
        obtain here | later := List.mem_cons.mp hv
        · exact here
        · exact absurd (same ▸ List.mem_map_of_mem later) fresh
      simp [here]
    · have other : (col v == col w) = false := by simpa using same
      rw [other]
      refine ih distinct (List.mem_of_ne_of_mem ?_ hv)
      rintro rfl
      exact same rfl

theorem get_selectAs (distinct : (vars.map col).Nodup) (hv : v ∈ vars) :
    SqlRow.get (selectAs col vars values) (col v) = values v := by
  have here := @get_selectAs_append col v vars values [] distinct hv
  rwa [List.append_nil] at here

/-- A column behind others of different names. -/
theorem get_append_of_notMem {first : SqlRow} {c : Col} (other : c ∉ first.map Prod.fst) :
    SqlRow.get (first ++ rest) c = SqlRow.get rest c := by
  have none : first.lookup c = none := by
    rw [List.lookup_eq_none_iff]
    intro x hx
    rw [bne_iff_ne]
    rintro rfl
    exact other (List.mem_map_of_mem hx)
  rw [SqlRow.get, SqlRow.get, List.lookup_append, none]
  rfl

theorem map_fst_selectAs : (selectAs col vars values).map Prod.fst = vars.map col := by
  rw [selectAs, List.map_map]
  rfl

end Columns

section Subquery

variable {col : String → Col} {v : String} {vars : List String} {n : Alias} {src : Source}
  {db : Db} {μ : Mapping String TermId} {rest : SqlRow} {bindings : List (String × ColExpr)}
  {frag : Fragment}

theorem joined_single :
    (⟨[(n, src)], [], bindings⟩ : Fragment).joined db = (src.rows db).map fun r => [(n, r)] := by
  simp [Fragment.joined, List.sections, Function.comp_def]

theorem lookup_map_vars (e : String → ColExpr) :
    (vars.map fun v => (v, e v)).lookup v = if v ∈ vars then some (e v) else none := by
  induction vars with
  | nil => rfl
  | cons w vars ih =>
    rw [List.map_cons, Fragment.lookup_cons_eq, ih]
    by_cases same : v = w
    · simp [same]
    · simp [same]

/-- The columns of a subquery hold the solution that they were written from. -/
theorem value_selectAs (distinct : (vars.map col).Nodup) (within : Mapping.Within vars μ) :
    (⟨[(n, src)], [], vars.map fun v => (v, column n (col v))⟩ : Fragment).value db
      [(n, selectAs col vars μ ++ rest)] = μ := by
  funext v
  rw [Fragment.value, lookup_map_vars]
  by_cases hv : v ∈ vars
  · rw [if_pos hv]
    show Joined.col _ n _ = μ v
    rw [Joined.col, List.lookup_cons_self]
    exact get_selectAs_append distinct hv
  · rw [if_neg hv, within v hv]
    rfl

@[simp] theorem mem_vars : v ∈ frag.vars ↔ v ∈ frag.names := List.mem_dedup

theorem nodup_vars : frag.vars.Nodup := List.nodup_dedup _

theorem Mapping.Within.mono {names names' : List String} (h : Mapping.Within names μ)
    (sub : ∀ v ∈ names, v ∈ names') : Mapping.Within names' μ := by
  intro v hv
  exact h v fun mem => hv (sub v mem)

end Subquery

section Union

variable {ident : String → String} {includeG : Bool} {hasG : Alias → Bool} {n : Nat}
  {left right frag : Fragment} {db : Db} {v : String}

@[simp] theorem mem_unionVars : v ∈ unionVars left right ↔ v ∈ left.names ∨ v ∈ right.names := by
  rw [unionVars, List.mem_insertionSort, List.mem_dedup, List.mem_append, mem_vars, mem_vars]

theorem nodup_unionVars : (unionVars left right).Nodup :=
  (List.perm_insertionSort _ _).nodup_iff.mpr (List.nodup_dedup _)

/-- The union is translated, and its rows are those of both sides. -/
def UnionRight (ident : String → String) (includeG : Bool) (hasG : Alias → Bool) (n : Nat)
    (left right : Fragment) : Prop :=
  ∃ frag, translateUnion ident includeG hasG n left right = some frag ∧
    ∀ db, frag.solutions db = left.solutions db + right.solutions db

/-- No two variables of the union have one column name, and the graph of each side can be
read if it is asked for. -/
structure UnionColumnsApart (ident : String → String) (includeG : Bool) (hasG : Alias → Bool)
    (left right : Fragment) : Prop where
  named : Set.InjOn (fun v => ident ("_u_" ++ v)) {v | v ∈ left.names ∨ v ∈ right.names}
  leftGraph : unionArmReads includeG hasG left
  rightGraph : unionArmReads includeG hasG right

theorem nodup_map_columnOf {pre : String} {vars : List String} (nodup : vars.Nodup) :
    (vars.map (columnOf ident pre)).Nodup ↔
      Set.InjOn (fun v => ident (pre ++ v)) {v | v ∈ vars} := by
  rw [List.nodup_map_iff_inj_on nodup]
  constructor
  · intro inj v hv w hw same
    exact inj v hv w hw (congrArg Col.named same)
  · intro inj v hv w hw same
    exact inj hv hw (Col.named.inj same)

theorem nodup_unionColumns_iff :
    ((unionVars left right).map (columnOf ident "_u_")).Nodup ∧ unionArmReads includeG hasG left ∧
        unionArmReads includeG hasG right ↔
      UnionColumnsApart ident includeG hasG left right := by
  rw [nodup_map_columnOf nodup_unionVars]
  simp only [mem_unionVars]
  constructor
  · rintro ⟨named, leftGraph, rightGraph⟩
    exact ⟨named, leftGraph, rightGraph⟩
  · rintro ⟨named, leftGraph, rightGraph⟩
    exact ⟨named, leftGraph, rightGraph⟩

theorem solutions_translateUnion
    (done : translateUnion ident includeG hasG n left right = some frag) :
    frag.solutions db = left.solutions db + right.solutions db := by
  rw [translateUnion] at done
  split at done
  · next distinct =>
    obtain ⟨distinct, -, -⟩ := distinct
    cases done
    have arm (side : Fragment) (sub : ∀ v ∈ side.names, v ∈ unionVars left right) :
        ((unionArm ident includeG (unionVars left right) side db).map fun r =>
          (⟨[(n, unionSubquery ident includeG left right)], [], (unionVars left right).map fun v =>
            (v, column n (columnOf ident "_u_" v))⟩ : Fragment).value db [(n, r)]) =
          (side.joined db).map (side.value db) := by
      rw [unionArm, List.map_map]
      refine List.map_congr_left fun j _ => ?_
      exact value_selectAs distinct (Mapping.Within.mono Fragment.within_value sub)
    rw [Fragment.solutions, joined_single, Multiset.map_coe, List.map_map]
    show Multiset.ofList (List.map _ (unionArm .. ++ unionArm ..)) = _
    rw [List.map_append, ← Multiset.coe_add]
    refine congrArg₂ (fun x y => Multiset.ofList x + Multiset.ofList y) ?_ ?_
    · exact arm left fun v hv => mem_unionVars.mpr (Or.inl hv)
    · exact arm right fun v hv => mem_unionVars.mpr (Or.inr hv)
  · cases done

theorem unionRight_iff_apart :
    UnionRight ident includeG hasG n left right ↔
      UnionColumnsApart ident includeG hasG left right := by
  rw [← nodup_unionColumns_iff]
  constructor
  · rintro ⟨frag, done, -⟩
    rw [translateUnion] at done
    split at done
    · next distinct => exact distinct
    · cases done
  · intro distinct
    cases done : translateUnion ident includeG hasG n left right with
    | some frag => exact ⟨frag, done, fun db => solutions_translateUnion done⟩
    | none =>
      rw [translateUnion, if_pos distinct] at done
      cases done

end Union

section Minus

variable {ident : String → String} {n : Nat} {left right frag : Fragment} {db : Db} {v : String}
  {μ ν : Mapping String TermId} {shared : List String} {l r : SqlRow}

@[simp] theorem mem_sharedVars : v ∈ sharedVars left right ↔ v ∈ left.names ∧ v ∈ right.names := by
  rw [sharedVars, List.mem_insertionSort, List.mem_filter, decide_eq_true_iff, mem_vars, mem_vars]

theorem nodup_sharedVars : (sharedVars left right).Nodup :=
  (List.perm_insertionSort _ _).nodup_iff.mpr (nodup_vars.filter _)

/-- The difference is translated, and its rows are those on the left that no row on the
right takes away. -/
def MinusRight (ident : String → String) (n : Nat) (left right : Fragment) : Prop :=
  ∃ frag, translateMinus ident n left right = some frag ∧
    ∀ db, frag.solutions db = Mapping.minus (left.solutions db) (right.solutions db)

/-- If the sides share a variable, the columns that the difference reads have names of
their own. -/
structure MinusColumnsApart (ident : String → String) (left right : Fragment) : Prop where
  copied : Set.InjOn (fun v => ident ("_ma_" ++ v)) {v | v ∈ left.names}
  returned : Set.InjOn (fun v => ident ("_mn_" ++ v)) {v | v ∈ left.names}
  compared : Set.InjOn (fun v => ident ("_m_" ++ v)) {v | v ∈ left.names ∧ v ∈ right.names}
  separate : ∀ v ∈ left.names, ∀ w ∈ left.names, w ∈ right.names →
    ident ("_ma_" ++ v) ≠ ident ("_m_" ++ w)

theorem nodup_minusColumns_iff :
    (left.vars.map (columnOf ident "_ma_") ++
        (sharedVars left right).map (columnOf ident "_m_")).Nodup ∧
      (left.vars.map (columnOf ident "_mn_")).Nodup ↔ MinusColumnsApart ident left right := by
  rw [List.nodup_append, nodup_map_columnOf nodup_vars, nodup_map_columnOf nodup_vars,
    nodup_map_columnOf nodup_sharedVars]
  simp only [mem_vars, mem_sharedVars]
  constructor
  · rintro ⟨⟨copied, compared, separate⟩, returned⟩
    refine ⟨copied, returned, compared, fun v hv w hw hw' same => ?_⟩
    refine separate _ (List.mem_map_of_mem (mem_vars.mpr hv)) _
      (List.mem_map_of_mem (mem_sharedVars.mpr ⟨hw, hw'⟩)) (congrArg Col.named same)
  · rintro ⟨copied, returned, compared, separate⟩
    refine ⟨⟨copied, compared, ?_⟩, returned⟩
    intro c hc c' hc'
    obtain ⟨v, hv, rfl⟩ := List.mem_map.mp hc
    obtain ⟨w, hw, rfl⟩ := List.mem_map.mp hc'
    obtain ⟨hw, hw'⟩ := mem_sharedVars.mp hw
    exact fun same => separate v (mem_vars.mp hv) w hw hw' (Col.named.inj same)

/-- The condition of `NOT EXISTS` says that two solutions are compatible and bind a
variable together, if the columns hold the shared part of both. -/
theorem minusPartner_iff (hl : ∀ v ∈ shared, l.get (columnOf ident "_m_" v) = μ v)
    (hr : ∀ v ∈ shared, r.get (columnOf ident "_m_" v) = ν v)
    (both : ∀ v, v ∉ shared → μ v = none ∨ ν v = none) :
    minusPartner ident shared l r = true ↔
      Mapping.Compatible μ ν ∧ ∃ v, μ v ≠ none ∧ ν v ≠ none := by
  rw [minusPartner, Bool.and_eq_true, List.any_eq_true, List.all_eq_true, and_comm]
  refine and_congr ?_ ?_
  · constructor
    · intro all v
      by_cases hv : v ∈ shared
      · have here := all v hv
        rw [hl v hv, hr v hv] at here
        simpa [or_assoc] using here
      · obtain free | free := both v hv
        · exact Or.inl free
        · exact Or.inr (Or.inl free)
    · intro compatible v hv
      rw [hl v hv, hr v hv]
      simpa [or_assoc] using compatible v
  · constructor
    · rintro ⟨v, hv, bound⟩
      rw [hl v hv, hr v hv] at bound
      refine ⟨v, ?_⟩
      simpa [Option.isSome_iff_ne_none] using bound
    · rintro ⟨v, bound, bound'⟩
      have hv : v ∈ shared := by
        by_contra other
        obtain free | free := both v other
        · exact bound free
        · exact bound' free
      refine ⟨v, hv, ?_⟩
      rw [hl v hv, hr v hv]
      simp [Option.isSome_iff_ne_none, bound, bound']

/-- Outside of the shared variables, one of the sides binds nothing. -/
theorem unbound_of_not_shared (hμ : μ ∈ left.solutions db) (hν : ν ∈ right.solutions db)
    (other : v ∉ sharedVars left right) : μ v = none ∨ ν v = none := by
  rw [mem_sharedVars, not_and_or] at other
  obtain other | other := other
  · exact Or.inl (Fragment.within_of_mem hμ v other)
  · exact Or.inr (Fragment.within_of_mem hν v other)

/-- Without a shared variable nothing is taken away. -/
theorem minus_of_not_shared (none : sharedVars left right = []) :
    Mapping.minus (left.solutions db) (right.solutions db) = left.solutions db := by
  classical
  rw [Mapping.minus, Multiset.filter_eq_self]
  rintro μ hμ ⟨ν, hν, -, v, bound, bound'⟩
  have other : v ∉ sharedVars left right := by simp [none]
  obtain free | free := unbound_of_not_shared hμ hν other
  · exact bound free
  · exact bound' free

theorem solutions_minusSubquery
    (apart : (left.vars.map (columnOf ident "_ma_") ++
      (sharedVars left right).map (columnOf ident "_m_")).Nodup)
    (returned : (left.vars.map (columnOf ident "_mn_")).Nodup) :
    (⟨[(n, minusSubquery ident left right)], [],
      left.vars.map fun v => (v, column n (columnOf ident "_mn_" v))⟩ : Fragment).solutions db =
      Mapping.minus (left.solutions db) (right.solutions db) := by
  classical
  obtain ⟨copied, compared, separate⟩ := List.nodup_append.mp apart
  have own (j : Joined) : Mapping.Within left.vars (left.value db j) :=
    Mapping.Within.mono Fragment.within_value fun v hv => mem_vars.mpr hv
  have copy (j : Joined) (v : String) (hv : v ∈ left.vars) :
      (minusLeft ident left right db j).get (columnOf ident "_ma_" v) = left.value db j v :=
    get_selectAs_append copied hv
  have compareLeft (j : Joined) (v : String) (hv : v ∈ sharedVars left right) :
      (minusLeft ident left right db j).get (columnOf ident "_m_" v) = left.value db j v := by
    rw [minusLeft, get_append_of_notMem, get_selectAs compared hv]
    rw [map_fst_selectAs]
    intro mem
    exact separate _ mem _ (List.mem_map_of_mem hv) rfl
  have compareRight (j : Joined) (v : String) (hv : v ∈ sharedVars left right) :
      (minusRight ident left right db j).get (columnOf ident "_m_" v) = right.value db j v :=
    get_selectAs compared hv
  have kept (j : Joined) (hj : j ∈ left.joined db) :
      (!((right.joined db).map (minusRight ident left right db)).any
        (minusPartner ident (sharedVars left right) (minusLeft ident left right db j))) =
      decide (¬ ∃ ν ∈ right.solutions db, Mapping.Compatible (left.value db j) ν ∧
        ∃ v, left.value db j v ≠ none ∧ ν v ≠ none) := by
    have partner (j' : Joined) (hj' : j' ∈ right.joined db) :
        minusPartner ident (sharedVars left right) (minusLeft ident left right db j)
            (minusRight ident left right db j') = true ↔
          Mapping.Compatible (left.value db j) (right.value db j') ∧
            ∃ v, left.value db j v ≠ none ∧ right.value db j' v ≠ none :=
      minusPartner_iff (compareLeft j) (compareRight j') fun v other =>
        unbound_of_not_shared (Multiset.mem_map_of_mem _ hj) (Multiset.mem_map_of_mem _ hj') other
    rw [Bool.eq_iff_iff, Bool.not_eq_true', Bool.eq_false_iff, decide_eq_true_iff]
    refine not_congr ?_
    rw [List.any_eq_true]
    constructor
    · rintro ⟨r, hr, matches'⟩
      obtain ⟨j', hj', rfl⟩ := List.mem_map.mp hr
      exact ⟨_, Multiset.mem_map_of_mem _ hj', (partner j' hj').mp matches'⟩
    · rintro ⟨ν, hν, pair⟩
      obtain ⟨j', hj', rfl⟩ := Multiset.mem_map.mp hν
      exact ⟨_, List.mem_map_of_mem hj', (partner j' hj').mpr pair⟩
  have written (j : Joined) :
      (selectAs (columnOf ident "_mn_") left.vars fun v =>
        (minusLeft ident left right db j).get (columnOf ident "_ma_" v)) =
        selectAs (columnOf ident "_mn_") left.vars (left.value db j) := by
    refine List.map_congr_left fun v hv => ?_
    exact Prod.ext rfl (copy j v hv)
  rw [Fragment.solutions, joined_single, Multiset.map_coe, List.map_map, minusSubquery,
    List.map_map, List.filter_map, List.map_map, Mapping.minus]
  rw [show left.solutions db = Multiset.ofList ((left.joined db).map (left.value db)) from rfl,
    Multiset.filter_coe, List.filter_map]
  refine congrArg Multiset.ofList ((congrArg (List.map _) (List.filter_congr kept)).trans ?_)
  refine List.map_congr_left fun j _ => ?_
  rw [Function.comp_apply, Function.comp_apply, written]
  have read :=
      @value_selectAs (columnOf ident "_mn_") left.vars n (minusSubquery ident left right) db
    (left.value db j) [] returned (own j)
  rw [List.append_nil] at read
  exact read

theorem minusRight_iff_apart :
    MinusRight ident n left right ↔
      ((∃ v ∈ left.names, v ∈ right.names) → MinusColumnsApart ident left right) := by
  have none_shared : sharedVars left right = [] ↔ ¬ ∃ v ∈ left.names, v ∈ right.names := by
    rw [List.eq_nil_iff_forall_not_mem, not_exists]
    refine forall_congr' fun v => ?_
    rw [mem_sharedVars]
  by_cases shared : ∃ v ∈ left.names, v ∈ right.names
  · have some_shared : ¬ (sharedVars left right).isEmpty = true := by
      rw [List.isEmpty_iff, none_shared]
      exact not_not_intro shared
    rw [imp_iff_right shared, ← nodup_minusColumns_iff]
    constructor
    · rintro ⟨frag, done, -⟩
      rw [translateMinus, if_neg some_shared] at done
      split at done
      · next distinct => exact distinct
      · cases done
    · intro distinct
      refine ⟨_, ?_, fun db => solutions_minusSubquery (n := n) distinct.1 distinct.2⟩
      rw [translateMinus, if_neg some_shared, if_pos distinct]
  · refine iff_of_true ⟨left, ?_, fun db => ?_⟩ fun some_shared => absurd some_shared shared
    · rw [translateMinus, if_pos (List.isEmpty_iff.mpr (none_shared.mpr shared))]
    · exact (minus_of_not_shared (none_shared.mpr shared)).symm

end Minus

/-- `UNION` and `MINUS` return what they should just if the server tells the columns that
they write apart and finds the graphs that it is asked for; `MINUS` writes no columns if
its sides share no variable. -/
theorem unionRight_and_minusRight_iff (ident : String → String) (includeG : Bool)
    (hasG : Alias → Bool) (n : Nat) (left right : Fragment) :
    (UnionRight ident includeG hasG n left right ↔
        UnionColumnsApart ident includeG hasG left right) ∧
      (MinusRight ident n left right ↔
        ((∃ v ∈ left.names, v ∈ right.names) → MinusColumnsApart ident left right)) :=
  ⟨unionRight_iff_apart, minusRight_iff_apart⟩

/-- Identifiers that are not quoted are folded to lower case. -/
def foldCase (name : String) : String := String.ofList (name.toList.map Char.toLower)

/-- The fragment of `?x <a> ?X`. -/
def twoCases : Fragment :=
  ((translateBgp oneIri false (fun _ _ _ => 0) none 0
    [⟨.var "x", .namedNode "a", .var "X"⟩]).map Prod.fst).getD .empty

/-- `{ ?x <a> ?X } UNION { ?x <a> ?X }` and `{ ?x <a> ?X } MINUS { ?x <a> ?X }` are rejected. -/
theorem not_unionRight_or_minusRight :
    ¬ UnionRight foldCase false (fun _ => true) 1 twoCases twoCases ∧
      ¬ MinusRight foldCase 1 twoCases twoCases := by
  have x : "x" ∈ twoCases.names := by decide
  have big : "X" ∈ twoCases.names := by decide
  constructor
  · intro right
    have apart := unionRight_iff_apart.mp right
    have same : foldCase ("_u_" ++ "x") = foldCase ("_u_" ++ "X") := by decide
    exact absurd (apart.named (Or.inl x) (Or.inl big) same) (by decide)
  · intro right
    have apart := minusRight_iff_apart.mp right ⟨"x", x, x⟩
    have same : foldCase ("_ma_" ++ "x") = foldCase ("_ma_" ++ "X") := by decide
    exact absurd (apart.copied x big same) (by decide)

end PgRipple.Sparql
