import PgRipple.Lib.Mapping
import PgRipple.Sparql.Fragment

/-!
# Joins of fragments

`Fragment::merge` puts two fragments side by side. A variable that both bind gets a
condition that the left column is `NULL` or equal to the right one, and the first of the
two that is not `NULL` becomes its value.

A column of a fragment reads the items of that fragment only, since every item has an
alias of its own. The rows of the merged fragment are then pairs of rows, and the merge
can be compared with the join of the solutions they stand for.
-/

namespace PgRipple.Sparql

/-- `({existing} IS NULL OR {existing} = {col})`. -/
def Cond.nullOrEq (existing col : ColExpr) : Cond := fun db j =>
  (existing db j).isNone || Cond.eq existing col db j

/-- `COALESCE({existing}, {col})`. -/
def coalesce (existing col : ColExpr) : ColExpr := fun db j => (existing db j).or (col db j)

namespace Fragment

/-- What `merge` does with a binding of the other fragment. -/
def mergeBinding (frag : Fragment) (b : String × ColExpr) : Fragment :=
  match frag.bindings.lookup b.1 with
  | some existing =>
    { frag with
      conditions := frag.conditions ++ [.nullOrEq existing b.2]
      bindings := frag.bindings.map fun c =>
        if c.1 = b.1 then (c.1, coalesce existing b.2) else c }
  | none => { frag with bindings := frag.bindings ++ [b] }

/-- `Fragment::merge`. -/
def merge (frag other : Fragment) : Fragment :=
  other.bindings.foldl mergeBinding
    { frag with
      fromItems := frag.fromItems ++ other.fromItems
      conditions := frag.conditions ++ other.conditions }

/-- The variables that have a column. -/
def names (frag : Fragment) : List String := frag.bindings.map Prod.fst

def aliases (frag : Fragment) : List Alias := frag.fromItems.map Prod.fst

/-- The solutions that the rows stand for. -/
def solutions (frag : Fragment) (db : Db) : Multiset (Mapping String TermId) :=
  (frag.joined db : Multiset Joined).map (frag.value db)

end Fragment

/-- The value depends on the rows under some aliases only. -/
def ReadsOnly {γ : Type} (aliases : List Alias) (e : Db → Joined → γ) : Prop :=
  ∀ db j j', (∀ n ∈ aliases, j.lookup n = j'.lookup n) → e db j = e db j'

section ReadsOnly

variable {γ : Type} {aliases aliases' : List Alias} {e : Db → Joined → γ} {a b : ColExpr}

theorem ReadsOnly.mono (h : ReadsOnly aliases e) (sub : aliases ⊆ aliases') :
    ReadsOnly aliases' e := by
  intro db j j' same
  exact h db j j' fun n hn => same n (sub hn)

theorem ReadsOnly.nullOrEq (ha : ReadsOnly aliases a) (hb : ReadsOnly aliases b) :
    ReadsOnly aliases (Cond.nullOrEq a b) := by
  intro db j j' same
  simp only [Cond.nullOrEq, Cond.eq, ha db j j' same, hb db j j' same]

theorem ReadsOnly.coalesce (ha : ReadsOnly aliases a) (hb : ReadsOnly aliases b) :
    ReadsOnly aliases (coalesce a b) := by
  intro db j j' same
  simp only [Sparql.coalesce, ha db j j' same, hb db j j' same]

end ReadsOnly

namespace Fragment

/-- Each variable is named once, and columns and conditions read some aliases only. -/
structure ScopedTo (aliases : List Alias) (frag : Fragment) : Prop where
  nodup : frag.names.Nodup
  condition : ∀ c ∈ frag.conditions, ReadsOnly aliases c
  binding : ∀ b ∈ frag.bindings, ReadsOnly aliases b.2

/-- A fragment reads its own items. -/
abbrev Scoped (frag : Fragment) : Prop := frag.ScopedTo frag.aliases

/-- Two fragments have no alias in common. -/
def Apart (frag other : Fragment) : Prop := frag.aliases.Disjoint other.aliases

section Bindings

variable {frag left right : Fragment} {b : String × ColExpr} {bs : List (String × ColExpr)}
  {v : String} {e : ColExpr} {db : Db} {j : Joined} {aliases aliases' : List Alias}

theorem lookup_eq_none_iff : frag.bindings.lookup v = none ↔ v ∉ frag.names := by
  rw [List.lookup_eq_none_iff, names, List.mem_map]
  constructor
  · rintro none ⟨b, hb, rfl⟩
    simpa using none b hb
  · intro none b hb
    rw [bne_iff_ne]
    rintro rfl
    exact none ⟨b, hb, rfl⟩

theorem mem_of_lookup (found : bs.lookup v = some e) : (v, e) ∈ bs := by
  obtain ⟨before, after, rfl, -⟩ := List.lookup_eq_some_iff.mp found
  simp

theorem lookup_cons_eq : (b :: bs).lookup v = if v = b.1 then some b.2 else bs.lookup v := by
  rw [List.lookup_cons]
  by_cases same : v = b.1
  · simp [same]
  · have other : (v == b.1) = false := by simpa using same
    rw [other, if_neg same]

theorem lookup_of_mem (nodup : (bs.map Prod.fst).Nodup) (mem : (v, e) ∈ bs) :
    bs.lookup v = some e := by
  induction bs with
  | nil => cases mem
  | cons x bs ih =>
    obtain ⟨fresh, nodup⟩ := List.nodup_cons.mp nodup
    rw [lookup_cons_eq]
    obtain rfl | later := List.mem_cons.mp mem
    · exact if_pos rfl
    · rw [if_neg]
      · exact ih nodup later
      · rintro rfl
        exact fresh (List.mem_map.mpr ⟨_, later, rfl⟩)

/-- A binding is replaced under its own name. -/
theorem lookup_replace (w : String) (bs : List (String × ColExpr)) :
    (bs.map fun c => if c.1 = w then (c.1, e) else c).lookup v =
      if v = w then (bs.lookup w).map fun _ => e else bs.lookup v := by
  induction bs with
  | nil => simp
  | cons c bs ih =>
    rw [List.map_cons, lookup_cons_eq, lookup_cons_eq, lookup_cons_eq, ih]
    by_cases here : c.1 = w
    · rw [if_pos here, if_pos here.symm, ← here]
      by_cases same : v = c.1
      · simp [same]
      · rw [if_neg same, if_neg same, if_neg same, if_neg same]
    · rw [if_neg here, if_neg (Ne.symm here)]
      by_cases same : v = w
      · rw [if_pos same, if_pos same, if_neg (same ▸ Ne.symm here)]
      · rw [if_neg same, if_neg same]

/-- The column of a variable in a merged fragment, from its columns in the two. -/
def joinedColumn : Option ColExpr → Option ColExpr → Option ColExpr
  | some existing, some col => some (coalesce existing col)
  | some existing, none => some existing
  | none, col => col

theorem lookup_mergeBinding :
    (frag.mergeBinding b).bindings.lookup v =
      joinedColumn (frag.bindings.lookup v) (if v = b.1 then some b.2 else none) := by
  rw [mergeBinding]
  cases found : frag.bindings.lookup b.1 with
  | some existing =>
    show (frag.bindings.map _).lookup v = _
    rw [lookup_replace]
    by_cases same : v = b.1
    · simp [same, found, joinedColumn]
    · simp only [if_neg same]
      cases frag.bindings.lookup v <;> rfl
  | none =>
    show (frag.bindings ++ [b]).lookup v = _
    rw [List.lookup_append, lookup_cons_eq, List.lookup_nil]
    by_cases same : v = b.1
    · simp [same, found, joinedColumn]
    · rw [if_neg same]
      cases frag.bindings.lookup v <;> rfl

theorem lookup_foldl_mergeBinding (nodup : (bs.map Prod.fst).Nodup) :
    (bs.foldl mergeBinding frag).bindings.lookup v =
      joinedColumn (frag.bindings.lookup v) (bs.lookup v) := by
  induction bs generalizing frag with
  | nil => cases found : frag.bindings.lookup v <;> simp [joinedColumn, found]
  | cons b bs ih =>
    obtain ⟨fresh, nodup⟩ := List.nodup_cons.mp nodup
    rw [List.foldl_cons, ih nodup, lookup_mergeBinding, lookup_cons_eq]
    by_cases same : v = b.1
    · have later : bs.lookup v = none := by
        rw [same, List.lookup_eq_none_iff]
        intro c hc
        rw [bne_iff_ne]
        intro equal
        exact fresh (List.mem_map.mpr ⟨c, hc, equal.symm⟩)
      rw [later]
      cases frag.bindings.lookup v <;> simp [joinedColumn, same]
    · rw [if_neg same, if_neg same]
      cases frag.bindings.lookup v <;> rfl

/-- Other bindings keep their columns until their own turn. -/
theorem conditions_foldl_mergeBinding (nodup : (bs.map Prod.fst).Nodup) :
    (∀ c ∈ (bs.foldl mergeBinding frag).conditions, c db j = true) ↔
      (∀ c ∈ frag.conditions, c db j = true) ∧
        ∀ b ∈ bs, ∀ e, frag.bindings.lookup b.1 = some e → Cond.nullOrEq e b.2 db j = true := by
  induction bs generalizing frag with
  | nil => simp
  | cons b bs ih =>
    obtain ⟨fresh, nodup⟩ := List.nodup_cons.mp nodup
    have later : ∀ c ∈ bs,
        (frag.mergeBinding b).bindings.lookup c.1 = frag.bindings.lookup c.1 := by
      intro c hc
      have other : c.1 ≠ b.1 := by
        intro equal
        exact fresh (List.mem_map.mpr ⟨c, hc, equal⟩)
      rw [lookup_mergeBinding, if_neg other]
      cases frag.bindings.lookup c.1 <;> rfl
    have here : (∀ c ∈ (frag.mergeBinding b).conditions, c db j = true) ↔
        (∀ c ∈ frag.conditions, c db j = true) ∧
          ∀ e, frag.bindings.lookup b.1 = some e → Cond.nullOrEq e b.2 db j = true := by
      rw [mergeBinding]
      cases frag.bindings.lookup b.1 with
      | some existing =>
        show (∀ c ∈ frag.conditions ++ [_], _) ↔ _
        rw [List.forall_mem_append, List.forall_mem_singleton]
        simp
      | none => simp
    rw [List.foldl_cons, ih nodup, here, List.forall_mem_cons, and_assoc]
    refine and_congr_right fun _ => and_congr_right fun _ => ?_
    refine forall₂_congr fun c hc => ?_
    rw [later c hc]

theorem names_mergeBinding :
    (frag.mergeBinding b).names =
      if b.1 ∈ frag.names then frag.names else frag.names ++ [b.1] := by
  rw [mergeBinding]
  cases found : frag.bindings.lookup b.1 with
  | some existing =>
    have member : b.1 ∈ frag.names := by
      by_contra absent
      rw [lookup_eq_none_iff.mpr absent] at found
      cases found
    rw [if_pos member, names, names, List.map_map]
    refine List.map_congr_left fun c _ => ?_
    rw [Function.comp_apply]
    split <;> rfl
  | none =>
    rw [if_neg (lookup_eq_none_iff.mp found), names, List.map_append]
    rfl

theorem ScopedTo.mergeBinding (h : frag.ScopedTo aliases) (hb : ReadsOnly aliases b.2) :
    (frag.mergeBinding b).ScopedTo aliases where
  nodup := by
    rw [names_mergeBinding]
    split
    · exact h.nodup
    · next absent => exact List.nodup_append.mpr ⟨h.nodup, List.nodup_singleton _, by
        intro v hv w hw
        rw [List.mem_singleton] at hw
        rintro rfl
        exact absent (hw ▸ hv)⟩
  condition c hc := by
    rw [Fragment.mergeBinding] at hc
    cases found : frag.bindings.lookup b.1 with
    | some existing =>
      rw [found] at hc
      obtain old | new := List.mem_append.mp hc
      · exact h.condition c old
      · rw [List.mem_singleton.mp new]
        exact (h.binding _ (mem_of_lookup found)).nullOrEq hb
    | none =>
      rw [found] at hc
      exact h.condition c hc
  binding c hc := by
    rw [Fragment.mergeBinding] at hc
    cases found : frag.bindings.lookup b.1 with
    | some existing =>
      rw [found] at hc
      obtain ⟨c', hc', rfl⟩ := List.mem_map.mp hc
      split
      · exact (h.binding _ (mem_of_lookup found)).coalesce hb
      · exact h.binding c' hc'
    | none =>
      rw [found] at hc
      obtain old | new := List.mem_append.mp hc
      · exact h.binding c old
      · rw [List.mem_singleton.mp new]
        exact hb

theorem fromItems_mergeBinding : (frag.mergeBinding b).fromItems = frag.fromItems := by
  rw [mergeBinding]
  split <;> rfl

theorem fromItems_merge : (left.merge right).fromItems = left.fromItems ++ right.fromItems := by
  rw [merge]
  refine List.foldlRecOn (motive := fun f : Fragment =>
    f.fromItems = left.fromItems ++ right.fromItems) right.bindings _ rfl ?_
  intro f hf b _
  rw [fromItems_mergeBinding, hf]

theorem aliases_merge : (left.merge right).aliases = left.aliases ++ right.aliases := by
  rw [aliases, fromItems_merge, List.map_append]
  rfl

theorem ScopedTo.mono (h : frag.ScopedTo aliases) (sub : aliases ⊆ aliases') :
    frag.ScopedTo aliases' where
  nodup := h.nodup
  condition c hc := (h.condition c hc).mono sub
  binding b hb := (h.binding b hb).mono sub

theorem Scoped.merge (hl : left.Scoped) (hr : right.Scoped) : (left.merge right).Scoped := by
  rw [Scoped, aliases_merge]
  have hl' := hl.mono (List.subset_append_left left.aliases right.aliases)
  have hr' := hr.mono (List.subset_append_right left.aliases right.aliases)
  rw [Fragment.merge]
  refine List.foldlRecOn (motive := fun f : Fragment =>
    f.ScopedTo (left.aliases ++ right.aliases)) right.bindings _ ?_ ?_
  · refine ⟨hl'.nodup, ?_, hl'.binding⟩
    exact List.forall_mem_append.mpr ⟨hl'.condition, hr'.condition⟩
  · intro f hf b hb
    exact hf.mergeBinding (hr'.binding b hb)

theorem lookup_merge (hr : right.names.Nodup) :
    (left.merge right).bindings.lookup v =
      joinedColumn (left.bindings.lookup v) (right.bindings.lookup v) :=
  lookup_foldl_mergeBinding hr

theorem mem_names_merge (hr : right.names.Nodup) :
    v ∈ (left.merge right).names ↔ v ∈ left.names ∨ v ∈ right.names := by
  rw [← not_iff_not, not_or, ← lookup_eq_none_iff, ← lookup_eq_none_iff, ← lookup_eq_none_iff,
    lookup_merge hr]
  cases left.bindings.lookup v <;> cases right.bindings.lookup v <;> simp [joinedColumn]

theorem value_merge (hr : right.names.Nodup) :
    (left.merge right).value db j v = (left.value db j v).or (right.value db j v) := by
  rw [value, value, value, lookup_merge hr]
  cases left.bindings.lookup v with
  | none => rfl
  | some e =>
    cases right.bindings.lookup v with
    | none => simp [joinedColumn]
    | some c => rfl

end Bindings

/-- The rows of the `FROM` clause. -/
def crossed (items : List (Alias × Source)) (db : Db) : Multiset Joined :=
  (items.map fun item => (item.2.rows db).map fun r => (item.1, r)).sections

section Rows

variable {frag left right third : Fragment} {items items' : List (Alias × Source)} {db : Db}
  {j a b : Joined} {aliases : List Alias}

theorem crossed_nil : crossed [] db = {[]} := rfl

theorem crossed_cons (item : Alias × Source) :
    crossed (item :: items) db = (crossed items db).bind fun a =>
      ((item.2.rows db : Multiset SqlRow).map fun r => (item.1, r) :: a) := by
  rw [crossed, crossed, List.map_cons, List.sections, ← Multiset.coe_bind]
  simp [Function.comp_def]

theorem crossed_append :
    crossed (items ++ items') db = (crossed items db).bind fun a =>
      (crossed items' db).map fun b => a ++ b := by
  induction items with
  | nil => simp [crossed_nil]
  | cons item items ih =>
    rw [List.cons_append, crossed_cons, crossed_cons, ih, Multiset.bind_assoc, Multiset.bind_assoc]
    refine Multiset.bind_congr fun a _ => ?_
    rw [Multiset.bind_map, Multiset.bind_map, Multiset.bind_map_comm]
    rfl

theorem map_fst_of_mem_crossed (h : a ∈ crossed items db) :
    a.map Prod.fst = items.map Prod.fst := by
  induction items generalizing a with
  | nil =>
    rw [crossed_nil, Multiset.mem_singleton] at h
    rw [h]
    rfl
  | cons item items ih =>
    rw [crossed_cons, Multiset.mem_bind] at h
    obtain ⟨rest, hrest, h⟩ := h
    obtain ⟨r, -, rfl⟩ := Multiset.mem_map.mp h
    rw [List.map_cons, List.map_cons, ih hrest]

theorem coe_joined :
    (frag.joined db : Multiset Joined) =
      (crossed frag.fromItems db).filter fun j => ∀ c ∈ frag.conditions, c db j = true := by
  rw [joined, crossed, Multiset.filter_coe]
  congr 1
  refine List.filter_congr fun j _ => ?_
  rw [Bool.eq_iff_iff, List.all_eq_true, decide_eq_true_iff]

theorem lookup_append_left {γ : Type} {e : Db → Joined → γ} (reads : ReadsOnly aliases e)
    (mine : aliases ⊆ a.map Prod.fst) : e db (a ++ b) = e db a := by
  refine reads db _ _ fun n hn => ?_
  obtain ⟨x, hx, rfl⟩ := List.mem_map.mp (mine hn)
  rw [List.lookup_append]
  cases found : a.lookup x.1 with
  | some r => rfl
  | none => simpa using List.lookup_eq_none_iff.mp found x hx

theorem lookup_append_right {γ : Type} {e : Db → Joined → γ} (reads : ReadsOnly aliases e)
    (other : aliases.Disjoint (a.map Prod.fst)) : e db (a ++ b) = e db b := by
  refine reads db _ _ fun n hn => ?_
  have none : a.lookup n = none := by
    rw [List.lookup_eq_none_iff]
    intro x hx
    rw [bne_iff_ne]
    rintro rfl
    exact other hn (List.mem_map.mpr ⟨x, hx, rfl⟩)
  rw [List.lookup_append, none]
  rfl

theorem ScopedTo.value (h : frag.ScopedTo aliases) (v : String) :
    ReadsOnly aliases fun db j => frag.value db j v := by
  intro db j j' same
  show frag.value db j v = frag.value db j' v
  rw [Fragment.value, Fragment.value]
  cases found : frag.bindings.lookup v with
  | none => rfl
  | some e => exact h.binding _ (mem_of_lookup found) db j j' same

theorem within_value : Mapping.Within frag.names (frag.value db j) := by
  intro v hv
  rw [value, lookup_eq_none_iff.mpr hv]
  rfl

theorem within_of_mem {μ : Mapping String TermId} (h : μ ∈ frag.solutions db) :
    Mapping.Within frag.names μ := by
  obtain ⟨j, -, rfl⟩ := Multiset.mem_map.mp h
  exact within_value

theorem nullOrEq_iff {x y : ColExpr} :
    Cond.nullOrEq x y db j = true ↔ x db j = none ∨ x db j = y db j := by
  rw [Cond.nullOrEq, Cond.eq, Bool.or_eq_true, Option.isNone_iff_eq_none, Bool.and_eq_true,
    decide_eq_true_iff]
  cases x db j <;> simp

/-- The conditions of a merged fragment, read as a join condition. -/
theorem conditions_merge (hl : left.Scoped) (hr : right.Scoped) (apart : left.Apart right)
    (ha : a.map Prod.fst = left.aliases) :
    (∀ c ∈ (left.merge right).conditions, c db (a ++ b) = true) ↔
      ((∀ c ∈ left.conditions, c db a = true) ∧ ∀ c ∈ right.conditions, c db b = true) ∧
        Mapping.Fills right.names (left.value db a) (right.value db b) := by
  have mine : left.aliases ⊆ a.map Prod.fst := ha ▸ List.Subset.refl _
  have other : right.aliases.Disjoint (a.map Prod.fst) := ha ▸ apart.symm
  have keys : (∀ c ∈ right.bindings, ∀ e, left.bindings.lookup c.1 = some e →
      Cond.nullOrEq e c.2 db (a ++ b) = true) ↔
        Mapping.Fills right.names (left.value db a) (right.value db b) := by
    constructor
    · intro all v hv
      obtain ⟨c, hc, rfl⟩ := List.mem_map.mp hv
      rw [Fragment.value, Fragment.value, lookup_of_mem hr.nodup hc]
      cases found : left.bindings.lookup c.1 with
      | none => exact Or.inl rfl
      | some e =>
        have reads : ReadsOnly left.aliases e := hl.binding _ (mem_of_lookup found)
        have here := nullOrEq_iff.mp (all c hc e found)
        rw [lookup_append_left reads mine, lookup_append_right (hr.binding c hc) other] at here
        exact here
    · intro fills c hc e found
      have reads : ReadsOnly left.aliases e := hl.binding _ (mem_of_lookup found)
      rw [nullOrEq_iff, lookup_append_left reads mine,
        lookup_append_right (hr.binding c hc) other]
      have here := fills c.1 (List.mem_map.mpr ⟨c, hc, rfl⟩)
      rw [Fragment.value, Fragment.value, lookup_of_mem hr.nodup hc, found] at here
      exact here
  rw [Fragment.merge, conditions_foldl_mergeBinding hr.nodup, keys, List.forall_mem_append]
  refine and_congr_left fun _ => and_congr ?_ ?_
  · refine forall₂_congr fun c hc => ?_
    rw [lookup_append_left (hl.condition c hc) mine]
  · refine forall₂_congr fun c hc => ?_
    rw [lookup_append_right (hr.condition c hc) other]

theorem value_merge_append (hl : left.Scoped) (hr : right.Scoped) (apart : left.Apart right)
    (ha : a.map Prod.fst = left.aliases) :
    (left.merge right).value db (a ++ b) =
      Mapping.merge (left.value db a) (right.value db b) := by
  funext v
  have mine : left.aliases ⊆ a.map Prod.fst := ha ▸ List.Subset.refl _
  have other : right.aliases.Disjoint (a.map Prod.fst) := ha ▸ apart.symm
  rw [value_merge hr.nodup, Mapping.merge]
  exact congrArg₂ Option.or (lookup_append_left (hl.value v) mine)
    (lookup_append_right (hr.value v) other)

/-- The rows of a merged fragment are the pairs of rows in which the right one has every
value that the left one has for a variable of both. -/
theorem solutions_merge (hl : left.Scoped) (hr : right.Scoped) (apart : left.Apart right) :
    (left.merge right).solutions db =
      Mapping.joinOn (Mapping.Fills right.names) (left.solutions db) (right.solutions db) := by
  classical
  rw [solutions, solutions, solutions, coe_joined, coe_joined, coe_joined, fromItems_merge,
    crossed_append, Mapping.joinOn, Mapping.bind_filter_map, Mapping.bind_filter_map,
    Multiset.bind_assoc, Multiset.bind_assoc]
  refine Multiset.bind_congr fun a ha => ?_
  have items := map_fst_of_mem_crossed ha
  rw [Multiset.bind_map]
  by_cases leftHolds : ∀ c ∈ left.conditions, c db a = true
  · rw [if_pos leftHolds, Multiset.singleton_bind, Mapping.bind_filter_map,
      Mapping.bind_filter_map, Multiset.bind_assoc]
    refine Multiset.bind_congr fun b _ => ?_
    rw [value_merge_append hl hr apart items]
    by_cases rightHolds : ∀ c ∈ right.conditions, c db b = true
    · rw [if_pos rightHolds, Multiset.singleton_bind]
      refine if_congr ?_ rfl rfl
      rw [conditions_merge hl hr apart items]
      exact and_iff_right ⟨leftHolds, rightHolds⟩
    · rw [if_neg rightHolds, Multiset.zero_bind, if_neg]
      rw [conditions_merge hl hr apart items]
      exact fun all => rightHolds all.1.2
  · rw [if_neg leftHolds, Multiset.zero_bind]
    refine (Multiset.bind_congr fun b _ => ?_).trans (Multiset.bind_zero _)
    rw [if_neg]
    rw [conditions_merge hl hr apart items]
    exact fun all => leftHolds all.1.1

end Rows

end Fragment

end PgRipple.Sparql
