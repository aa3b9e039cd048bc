import PgRipple.Sparql.Triejoin
import PgRipple.Sparql.BgpCorrect

/-!
# The executor and the SQL path

The bindings of the executor are characterised first: if every pattern has two different
variables, they are the assignments of the variables under which each pattern has an edge.

The rows of the SQL path are the solutions of the pattern, projected and cut. The two agree
if the executor's shortcuts make no difference: there are no constants to drop, no
modifiers to skip, and the graphs that the SQL path leaves out or tells apart do not matter.
-/

namespace PgRipple.Sparql

open Storage

section Edges

variable {pairs edges : List (TermId × TermId)} {x : TermId × TermId} {s o : TermId}

@[simp] theorem mem_sortPairs : x ∈ sortPairs pairs ↔ x ∈ pairs := by
  rw [sortPairs, List.mem_map]
  constructor
  · rintro ⟨y, hy, rfl⟩
    obtain ⟨z, hz, rfl⟩ := List.mem_map.mp (Leapfrog.mem_sortDedup.mp hy)
    exact hz
  · intro hx
    exact ⟨toLex x, Leapfrog.mem_sortDedup.mpr (List.mem_map_of_mem hx), rfl⟩

theorem sorted_sortPairs (pairs : List (TermId × TermId)) :
    (sortPairs pairs).Pairwise fun x y => x.1 ≤ y.1 := by
  rw [sortPairs, List.pairwise_map]
  refine (Leapfrog.sorted_sortDedup (pairs.map toLex)).imp ?_
  intro x y less
  exact Prod.Lex.monotone_fst _ _ less.le

namespace EdgeData

@[simp] theorem mem_byO : (o, s) ∈ (ofEdges edges).byO ↔ (s, o) ∈ edges := by
  simp only [ofEdges, mem_sortPairs, List.mem_map]
  constructor
  · rintro ⟨⟨s', o'⟩, he, same⟩
    cases same
    exact he
  · intro he
    exact ⟨(s, o), he, rfl⟩

@[simp] theorem mem_oForS : o ∈ (ofEdges edges).oForS s ↔ (s, o) ∈ edges :=
  (Leapfrog.mem_valuesOf (sorted_sortPairs _)).trans mem_sortPairs

@[simp] theorem mem_sForO : s ∈ (ofEdges edges).sForO o ↔ (s, o) ∈ edges :=
  (Leapfrog.mem_valuesOf (sorted_sortPairs _)).trans mem_byO

theorem mem_allS : s ∈ (ofEdges edges).allS ↔ ∃ o, (s, o) ∈ edges := by
  rw [allS, ofEdges, Leapfrog.mem_keys_buildRanges, List.mem_map]
  constructor
  · rintro ⟨⟨s', o⟩, he, rfl⟩
    exact ⟨o, mem_sortPairs.mp he⟩
  · rintro ⟨o, he⟩
    exact ⟨(s, o), mem_sortPairs.mpr he, rfl⟩

theorem mem_allO : o ∈ (ofEdges edges).allO ↔ ∃ s, (s, o) ∈ edges := by
  have keys : o ∈ (ofEdges edges).allO ↔ o ∈ (ofEdges edges).byO.map Prod.fst :=
    Leapfrog.mem_keys_buildRanges
  rw [keys, List.mem_map]
  constructor
  · rintro ⟨⟨o', s⟩, he, rfl⟩
    exact ⟨s, mem_byO.mp he⟩
  · rintro ⟨s, he⟩
    exact ⟨(o, s), mem_byO.mpr he, rfl⟩

/-- The edges are the visible triples of the predicate, in whichever graph they lie. -/
theorem mem_loadEdges {st : Store} {p : TermId}
    (rare : ∀ q, st.rare.HasKey q → st.tableOid q.p = some false) :
    (s, o) ∈ loadEdges st p ↔ ∃ g, st.Visible ⟨s, p, o, g⟩ := by
  have pairs (keys : List Key) : (s, o) ∈ keys.map (fun k => (k.s, k.o)) ↔
      ∃ g, (⟨s, o, g⟩ : Key) ∈ keys := by
    rw [List.mem_map]
    constructor
    · rintro ⟨⟨s', o', g⟩, hk, same⟩
      cases same
      exact ⟨g, hk⟩
    · rintro ⟨g, hk⟩
      exact ⟨_, hk, rfl⟩
  rw [loadEdges, pairs]
  refine exists_congr fun g => ?_
  cases dedicated : st.isDedicated p with
  | true =>
    have absent : ¬ st.rare.HasKey ⟨s, p, o, g⟩ := by
      intro hq
      have placed := rare _ hq
      rw [Store.isDedicated_iff_tableOid.mp dedicated] at placed
      cases placed
    have delta : (⟨s, o, g⟩ : Key) ∈ (st.tables p).delta.rows.map Row.key →
        (⟨s, o, g⟩ : Key) ∈ viewKeys st p := fun hk => HtapTables.shows_iff.mpr (.inr hk)
    rw [if_pos rfl, List.mem_append, or_iff_left_of_imp delta, Store.Visible,
      or_iff_left absent, and_iff_right dedicated]
    exact Iff.rfl
  | false =>
    rw [if_neg Bool.false_ne_true, mem_rareKeys, Store.Visible, dedicated]
    simp [Key.quad]

theorem loadFromVp_eq_some {st : Store} {p : TermId} {ed : EdgeData}
    (loaded : loadFromVp st p = some ed) : ed = ofEdges (loadEdges st p) := by
  rw [loadFromVp] at loaded
  split at loaded
  · cases loaded
  · exact (Option.some.inj loaded).symm

end EdgeData

end Edges

section Search

variable {patterns : List CyclicBgpPattern} {edges : TermId → List (TermId × TermId)}
  {edgeCache : TermId → Option EdgeData} {rest : List String} {binding b : LftiBinding} {v : String}

/-- A binding gives a pattern an edge. -/
def EdgeHolds (edges : TermId → List (TermId × TermId)) (b : LftiBinding)
    (pat : CyclicBgpPattern) : Prop :=
  ∃ s o, b pat.subjectVar = some s ∧ b pat.objectVar = some o ∧ (s, o) ∈ edges pat.predId

/-- What the search relies on when some variables are left. -/
structure Searchable (patterns : List CyclicBgpPattern)
    (edges : TermId → List (TermId × TermId)) (edgeCache : TermId → Option EdgeData)
    (rest : List String) (binding : LftiBinding) : Prop where
  loaded : ∀ pat ∈ patterns, edgeCache pat.predId = some (.ofEdges (edges pat.predId))
  different : ∀ pat ∈ patterns, pat.subjectVar ≠ pat.objectVar
  nodup : rest.Nodup
  unbound : ∀ v ∈ rest, binding v = none
  occurs : ∀ v ∈ rest, ∃ pat ∈ patterns, pat.subjectVar = v ∨ pat.objectVar = v
  covered : ∀ pat ∈ patterns, (pat.subjectVar ∈ rest ∨ (binding pat.subjectVar).isSome) ∧
    (pat.objectVar ∈ rest ∨ (binding pat.objectVar).isSome)

/-- A pattern allows the values that have an edge to the other variable's value. -/
theorem mem_candidates {pat : CyclicBgpPattern} {val : TermId} {values : List TermId}
    (loaded : edgeCache pat.predId = some (.ofEdges (edges pat.predId)))
    (here : candidates edgeCache binding v pat = some values) :
    val ∈ values ↔
      if pat.subjectVar = v then
        ∃ o, (val, o) ∈ edges pat.predId ∧ ∀ o', binding pat.objectVar = some o' → o' = o
      else ∃ s, (s, val) ∈ edges pat.predId ∧ ∀ s', binding pat.subjectVar = some s' → s' = s := by
  simp only [candidates, loaded, Option.bind_eq_bind, Option.bind_some] at here
  split at here
  · rename_i subject
    rw [if_pos subject]
    cases bound : binding pat.objectVar with
    | some o =>
      rw [bound] at here
      cases here
      simp [EdgeData.mem_sForO]
    | none =>
      rw [bound] at here
      cases here
      simp [EdgeData.mem_allS]
  · rename_i subject
    rw [if_neg subject]
    split at here
    · cases bound : binding pat.subjectVar with
      | some s =>
        rw [bound] at here
        cases here
        simp [EdgeData.mem_oForS]
      | none =>
        rw [bound] at here
        cases here
        simp [EdgeData.mem_allO]
    · cases here

/-- A pattern has candidates exactly for its own variables. -/
theorem isSome_candidates {pat : CyclicBgpPattern}
    (loaded : edgeCache pat.predId = some (.ofEdges (edges pat.predId))) :
    (candidates edgeCache binding v pat).isSome = true ↔
      pat.subjectVar = v ∨ pat.objectVar = v := by
  simp only [candidates, loaded, Option.bind_eq_bind, Option.bind_some]
  split
  · rename_i subject
    cases binding pat.objectVar <;> simp [subject]
  · rename_i subject
    split
    · rename_i object
      cases binding pat.subjectVar <;> simp [object]
    · rename_i object
      simp [subject, object]

/-- The values common to all candidate sets. -/
def common (patterns : List CyclicBgpPattern) (edgeCache : TermId → Option EdgeData)
    (binding : LftiBinding) (v : String) : List TermId :=
  Leapfrog.intersect ((patterns.filterMap (candidates edgeCache binding v)).map Leapfrog.sortDedup)

theorem nodup_common : (common patterns edgeCache binding v).Nodup := by
  refine Leapfrog.nodup_intersect ?_
  rw [List.forall_mem_map]
  exact fun values _ => Leapfrog.sorted_sortDedup values

namespace Searchable

theorem exists_candidates (h : Searchable patterns edges edgeCache (v :: rest) binding)
    {pat : CyclicBgpPattern} (hpat : pat ∈ patterns)
    (mentions : pat.subjectVar = v ∨ pat.objectVar = v) :
    ∃ values, candidates edgeCache binding v pat = some values :=
  Option.isSome_iff_exists.mp ((isSome_candidates (h.loaded pat hpat)).mpr mentions)

theorem filterMap_ne_nil (h : Searchable patterns edges edgeCache (v :: rest) binding) :
    patterns.filterMap (candidates edgeCache binding v) ≠ [] := by
  obtain ⟨pat, hpat, mentions⟩ := h.occurs v List.mem_cons_self
  obtain ⟨values, found⟩ := h.exists_candidates hpat mentions
  exact List.ne_nil_of_mem (List.mem_filterMap.mpr ⟨pat, hpat, found⟩)

/-- The search goes on from every common value. -/
theorem lftiRecurse_cons (h : Searchable patterns edges edgeCache (v :: rest) binding) :
    lftiRecurse patterns edgeCache (v :: rest) binding =
      (common patterns edgeCache binding v).flatMap fun val =>
        lftiRecurse patterns edgeCache rest (Function.update binding v (some val)) := by
  rw [lftiRecurse]
  split
  · rename_i none
    exact absurd none h.filterMap_ne_nil
  · rfl

theorem mem_common (h : Searchable patterns edges edgeCache (v :: rest) binding) {val : TermId} :
    val ∈ common patterns edgeCache binding v ↔ ∀ pat ∈ patterns,
      (pat.subjectVar = v → ∃ o, (val, o) ∈ edges pat.predId ∧
        ∀ o', binding pat.objectVar = some o' → o' = o) ∧
      (pat.objectVar = v → ∃ s, (s, val) ∈ edges pat.predId ∧
        ∀ s', binding pat.subjectVar = some s' → s' = s) := by
  have nonempty :
      (patterns.filterMap (candidates edgeCache binding v)).map Leapfrog.sortDedup ≠ [] :=
    fun none => h.filterMap_ne_nil (List.map_eq_nil_iff.mp none)
  have sorted : ∀ it ∈ (patterns.filterMap (candidates edgeCache binding v)).map
      Leapfrog.sortDedup, it.Pairwise (· < ·) := by
    rw [List.forall_mem_map]
    exact fun values _ => Leapfrog.sorted_sortDedup values
  rw [common, Leapfrog.mem_intersect sorted nonempty, List.forall_mem_map]
  simp only [Leapfrog.mem_sortDedup, List.mem_filterMap]
  constructor
  · intro all pat hpat
    constructor
    · intro subject
      obtain ⟨values, found⟩ := h.exists_candidates hpat (.inl subject)
      have here := (mem_candidates (h.loaded pat hpat) found).mp (all values ⟨pat, hpat, found⟩)
      rwa [if_pos subject] at here
    · intro object
      obtain ⟨values, found⟩ := h.exists_candidates hpat (.inr object)
      have here := (mem_candidates (h.loaded pat hpat) found).mp (all values ⟨pat, hpat, found⟩)
      rwa [if_neg fun subject => h.different pat hpat (subject.trans object.symm)] at here
  · rintro allowed values ⟨pat, hpat, found⟩
    have mentions := (isSome_candidates (h.loaded pat hpat)).mp
      (Option.isSome_iff_exists.mpr ⟨_, found⟩)
    rw [mem_candidates (h.loaded pat hpat) found]
    split
    · rename_i subject
      exact (allowed pat hpat).1 subject
    · rename_i subject
      exact (allowed pat hpat).2 (mentions.resolve_left subject)

theorem bind (h : Searchable patterns edges edgeCache (v :: rest) binding) (val : TermId) :
    Searchable patterns edges edgeCache rest (Function.update binding v (some val)) := by
  obtain ⟨fresh, nodup⟩ := List.nodup_cons.mp h.nodup
  have covered (u : String) (here : u ∈ v :: rest ∨ (binding u).isSome) :
      u ∈ rest ∨ (Function.update binding v (some val) u).isSome := by
    by_cases same : u = v
    · rw [same, Function.update_self]
      exact .inr rfl
    · rw [Function.update_of_ne same]
      exact here.imp_left fun left => (List.mem_cons.mp left).resolve_left same
  refine ⟨h.loaded, h.different, nodup, ?_, ?_, ?_⟩
  · intro u hu
    have other : u ≠ v := fun same => fresh (same ▸ hu)
    rw [Function.update_of_ne other]
    exact h.unbound u (List.mem_cons_of_mem v hu)
  · intro u hu
    exact h.occurs u (List.mem_cons_of_mem v hu)
  · intro pat hpat
    exact ⟨covered _ (h.covered pat hpat).1, covered _ (h.covered pat hpat).2⟩

/-- A variable that is bound has its value in every binding that extends it. -/
theorem value_of_bound (h : Searchable patterns edges edgeCache rest binding)
    (same : ∀ u ∉ rest, b u = binding u) {u : String} {id : TermId}
    (bound : binding u = some id) : b u = some id := by
  rw [same u fun left => ?_, bound]
  rw [h.unbound u left] at bound
  cases bound

/-- One step of the search: the common values are those of the bindings beyond. -/
theorem extends_iff (h : Searchable patterns edges edgeCache (v :: rest) binding) :
    (∃ val ∈ common patterns edgeCache binding v,
      (∀ u ∉ rest, b u = Function.update binding v (some val) u) ∧
        ∀ pat ∈ patterns, pat.subjectVar ∈ rest ∨ pat.objectVar ∈ rest → EdgeHolds edges b pat) ↔
      (∀ u ∉ v :: rest, b u = binding u) ∧
        ∀ pat ∈ patterns, pat.subjectVar ∈ v :: rest ∨ pat.objectVar ∈ v :: rest →
          EdgeHolds edges b pat := by
  obtain ⟨fresh, -⟩ := List.nodup_cons.mp h.nodup
  constructor
  · rintro ⟨val, hval, same, holds⟩
    have here : b v = some val := by rw [same v fresh, Function.update_self]
    have before : ∀ u ∉ v :: rest, b u = binding u := by
      intro u hu
      rw [List.mem_cons, not_or] at hu
      rw [same u hu.2, Function.update_of_ne hu.1]
    refine ⟨before, ?_⟩
    intro pat hpat mentions
    by_cases later : pat.subjectVar ∈ rest ∨ pat.objectVar ∈ rest
    · exact holds pat hpat later
    rw [not_or] at later
    obtain ⟨atSubject, atObject⟩ := h.mem_common.mp hval pat hpat
    -- The variable is an end of the pattern, and the other end was bound before.
    by_cases subject : pat.subjectVar = v
    · have other : pat.objectVar ∉ v :: rest := by
        rw [List.mem_cons, not_or]
        exact ⟨fun same => h.different pat hpat (subject.trans same.symm), later.2⟩
      obtain ⟨o', bound⟩ := Option.isSome_iff_exists.mp
        ((h.covered pat hpat).2.resolve_left other)
      obtain ⟨o, edge, unique⟩ := atSubject subject
      cases unique o' bound
      exact ⟨val, o', subject ▸ here, h.value_of_bound before bound, edge⟩
    · have object : pat.objectVar = v := by
        simp only [List.mem_cons, later.1, later.2, or_false] at mentions
        exact mentions.resolve_left subject
      have other : pat.subjectVar ∉ v :: rest := by
        rw [List.mem_cons, not_or]
        exact ⟨subject, later.1⟩
      obtain ⟨s', bound⟩ := Option.isSome_iff_exists.mp
        ((h.covered pat hpat).1.resolve_left other)
      obtain ⟨s, edge, unique⟩ := atObject object
      cases unique s' bound
      exact ⟨s', val, h.value_of_bound before bound, object ▸ here, edge⟩
  · rintro ⟨same, holds⟩
    obtain ⟨val, here⟩ : ∃ val, b v = some val := by
      obtain ⟨pat, hpat, mentions⟩ := h.occurs v List.mem_cons_self
      obtain rfl | rfl := mentions
      · obtain ⟨s, o, hs, -, -⟩ := holds pat hpat (.inl List.mem_cons_self)
        exact ⟨s, hs⟩
      · obtain ⟨s, o, -, ho, -⟩ := holds pat hpat (.inr List.mem_cons_self)
        exact ⟨o, ho⟩
    refine ⟨val, h.mem_common.mpr ?_, ?_, ?_⟩
    · intro pat hpat
      constructor
      · rintro rfl
        obtain ⟨s, o, hs, ho, edge⟩ := holds pat hpat (.inl List.mem_cons_self)
        cases hs.symm.trans here
        refine ⟨o, edge, fun o' bound => ?_⟩
        exact Option.some.inj ((h.value_of_bound same bound).symm.trans ho)
      · rintro rfl
        obtain ⟨s, o, hs, ho, edge⟩ := holds pat hpat (.inr List.mem_cons_self)
        cases ho.symm.trans here
        refine ⟨s, edge, fun s' bound => ?_⟩
        exact Option.some.inj ((h.value_of_bound same bound).symm.trans hs)
    · intro u hu
      by_cases this : u = v
      · rw [this, Function.update_self, here]
      · rw [Function.update_of_ne this]
        exact same u (by rw [List.mem_cons, not_or]; exact ⟨this, hu⟩)
    · intro pat hpat later
      exact holds pat hpat (later.imp (List.mem_cons_of_mem v) (List.mem_cons_of_mem v))

/-- The search finds the bindings that give every pattern an edge. -/
theorem mem_lftiRecurse (h : Searchable patterns edges edgeCache rest binding) :
    b ∈ lftiRecurse patterns edgeCache rest binding ↔
      (∀ u ∉ rest, b u = binding u) ∧
        ∀ pat ∈ patterns, pat.subjectVar ∈ rest ∨ pat.objectVar ∈ rest → EdgeHolds edges b pat := by
  induction rest generalizing binding with
  | nil =>
    rw [lftiRecurse, List.mem_singleton]
    constructor
    · rintro rfl
      exact ⟨fun _ _ => rfl, fun _ _ mentions => mentions.elim nofun nofun⟩
    · rintro ⟨same, -⟩
      exact funext fun u => same u List.not_mem_nil
  | cons v rest ih =>
    rw [h.lftiRecurse_cons, List.mem_flatMap, ← h.extends_iff]
    exact exists_congr fun val => and_congr_right fun _ => ih (h.bind val)

theorem nodup_lftiRecurse (h : Searchable patterns edges edgeCache rest binding) :
    (lftiRecurse patterns edgeCache rest binding).Nodup := by
  induction rest generalizing binding with
  | nil => exact List.nodup_singleton _
  | cons v rest ih =>
    obtain ⟨fresh, -⟩ := List.nodup_cons.mp h.nodup
    rw [h.lftiRecurse_cons, List.nodup_flatMap]
    refine ⟨fun val _ => ih (h.bind val), ?_⟩
    refine nodup_common.imp ?_
    intro val val' different b hb hb'
    have here := ((h.bind val).mem_lftiRecurse.mp hb).1 v fresh
    have here' := ((h.bind val').mem_lftiRecurse.mp hb').1 v fresh
    rw [Function.update_self] at here here'
    exact different (Option.some.inj (here.symm.trans here'))

end Searchable

end Search

section Gate

@[simp] theorem mem_variableOrder {vars : List (List String)} {v : String} :
    v ∈ variableOrder vars ↔ v ∈ vars.flatten := by
  have all (vars order : List String) :
      v ∈ vars.foldl (fun order v => if v ∈ order then order else order ++ [v]) order ↔
        v ∈ order ∨ v ∈ vars := by
    induction vars generalizing order with
    | nil => simp
    | cons w vars ih =>
      rw [List.foldl_cons, ih, List.mem_cons]
      by_cases known : w ∈ order
      · rw [if_pos known]
        constructor
        · exact fun h => h.imp_right .inr
        · rintro (h | rfl | h)
          · exact .inl h
          · exact .inl known
          · exact .inr h
      · rw [if_neg known, List.mem_append, List.mem_singleton, or_assoc]
  rw [variableOrder, all]
  simp

theorem nodup_variableOrder (vars : List (List String)) : (variableOrder vars).Nodup := by
  have all (vars order : List String) (nodup : order.Nodup) :
      (vars.foldl (fun order v => if v ∈ order then order else order ++ [v]) order).Nodup := by
    induction vars generalizing order with
    | nil => exact nodup
    | cons w vars ih =>
      rw [List.foldl_cons]
      refine ih _ ?_
      split
      · exact nodup
      · rename_i new
        refine nodup.append (List.nodup_singleton w) ?_
        intro u hu hw
        cases List.mem_singleton.mp hw
        exact new hu
  exact all _ _ List.nodup_nil

/-- The pattern under the modifiers. -/
theorem extractFlatBgp_eq_some {query : SelectPattern} {triples : List FlatBgpTriple}
    (flat : extractFlatBgp query = some triples) (mods : Modifiers) :
    ∃ patterns, (mods.collect query).pattern = .bgp patterns ∧
      triples = patterns.map TriplePattern.flat := by
  induction query generalizing mods with
  | bgp patterns => exact ⟨patterns, rfl, (Option.some.inj flat).symm⟩
  | project inner vars ih => exact ih flat _
  | distinct inner ih => exact ih flat _
  | reduced inner ih => exact ih flat _
  | orderBy inner ih => exact ih flat _
  | slice inner start length ih => exact ih flat _
  | other => cases flat

/-- The executor's variables. -/
abbrev orderOf (patterns : List TriplePattern) : List String :=
  variableOrder (patternVars (patterns.map TriplePattern.flat))

/-- The executor's bindings. -/
def executed (st : Store) (patterns : List TriplePattern) (cyclic : List CyclicBgpPattern) :
    List LftiBinding :=
  lftiRecurse cyclic (EdgeData.loadFromVp st) (orderOf patterns) fun _ => none

theorem tryLeapfrogSelect_eq_some {settings : WcojSettings} {env : Env} {st : Store}
    {query : SelectPattern} {bindings : List LftiBinding}
    (returned : tryLeapfrogSelect settings env st query = some bindings) :
    ∃ patterns cyclic, (extractModifiers query).pattern = .bgp patterns ∧
      (patterns.map TriplePattern.flat).mapM (cyclicPattern env) = some cyclic ∧
      (∀ pat ∈ cyclic, (EdgeData.loadFromVp st pat.predId).isSome = true) ∧
      bindings = executed st patterns cyclic := by
  rw [tryLeapfrogSelect] at returned
  split at returned
  · cases returned
  obtain ⟨triples, flat, returned⟩ := Option.bind_eq_some_iff.mp returned
  obtain ⟨patterns, found, rfl⟩ := extractFlatBgp_eq_some flat ⟨query, none, false, none, 0⟩
  split at returned
  · cases returned
  split at returned
  · cases returned
  obtain ⟨cyclic, encoded, returned⟩ := Option.bind_eq_some_iff.mp returned
  split at returned
  · cases returned
  rw [executeLeapfrogTriejoin] at returned
  split at returned
  · cases returned
  split at returned
  · rename_i loaded
    exact ⟨patterns, cyclic, found, encoded, List.all_eq_true.mp loaded,
      (Option.some.inj returned).symm⟩
  · cases returned

end Gate

/-- The executor's rows are those of the SQL path, in some order. -/
def AgreesWithSql {κ : Type} [LT κ] [DecidableLT κ] (limits : ComplexityLimits) (env : Env)
    (db : Db) (decode : TermId → Option String) (bgpReorder : Bool) (estimate : PatternCost κ)
    (query : SelectPattern) (bindings : List LftiBinding) : Prop :=
  ∃ t, prepareSelect limits env bgpReorder estimate query = .ok (some t) ∧
    ∀ answer, t.Answers db answer →
      (decodeLftiBindingsToJsonb decode bindings).Perm (executeSelect decode t.vars answer)

/-- A predicate of the query. -/
def AsksFor (env : Env) (patterns : List TriplePattern) (p : TermId) : Prop :=
  ∃ tp ∈ patterns, ∃ iri, tp.predicate = .namedNode iri ∧ env.lookupIri iri = some p

/-- The executor's shortcuts make no difference to the query on this store. -/
structure NothingSkipped (env : Env) (st : Store) (decode : TermId → Option String)
    (query : SelectPattern) (patterns : List TriplePattern) : Prop where
  /-- The subject and the object of each pattern are different variables. -/
  ends : ∀ tp ∈ patterns, ∃ v w, tp.subject = .var v ∧ tp.object = .var w ∧ v ≠ w
  /-- All variables are projected, and no others. -/
  projects : ∃ vars, (extractModifiers query).projectVars = some vars ∧
    ∀ v, v ∈ vars ↔ Slot.var v ∈ slotsOf patterns
  /-- There is no slice. -/
  whole : (extractModifiers query).limit = none ∧ (extractModifiers query).offset = 0
  /-- No triple lies in service graphs only. -/
  served : ∀ p, AsksFor env patterns p → ∀ s o g, st.Visible ⟨s, p, o, g⟩ →
    HasTriple env st none s p o
  /-- Rows are made distinct, or no triple lies in two graphs. -/
  once : (extractModifiers query).distinct = true ∨
    ∀ p, AsksFor env patterns p → InOneGraph env st none p
  /-- All ids are in the dictionary. -/
  decodes : ∀ p, AsksFor env patterns p → ∀ s o g, st.Visible ⟨s, p, o, g⟩ →
    (decode s).isSome = true ∧ (decode o).isSome = true

section Agreement

variable {env : Env} {db : Db} {decode : TermId → Option String} {query : SelectPattern}
  {patterns : List TriplePattern} {cyclic : List CyclicBgpPattern}

theorem NothingSkipped.cyclicPattern (h : NothingSkipped env db.store decode query patterns)
    (encoded : (patterns.map TriplePattern.flat).mapM (cyclicPattern env) = some cyclic)
    {pat : CyclicBgpPattern} :
    pat ∈ cyclic ↔ ∃ tp ∈ patterns, ∃ iri, tp.predicate = .namedNode iri ∧
      env.lookupIri iri = some pat.predId ∧ tp.subject = .var pat.subjectVar ∧
      tp.object = .var pat.objectVar := by
  rw [Fold.mem_of_mapM_eq_some encoded]
  constructor
  · rintro ⟨t, ht, here⟩
    obtain ⟨tp, htp, rfl⟩ := List.mem_map.mp ht
    obtain ⟨v, w, subject, object, -⟩ := h.ends tp htp
    obtain ⟨iri, named, here⟩ := Option.bind_eq_some_iff.mp here
    obtain ⟨p, known, here⟩ := Option.bind_eq_some_iff.mp here
    cases here
    refine ⟨tp, htp, iri, ?_, known, ?_, ?_⟩
    · cases pred : tp.predicate with
      | namedNode iri' =>
        simp only [TriplePattern.flat, pred, Option.some.injEq] at named
        rw [named]
      | var v => simp [TriplePattern.flat, pred] at named
    · simp only [TriplePattern.flat, subject, TermPattern.variable?, Option.getD_some]
    · simp only [TriplePattern.flat, object, TermPattern.variable?, Option.getD_some]
  · rintro ⟨tp, htp, iri, named, known, subject, object⟩
    refine ⟨tp.flat, List.mem_map_of_mem htp, ?_⟩
    simp [Sparql.cyclicPattern, TriplePattern.flat, named, known, subject, object,
      TermPattern.variable?]

theorem namedNode_of_encoded
    (encoded : (patterns.map TriplePattern.flat).mapM (cyclicPattern env) = some cyclic)
    {tp : TriplePattern} (htp : tp ∈ patterns) :
    ∃ iri p, tp.predicate = .namedNode iri ∧ env.lookupIri iri = some p := by
  obtain ⟨pat, here⟩ := Fold.exists_of_mapM_eq_some encoded (List.mem_map_of_mem htp)
  obtain ⟨iri, named, here⟩ := Option.bind_eq_some_iff.mp here
  obtain ⟨p, known, -⟩ := Option.bind_eq_some_iff.mp here
  cases pred : tp.predicate with
  | namedNode iri' =>
    simp only [TriplePattern.flat, pred, Option.some.injEq] at named
    exact ⟨iri', p, rfl, named ▸ known⟩
  | var v => simp [TriplePattern.flat, pred] at named

namespace NothingSkipped

variable (h : NothingSkipped env db.store decode query patterns)
  (encoded : (patterns.map TriplePattern.flat).mapM (Sparql.cyclicPattern env) = some cyclic)

include h encoded in
theorem mem_slotsOf {y : Slot} : y ∈ slotsOf patterns ↔
    ∃ tp ∈ patterns, ∃ v, y = .var v ∧ (tp.subject = .var v ∨ tp.object = .var v) := by
  rw [slotsOf, List.mem_dedup, List.mem_flatMap]
  refine exists_congr fun tp => and_congr_right fun htp => ?_
  obtain ⟨v, w, subject, object, -⟩ := h.ends tp htp
  obtain ⟨iri, p, named, -⟩ := namedNode_of_encoded encoded htp
  simp only [TriplePattern.slots, subject, object, named, TermPattern.slot?,
    NamedNodePattern.slot?, Option.toList_some, Option.toList_none, List.append_nil,
    List.cons_append, List.nil_append, List.mem_cons, List.not_mem_nil, or_false,
    TermPattern.var.injEq]
  constructor
  · rintro (rfl | rfl)
    · exact ⟨v, rfl, .inl rfl⟩
    · exact ⟨w, rfl, .inr rfl⟩
  · rintro ⟨u, rfl, rfl | rfl⟩
    · exact .inl rfl
    · exact .inr rfl

include h encoded in
@[simp] theorem mem_order {v : String} : v ∈ orderOf patterns ↔ Slot.var v ∈ slotsOf patterns := by
  rw [mem_variableOrder, h.mem_slotsOf encoded, patternVars, List.map_map, List.mem_flatten]
  simp only [List.mem_map, Function.comp_apply, exists_exists_and_eq_and]
  refine exists_congr fun tp => and_congr_right fun htp => ?_
  obtain ⟨u, w, subject, object, -⟩ := h.ends tp htp
  simp [TriplePattern.flat, subject, object, TermPattern.variable?, eq_comm]

include h encoded in
/-- The executor starts with all its variables unbound. -/
theorem searchable
    (loaded : ∀ pat ∈ cyclic, (EdgeData.loadFromVp db.store pat.predId).isSome = true) :
    Searchable cyclic (EdgeData.loadEdges db.store) (EdgeData.loadFromVp db.store)
      (orderOf patterns) fun _ => none where
  loaded pat hpat := by
    obtain ⟨ed, found⟩ := Option.isSome_iff_exists.mp (loaded pat hpat)
    rw [found, EdgeData.loadFromVp_eq_some found]
  different pat hpat := by
    obtain ⟨tp, htp, -, -, -, subject, object⟩ := (h.cyclicPattern encoded).mp hpat
    obtain ⟨v, w, subject', object', different⟩ := h.ends tp htp
    cases subject.symm.trans subject'
    cases object.symm.trans object'
    exact different
  nodup := nodup_variableOrder _
  unbound _ _ := rfl
  occurs v hv := by
    obtain ⟨tp, htp, u, same, ends⟩ := (h.mem_slotsOf encoded).mp ((h.mem_order encoded).mp hv)
    cases same
    obtain ⟨iri, p, named, known⟩ := namedNode_of_encoded encoded htp
    obtain ⟨x, y, subject, object, -⟩ := h.ends tp htp
    have hpat : (⟨x, p, y⟩ : CyclicBgpPattern) ∈ cyclic :=
      (h.cyclicPattern encoded).mpr ⟨tp, htp, iri, named, known, subject, object⟩
    refine ⟨_, hpat, ?_⟩
    rw [subject, object] at ends
    simpa using ends
  covered pat hpat := by
    obtain ⟨tp, htp, -, -, -, subject, object⟩ := (h.cyclicPattern encoded).mp hpat
    refine ⟨.inl ?_, .inl ?_⟩
    · exact (h.mem_order encoded).mpr ((h.mem_slotsOf encoded).mpr ⟨tp, htp, _, rfl, .inl subject⟩)
    · exact (h.mem_order encoded).mpr ((h.mem_slotsOf encoded).mpr ⟨tp, htp, _, rfl, .inr object⟩)

include h encoded in
/-- An edge for every pattern is a solution. -/
theorem edgeHolds_iff (right : CatalogRight env db.store) {b : LftiBinding} {μ : Slot → TermId}
    (values : ∀ v, Slot.var v ∈ slotsOf patterns → b v = some (μ (.var v))) :
    (∀ pat ∈ cyclic, EdgeHolds (EdgeData.loadEdges db.store) b pat) ↔
      Solution env db.store none patterns μ := by
  constructor
  · intro holds tp htp
    obtain ⟨iri, p, named, known⟩ := namedNode_of_encoded encoded htp
    obtain ⟨v, w, subject, object, -⟩ := h.ends tp htp
    obtain ⟨s, o, hs, ho, edge⟩ := holds ⟨v, p, w⟩
      ((h.cyclicPattern encoded).mpr ⟨tp, htp, iri, named, known, subject, object⟩)
    have hv := values v ((h.mem_slotsOf encoded).mpr ⟨tp, htp, v, rfl, .inl subject⟩)
    have hw := values w ((h.mem_slotsOf encoded).mpr ⟨tp, htp, w, rfl, .inr object⟩)
    obtain ⟨g, visible⟩ := (EdgeData.mem_loadEdges right.rare).mp edge
    refine ⟨s, p, o, ?_, ?_, ?_, h.served p ⟨tp, htp, iri, named, known⟩ s o g visible⟩
    · rw [subject]
      exact hv.symm.trans hs
    · rw [named]
      exact known
    · rw [object]
      exact hw.symm.trans ho
  · intro solution pat hpat
    obtain ⟨tp, htp, iri, named, known, subject, object⟩ := (h.cyclicPattern encoded).mp hpat
    obtain ⟨s, p, o, hs, hp, ho, g, -, visible⟩ := solution tp htp
    rw [subject] at hs
    rw [named] at hp
    rw [object] at ho
    cases hp.symm.trans known
    refine ⟨s, o, ?_, ?_, (EdgeData.mem_loadEdges right.rare).mpr ⟨g, visible⟩⟩
    · rw [values _ ((h.mem_slotsOf encoded).mpr ⟨tp, htp, _, rfl, .inl subject⟩)]
      exact hs
    · rw [values _ ((h.mem_slotsOf encoded).mpr ⟨tp, htp, _, rfl, .inr object⟩)]
      exact ho

/-- The values of a binding. -/
def valuation (b : LftiBinding) : Slot → TermId
  | .var v => (b v).getD 0
  | .blank _ => 0

include h encoded in
/-- The executor's bindings, read off at the projected variables, are the solutions. -/
theorem mem_map_bindings (right : CatalogRight env db.store) {vars : List String}
    (projected : ∀ v, v ∈ vars ↔ Slot.var v ∈ slotsOf patterns)
    (loaded : ∀ pat ∈ cyclic, (EdgeData.loadFromVp db.store pat.predId).isSome = true)
    {row : List Value} :
    row ∈ (executed db.store patterns cyclic).map (fun b => vars.map b) ↔
      ∃ μ : Slot → TermId, row = vars.map (fun v => some (μ (.var v))) ∧
        Solution env db.store none patterns μ := by
  have search := h.searchable encoded loaded
  have ends : ∀ pat ∈ cyclic, pat.subjectVar ∈ orderOf patterns := by
    intro pat hpat
    exact (search.covered pat hpat).1.resolve_right (by simp)
  rw [List.mem_map]
  constructor
  · rintro ⟨b, hb, rfl⟩
    obtain ⟨-, holds⟩ := search.mem_lftiRecurse.mp hb
    have holds : ∀ pat ∈ cyclic, EdgeHolds (EdgeData.loadEdges db.store) b pat :=
      fun pat hpat => holds pat hpat (.inl (ends pat hpat))
    let μ := valuation b
    have values : ∀ v, Slot.var v ∈ slotsOf patterns → b v = some (μ (.var v)) := by
      intro v hv
      obtain ⟨pat, hpat, mentions⟩ := search.occurs v ((h.mem_order encoded).mpr hv)
      obtain ⟨s, o, hs, ho, -⟩ := holds pat hpat
      obtain rfl | rfl := mentions
      · simp only [μ, valuation, hs, Option.getD_some]
      · simp only [μ, valuation, ho, Option.getD_some]
    refine ⟨μ, ?_, (h.edgeHolds_iff encoded right values).mp holds⟩
    exact List.map_congr_left fun v hv => values v ((projected v).mp hv)
  · rintro ⟨μ, rfl, solution⟩
    let b : LftiBinding := fun v =>
      if Slot.var v ∈ slotsOf patterns then some (μ (.var v)) else none
    have values : ∀ v, Slot.var v ∈ slotsOf patterns → b v = some (μ (.var v)) :=
      fun v hv => if_pos hv
    refine ⟨b, search.mem_lftiRecurse.mpr ⟨?_, ?_⟩, ?_⟩
    · intro v hv
      exact if_neg fun slot => hv ((h.mem_order encoded).mpr slot)
    · intro pat hpat _
      exact (h.edgeHolds_iff encoded right values).mpr solution pat hpat
    · exact List.map_congr_left fun v hv => values v ((projected v).mp hv)

include h encoded in
theorem nodup_map_bindings {vars : List String}
    (projected : ∀ v, v ∈ vars ↔ Slot.var v ∈ slotsOf patterns)
    (loaded : ∀ pat ∈ cyclic, (EdgeData.loadFromVp db.store pat.predId).isSome = true) :
    ((executed db.store patterns cyclic).map (fun b => vars.map b)).Nodup := by
  have search := h.searchable encoded loaded
  refine search.nodup_lftiRecurse.map_on ?_
  intro b hb b' hb' same
  funext v
  by_cases hv : v ∈ vars
  · exact List.map_inj_left.mp same v hv
  · have free : v ∉ orderOf patterns :=
      fun left => hv ((projected v).mpr ((h.mem_order encoded).mp left))
    rw [(search.mem_lftiRecurse.mp hb).1 v free, (search.mem_lftiRecurse.mp hb').1 v free]

end NothingSkipped

section SqlRows

variable {placed : List (Alias × TriplePattern)} {n : Nat} {frag : Fragment} {vars : List String}
  (h : Translates env none placed n frag) (covers : ∀ tp, tp ∈ placed.map Prod.snd ↔ tp ∈ patterns)
  (names : NamesDistinct env patterns)
  (projected : ∀ v, v ∈ vars ↔ Slot.var v ∈ slotsOf patterns)

include h covers names projected in
/-- The projected rows are the solutions. -/
theorem Translates.mem_map_vars (right : CatalogRight env db.store) {row : List Value} :
    row ∈ (frag.joined db).map (fun j => vars.map (frag.value db j)) ↔
      ∃ μ : Slot → TermId, row = vars.map (fun v => some (μ (.var v))) ∧
        Solution env db.store none patterns μ := by
  rw [List.mem_map]
  constructor
  · rintro ⟨j, hj, rfl⟩
    obtain ⟨μ, same, solution⟩ := (h.mem_slotValues covers right names).mp
      (List.mem_map.mpr ⟨j, hj, rfl⟩)
    refine ⟨μ, ?_, solution⟩
    exact List.map_congr_left fun v hv => List.map_inj_left.mp same (.var v) ((projected v).mp hv)
  · rintro ⟨μ, rfl, solution⟩
    obtain ⟨j, hj, same⟩ := List.mem_map.mp
      ((h.mem_slotValues covers right names).mpr ⟨μ, rfl, solution⟩)
    refine ⟨j, hj, ?_⟩
    exact List.map_congr_left fun v hv => List.map_inj_left.mp same (.var v) ((projected v).mp hv)

include h covers names projected in
theorem Translates.nodup_map_vars (right : CatalogRight env db.store)
    (once : ∀ tp ∈ patterns, ∀ μ p, tp.predicate.denote env μ = some p →
      InOneGraph env db.store none p)
    (all : ∀ y ∈ slotsOf patterns, ∃ v, y = .var v) :
    ((frag.joined db).map fun j => vars.map (frag.value db j)).Nodup := by
  refine (h.nodup_joined right).map_on ?_
  intro j hj j' hj' same
  refine List.inj_on_of_nodup_map (h.nodup_slotValues covers right once names) hj hj' ?_
  refine List.map_congr_left fun y hy => ?_
  obtain ⟨v, rfl⟩ := all y hy
  exact List.map_inj_left.mp same v ((projected v).mpr hy)

end SqlRows

/-- Bindings that can be decoded have the cells of their rows. -/
theorem executeSelect_bindings {vars : List String} {bindings : List LftiBinding}
    (free : ∀ b ∈ bindings, ∀ v, v ∉ vars → b v = none)
    (known : ∀ b ∈ bindings, ∀ v ∈ vars, ∃ id, b v = some id ∧ (decode id).isSome = true) :
    executeSelect decode vars (bindings.map fun b => vars.map b) =
      decodeLftiBindingsToJsonb decode bindings := by
  rw [executeSelect, decodeLftiBindingsToJsonb, List.map_map]
  refine List.map_congr_left fun b hb => ?_
  funext v
  rw [Function.comp_apply, foldl_cells]
  by_cases hv : v ∈ vars
  · obtain ⟨id, bound, decoded⟩ := known b hb v hv
    obtain ⟨text, decoded⟩ := Option.isSome_iff_exists.mp decoded
    rw [if_pos hv, bound, decodeCell, decoded]
    simp [decoded]
  · rw [if_neg hv, free b hb v hv]
    rfl

end Agreement

/-- The edges of a triangle, as triples of predicate 1 in the default graph. -/
def triangleStore : Store where
  predicates := ⟨[⟨1, false, 3, false, 0⟩], by decide⟩
  tables _ := HtapTables.fresh
  rare := ⟨[⟨⟨2, 1, 3, 0⟩, 1, 0⟩, ⟨⟨3, 1, 4, 0⟩, 2, 0⟩, ⟨⟨4, 1, 2, 0⟩, 3, 0⟩], by decide⟩
  seq := Sequence.initial

def triangleEnv : Env where
  lookupIri iri := if iri = "knows" then some 1 else if iri = "anna" then some 2 else none
  literalId _ := 0
  lookupQuotedTriple _ _ _ := none
  vpSource := catalogSource triangleStore
  unionPredicates := some []
  serviceGraphs := []
  bnScopePrefix := "0"
  isAlphanumeric := Char.isAlphanum

/-- `?x <knows> ?y . ?y <knows> ?z . ?z <knows> ?x`. -/
def trianglePatterns : List TriplePattern := [
  ⟨.var "x", .namedNode "knows", .var "y"⟩, ⟨.var "y", .namedNode "knows", .var "z"⟩,
  ⟨.var "z", .namedNode "knows", .var "x"⟩]

/-- The same with `<anna> <knows> ?x`. -/
def annaPatterns : List TriplePattern :=
  trianglePatterns ++ [⟨.namedNode "anna", .namedNode "knows", .var "x"⟩]

/-- `SELECT ?x ?y ?z`. -/
def selectAll (patterns : List TriplePattern) : SelectPattern :=
  .project (.bgp patterns) ["x", "y", "z"]

def showId (id : TermId) : Option String := some ("<" ++ toString id ++ ">")

theorem visible_triangleStore {q : Quad} :
    triangleStore.Visible q ↔ q ∈ [⟨2, 1, 3, 0⟩, ⟨3, 1, 4, 0⟩, ⟨4, 1, 2, 0⟩] :=
  Store.visible_iff_mem_rare rfl

theorem catalogRight_triangle : CatalogRight triangleEnv triangleStore where
  source _ := rfl
  union _ found := (Option.some.inj found).symm
  rare q hq := by
    have hq := visible_triangleStore.mp (.inr hq)
    simp only [List.mem_cons, List.not_mem_nil, or_false] at hq
    obtain rfl | rfl | rfl := hq <;> rfl

theorem nothingSkipped_triangle : NothingSkipped triangleEnv triangleStore showId
    (selectAll trianglePatterns) trianglePatterns where
  ends := by
    intro tp htp
    simp only [trianglePatterns, List.mem_cons, List.not_mem_nil, or_false] at htp
    obtain rfl | rfl | rfl := htp
    · exact ⟨"x", "y", rfl, rfl, by decide⟩
    · exact ⟨"y", "z", rfl, rfl, by decide⟩
    · exact ⟨"z", "x", rfl, rfl, by decide⟩
  projects := by
    have slots : slotsOf trianglePatterns = ["y", "z", "x"].map Slot.var := by decide
    refine ⟨["x", "y", "z"], rfl, fun v => ?_⟩
    rw [slots]
    simp only [List.mem_map, Slot.var.injEq, exists_eq_right, List.mem_cons, List.not_mem_nil,
      or_false]
    tauto
  whole := ⟨rfl, rfl⟩
  served _ _ s o g visible := ⟨g, rfl, visible⟩
  once := by
    right
    intro p _ s o g g' _ _ visible visible'
    have inDefault {g : TermId} (visible : triangleStore.Visible ⟨s, p, o, g⟩) : g = 0 := by
      have hq := visible_triangleStore.mp visible
      simp only [List.mem_cons, Quad.mk.injEq, List.not_mem_nil, or_false] at hq
      obtain ⟨-, -, -, h⟩ | ⟨-, -, -, h⟩ | ⟨-, -, -, h⟩ := hq <;> exact h
    rw [inDefault visible, inDefault visible']
  decodes _ _ _ _ _ _ := ⟨rfl, rfl⟩

end PgRipple.Sparql
