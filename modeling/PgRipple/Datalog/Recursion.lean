import Mathlib.Tactic.Linarith
import PgRipple.Lib.Kosaraju
import PgRipple.Datalog.Completeness

/-!
# The statement of a recursive rule

`compile_recursive_rule` does not look at the variables of the rule. It emits one shape: the
rows of the other predicates of the body, or of the head predicate if there is no other,
extended on the left by rows of the first of them. For a rule over its own predicate only,
this is the transitive closure of the stored triples, within each graph if the head has a
graph variable; the constants of the head then replace columns.

The module says for which rules this is the least fixpoint of the rule.
-/

namespace PgRipple.Datalog

open Storage Inference Kosaraju Relation

/-- The triples of `E` lead from the subject to the object, within the graph. -/
def Linked (E : Set Key) (k : Key) : Prop :=
  TransGen (fun x y => (⟨x, y, k.g⟩ : Key) ∈ E) k.s k.o

section Linked

variable {E F : Set Key} {k : Key}

theorem Linked.single (h : k ∈ E) : Linked E k := TransGen.single h

theorem Linked.flatten (h : Linked F k) (links : ∀ b ∈ F, Linked E b) : Linked E k := by
  have each (y : TermId) (chain : TransGen (fun x y => (⟨x, y, k.g⟩ : Key) ∈ F) k.s y) :
      TransGen (fun x y => (⟨x, y, k.g⟩ : Key) ∈ E) k.s y := by
    induction chain with
    | single edge => exact links _ edge
    | tail _ edge ih => exact ih.trans (links _ edge)
  exact each k.o h

theorem Linked.exists_first (h : Linked E k) : ∃ b ∈ E, b.s = k.s ∧ b.g = k.g := by
  obtain ⟨y, edge, _⟩ := TransGen.head'_iff.mp h
  exact ⟨_, edge, rfl, rfl⟩

theorem Linked.exists_last (h : Linked E k) : ∃ b ∈ E, b.o = k.o ∧ b.g = k.g := by
  obtain ⟨y, _, edge⟩ := TransGen.tail'_iff.mp h
  exact ⟨_, edge, rfl, rfl⟩

end Linked

/-- The statement for a rule whose body has no other predicate. -/
structure RecQuery.Closes (q : RecQuery) (p : TermId) : Prop where
  bases : q.bases = [p]
  everyGraph : q.defaultGraphOnly = false
  stepPred : q.stepPred = p
  where_ : q.where_ = []

/-- The selected columns. -/
def RecQuery.row (q : RecQuery) (k : Key) : Key := ⟨q.s.getD k.s, q.o.getD k.o, k.g⟩

section Rows

variable {db : Database} {q : RecQuery} {p : TermId} {k k' : Key} {fuel : Nat}
  {path : List (Int × Int × Int)}

theorem mem_exec_recQuery (where_ : q.where_ = []) :
    k ∈ q.exec db ↔ ∃ k' ∈ q.cteRows db, q.row k' = k := by
  simp [RecQuery.exec, where_, RecQuery.row]

theorem self_mem_expand : k ∈ q.expand db fuel path k := by
  cases fuel with
  | zero => exact List.mem_singleton_self k
  | succ fuel =>
    rw [RecQuery.expand]
    exact List.mem_cons_self

theorem mem_cteRows_of_seed (h : k ∈ q.seeds db) : k ∈ q.cteRows db :=
  List.mem_flatMap.mpr ⟨k, h, self_mem_expand⟩

theorem mem_expand_succ (depth : 0 < q.maxDepth → (path.length : Int) ≤ q.maxDepth)
    (next : k' ∈ q.extend db k) (fresh : q.cycleCols k' ∉ path) {x : Key}
    (h : x ∈ q.expand db fuel (q.cycleCols k' :: path) k') :
    x ∈ q.expand db (fuel + 1) path k := by
  rw [RecQuery.expand, if_pos depth]
  refine List.mem_cons_of_mem k (List.mem_flatMap.mpr ⟨k', ?_, h⟩)
  exact List.mem_filter.mpr ⟨next, by simpa using fresh⟩

section Closes

variable (closes : q.Closes p)

include closes

theorem mem_seeds_of_closes : k ∈ q.seeds db ↔ k ∈ db.stored p := by
  simp [RecQuery.seeds, closes.bases, closes.everyGraph]

theorem mem_extend_of_closes :
    k' ∈ q.extend db k ↔
      ∃ b ∈ db.stored p, b.o = k.s ∧ (q.joinGraph = true → b.g = k.g) ∧ k' = ⟨b.s, k.o, b.g⟩ := by
  simp only [RecQuery.extend, closes.stepPred, List.mem_map, List.mem_filter, Bool.and_eq_true,
    decide_eq_true_eq, Bool.or_eq_true, Bool.not_eq_true']
  constructor
  · rintro ⟨b, ⟨hb, joins, graph⟩, rfl⟩
    refine ⟨b, hb, joins, fun join => graph.resolve_left ?_, rfl⟩
    rw [join]
    exact Bool.noConfusion
  · rintro ⟨b, hb, joins, graph, rfl⟩
    refine ⟨b, ⟨hb, joins, ?_⟩, rfl⟩
    cases join : q.joinGraph with
    | false => exact .inl rfl
    | true => exact .inr (graph join)

/-- Every row is a chain of stored triples, if the join or the triples keep to one graph. -/
theorem linked_of_mem_cteRows
    (uniform : q.joinGraph = true ∨ ∀ b ∈ db.stored p, ∀ c ∈ db.stored p, b.g = c.g)
    (h : k ∈ q.cteRows db) : Linked { b | b ∈ db.stored p } k := by
  have below (fuel : Nat) (path : List (Int × Int × Int)) (k : Key)
      (linked : Linked { b | b ∈ db.stored p } k) (x : Key) (hx : x ∈ q.expand db fuel path k) :
      Linked { b | b ∈ db.stored p } x := by
    induction fuel generalizing path k with
    | zero =>
      rw [List.mem_singleton.mp hx]
      exact linked
    | succ fuel ih =>
      rw [RecQuery.expand] at hx
      obtain rfl | hx := List.mem_cons.mp hx
      · exact linked
      · split at hx
        · obtain ⟨k', hk', hx⟩ := List.mem_flatMap.mp hx
          obtain ⟨b, hb, joins, graph, rfl⟩ :=
            (mem_extend_of_closes closes).mp (List.mem_filter.mp hk').1
          refine ih _ _ ?_ hx
          have same : b.g = k.g := by
            obtain join | all := uniform
            · exact graph join
            · obtain ⟨c, hc, _, hg⟩ := linked.exists_first
              rw [← hg]
              exact all b hb c hc
          rw [Linked, ← same] at linked
          refine TransGen.head ?_ linked
          rw [← joins]
          exact hb
        · exact absurd hx List.not_mem_nil
  obtain ⟨seed, hseed, hk⟩ := List.mem_flatMap.mp h
  exact below _ _ seed (.single ((mem_seeds_of_closes closes).mp hseed)) k hk

/-- Two triples in a row are extended once, whatever the bound. -/
theorem mem_cteRows_of_two {b : Key} (hk : k ∈ db.stored p) (hb : b ∈ db.stored p)
    (joins : b.o = k.s) (graph : b.g = k.g) (ne : b.s ≠ k.s) :
    (⟨b.s, k.o, b.g⟩ : Key) ∈ q.cteRows db := by
  have seed : k ∈ q.seeds db := (mem_seeds_of_closes closes).mpr hk
  have positive : q.pathBound db ≠ 0 := by
    have seeds : 0 < (q.seeds db).length := List.length_pos_of_mem seed
    exact pow_ne_zero 3 (by omega)
  obtain ⟨fuel, hfuel⟩ := Nat.exists_eq_succ_of_ne_zero positive
  refine List.mem_flatMap.mpr ⟨k, seed, ?_⟩
  rw [hfuel]
  refine mem_expand_succ ?_ ((mem_extend_of_closes closes).mpr ⟨b, hb, joins, fun _ => graph, rfl⟩)
    ?_ self_mem_expand
  · intro bounded
    rw [List.length_singleton]
    exact bounded
  · simp [RecQuery.cycleCols, ne]

/-- With a bound on the depth, rows over triples of length one are short. -/
theorem span_of_mem_cteRows {D : Int} (bounded : 0 < D) (depth : q.maxDepth = D)
    (unit : ∀ b ∈ db.stored p, b.o = b.s + 1) (h : k ∈ q.cteRows db) : k.o ≤ k.s + (D + 1) := by
  have below (fuel : Nat) (path : List (Int × Int × Int)) (k : Key) (hk : k.o ≤ k.s + path.length)
      (short : (path.length : Int) ≤ D + 1) (x : Key) (hx : x ∈ q.expand db fuel path k) :
      x.o ≤ x.s + (D + 1) := by
    induction fuel generalizing path k with
    | zero =>
      rw [List.mem_singleton.mp hx]
      linarith
    | succ fuel ih =>
      rw [RecQuery.expand] at hx
      obtain rfl | hx := List.mem_cons.mp hx
      · linarith
      · split at hx
        · rename_i limit
          have room : (path.length : Int) ≤ D := depth ▸ limit (depth ▸ bounded)
          obtain ⟨k', hk', hx⟩ := List.mem_flatMap.mp hx
          obtain ⟨b, hb, joins, _, rfl⟩ :=
            (mem_extend_of_closes closes).mp (List.mem_filter.mp hk').1
          have next := unit b hb
          refine ih _ _ ?_ ?_ hx
          · rw [List.length_cons, Nat.cast_succ]
            show k.o ≤ b.s + (path.length + 1)
            linarith
          · rw [List.length_cons, Nat.cast_succ]
            linarith
        · exact absurd hx List.not_mem_nil
  obtain ⟨seed, hseed, hk⟩ := List.mem_flatMap.mp h
  refine below _ _ seed ?_ ?_ k hk
  · rw [unit seed ((mem_seeds_of_closes closes).mp hseed)]
    rfl
  · rw [List.length_singleton, Nat.cast_one]
    linarith

/-- Without a bound on the depth, every chain is a row. -/
theorem mem_cteRows_of_linked (unbounded : q.maxDepth ≤ 0)
    (h : Linked { b | b ∈ db.stored p } k) : k ∈ q.cteRows db := by
  let sources : TermId → List TermId := fun x =>
    ((db.stored p).filter fun b => b.o = x && b.g = k.g).map Key.s
  have mem_sources (x y : TermId) : y ∈ sources x ↔ (⟨y, x, k.g⟩ : Key) ∈ db.stored p := by
    simp only [sources, List.mem_map, List.mem_filter, Bool.and_eq_true, decide_eq_true_eq]
    constructor
    · rintro ⟨b, ⟨hb, rfl, hg⟩, rfl⟩
      rw [← hg]
      exact hb
    · intro h
      exact ⟨_, ⟨h, rfl, rfl⟩, rfl⟩
  let U : Finset TermId := ((db.stored p).map Key.s).toFinset
  -- a search that does not come back to a subject reaches every chain
  have below (fuel : Nat) (visited : List TermId) (x : TermId) (hx : x ∈ visited)
      (path : List (Int × Int × Int))
      (hpath : ∀ y, q.cycleCols ⟨y, k.o, k.g⟩ ∈ path ↔ y ∈ visited)
      (enough : Enough U fuel visited) (reach : Path sources { y | y ∈ visited } x k.s) :
      k ∈ q.expand db fuel path ⟨x, k.o, k.g⟩ := by
    induction fuel generalizing visited x path with
    | zero => exact absurd enough (Nat.not_lt_zero _)
    | succ fuel ih =>
      obtain same | ⟨z, ⟨edge, fresh⟩, rest⟩ := ReflTransGen.cases_head reach
      · rw [same]
        exact self_mem_expand
      · have stored := (mem_sources x z).mp edge
        have inside : z ∈ U := by
          rw [List.mem_toFinset]
          exact List.mem_map_of_mem stored
        have next : (⟨z, k.o, k.g⟩ : Key) ∈ q.extend db ⟨x, k.o, k.g⟩ :=
          (mem_extend_of_closes closes).mpr ⟨_, stored, rfl, fun _ => rfl, rfl⟩
        refine mem_expand_succ (fun bounded => absurd bounded (not_lt.mpr unbounded)) next ?_ ?_
        · rw [hpath]
          exact fresh
        · refine ih (z :: visited) z List.mem_cons_self _ ?_ (enough.cons inside fresh) ?_
          · intro y
            rw [List.mem_cons, List.mem_cons, hpath]
            refine or_congr_left ?_
            simp [RecQuery.cycleCols]
          · have simple : Path sources (insert z { y | y ∈ visited }) z k.s :=
                Path.insert_start rest
            have sets : { y | y ∈ z :: visited } = insert z { y | y ∈ visited } := by
              ext y
              exact List.mem_cons
            rw [sets]
            exact simple
  obtain ⟨m, chain, edge⟩ := TransGen.tail'_iff.mp h
  have seed : (⟨m, k.o, k.g⟩ : Key) ∈ q.seeds db := (mem_seeds_of_closes closes).mpr edge
  refine List.mem_flatMap.mpr ⟨_, seed, below _ [m] m (List.mem_singleton_self m) _ ?_ ?_ ?_⟩
  · intro y
    simp [RecQuery.cycleCols]
  · have few : U.card ≤ (db.stored p).length := by
      refine (List.toFinset_card_le _).trans ?_
      rw [List.length_map]
    have some : 0 < (db.stored p).length := List.length_pos_of_mem edge
    have seeds : 0 < (q.seeds db).length := List.length_pos_of_mem seed
    have cube : (q.seeds db).length + (db.stored q.stepPred).length ≤ q.pathBound db :=
      Nat.le_self_pow (by decide) _
    rw [closes.stepPred] at cube
    refine (Finset.card_filter_le _ _).trans_lt ?_
    omega
  · have back : Path sources ∅ m k.s := by
      clear edge seed
      induction chain with
      | refl => exact .refl
      | tail _ edge ih => exact Path.head ((mem_sources _ _).mpr edge) (Set.notMem_empty _) ih
    have start : { y | y ∈ [m] } = insert m (∅ : Set TermId) := by
      ext y
      simp
    rw [start]
    exact back.insert_start

end Closes

end Rows

/-- The id of a constant. -/
def Term.constant? : Term → Option TermId
  | .const id => some id
  | _ => none

/-- A row with the constants of the head. -/
def headRow (head : Atom) (k : Key) : Key :=
  ⟨head.s.constant?.getD k.s, head.o.constant?.getD k.o, k.g⟩

/-- A rule whose head predicate is also the predicate of a positive body atom, with constant
predicates and without negation. -/
structure Rule.Recurs (r : Rule) (head : Atom) (p : TermId) : Prop where
  hasHead : r.head = some head
  pred : head.p = .const p
  recursive : r.isRecursive p = true
  const : ∀ a ∈ r.positiveAtoms, a.pred?.isSome
  positive : ∀ a, .negated a ∉ r.body
  plain : ∀ a, .aggregate a ∉ r.body
  timeless : temporalFilters r = []

/-- The context with other stored triples. -/
def Context.withStored (ctx : Context) (stored : TermId → List Key) : Context :=
  { ctx with stored := stored }

/-- Once the rows of the statement are inserted, the head predicate is the least fixpoint of
the rule above the stored triples. -/
def ReachesFixpoint (I : Interpretation) (ctx : Context) (r : Rule) (head : Atom)
    (p : TermId) : Prop :=
  ∃ q, compileRecursiveRule ctx r head p = .ok q ∧
    ∀ k, k ∈ q.exec ctx.toDatabase ∨ k ∈ ctx.stored p ↔ k.quad p ∈ I.leastModel [r] ∅ ctx.facts

/-- The rule computes a transitive closure on triples of these graphs. -/
structure ActsAsClosure (I : Interpretation) (ctx : Context) (r : Rule) (head : Atom) (p : TermId)
    (G : Set TermId) : Prop where
  /-- No other predicate occurs in the body. -/
  only : ∀ a ∈ r.positiveAtoms, a.p = .const p
  /-- The depth is not bounded, unless a constant stands in the head. -/
  depth : G.Nonempty → ctx.settings.datalogMaxDepth ≤ 0 ∨ head.s.constant?.isSome ∨
    head.o.constant?.isSome
  /-- The head names the graph of the premises. -/
  graph : (∃ v, head.g = .var v) ∨ ∀ g ∈ G, headGExpr head.g = some g
  /-- Wherever the rule applies, its premises have a chain to the conclusion. -/
  applied : ∀ ρ chosen q, I.Instance r ∅ ρ chosen q → (∀ b ∈ chosen, b.g ∈ G) →
    q ∈ chosen ∨ ∃ k, Linked { b | b.quad p ∈ chosen } k ∧ headRow head k = q.key
  /-- It derives the head's row for every triple, and a shortcut for every two. -/
  single : ∀ k : Key, k.g ∈ G → (headRow head k).quad p ∈ I.leastModel [r] ∅ {k.quad p}
  double : ∀ a b c, ∀ g ∈ G, (headRow head ⟨a, c, g⟩).quad p ∈
    I.leastModel [r] ∅ {(⟨a, b, g⟩ : Key).quad p, (⟨b, c, g⟩ : Key).quad p}

section Statement

variable {ctx : Context} {r : Rule} {head : Atom} {p : TermId}

/-- What is known of the statement. -/
structure Emitted (ctx : Context) (r : Rule) (head : Atom) (p : TermId) (q : RecQuery) : Prop where
  row : q.row = headRow head
  where_ : q.where_ = []
  maxDepth : q.maxDepth = ctx.settings.datalogMaxDepth
  joinGraph : q.joinGraph = true ↔ ∃ v, head.g = .var v
  closes : (∀ a ∈ r.positiveAtoms, a.p = .const p) → q.Closes p
  base : ∀ a ∈ r.positiveAtoms, ∀ b, a.p = .const b → b ≠ p → ∀ (db : Database) (k : Key),
    k ∈ db.stored b → k.g = 0 → k ∈ q.seeds db

theorem exists_emitted (const : ∀ a ∈ r.positiveAtoms, a.pred?.isSome) :
    ∃ q, compileRecursiveRule ctx r head p = .ok q ∧ Emitted ctx r head p q := by
  simp only [compileRecursiveRule]
  refine ⟨_, if_neg ?_, ?_⟩
  · rw [Bool.not_eq_true, List.any_eq_false]
    intro a ha
    obtain ⟨b, hb⟩ := Option.isSome_iff_exists.mp (const a ha)
    rw [eq_const_of_pred hb]
    exact Bool.noConfusion
  refine ⟨?_, rfl, rfl, ?_, ?_, ?_⟩
  · funext k
    simp only [RecQuery.row, headRow]
    cases head.s <;> cases head.o <;> rfl
  · simp only
    split
    · rename_i v hv
      exact iff_of_true rfl ⟨v, hv⟩
    · rename_i no
      exact iff_of_false Bool.noConfusion fun ⟨v, hv⟩ => no v hv
  · intro only
    have none : baseAtoms r p = [] := by
      rw [baseAtoms, List.filter_eq_nil_iff]
      intro a ha
      simp [only a ha]
    constructor <;> simp [none]
  · intro a ha b hb ne db k stored zero
    have base : a ∈ baseAtoms r p := by
      rw [baseAtoms, List.mem_filter]
      refine ⟨ha, ?_⟩
      rw [hb]
      simpa using ne
    have mem : b ∈ (baseAtoms r p).filterMap Atom.pred? :=
      List.mem_filterMap.mpr ⟨a, base, by simp [Atom.pred?, hb]⟩
    have some : ((baseAtoms r p).filterMap Atom.pred?).isEmpty = false :=
      List.isEmpty_eq_false_iff.mpr (List.ne_nil_of_mem mem)
    simp only [RecQuery.seeds, some, Bool.false_eq_true, if_false, List.mem_filter,
      List.mem_flatMap]
    exact ⟨⟨b, mem, stored⟩, by simp [zero]⟩

end Statement

section Reached

variable {head : Atom} {E F : Set Key} {k : Key}

/-- A stored triple, or the head's row for a chain of them. -/
def Reached (head : Atom) (E : Set Key) (k : Key) : Prop :=
  k ∈ E ∨ ∃ k', Linked E k' ∧ headRow head k' = k

/-- With a constant in the head, one triple of the chain is enough. -/
theorem exists_edge (fixed : head.s.constant?.isSome ∨ head.o.constant?.isSome) (h : Linked E k) :
    ∃ e ∈ E, headRow head e = headRow head k := by
  obtain fixed | fixed := fixed
  · obtain ⟨e, he, o, g⟩ := h.exists_last
    obtain ⟨c, hc⟩ := Option.isSome_iff_exists.mp fixed
    exact ⟨e, he, by simp [headRow, hc, o, g]⟩
  · obtain ⟨e, he, s, g⟩ := h.exists_first
    obtain ⟨c, hc⟩ := Option.isSome_iff_exists.mp fixed
    exact ⟨e, he, by simp [headRow, hc, s, g]⟩

theorem headRow_headRow : headRow head (headRow head k) = headRow head k := by
  unfold headRow
  cases head.s.constant? <;> cases head.o.constant? <;> rfl

theorem headRow_of_free (free : ¬ (head.s.constant?.isSome ∨ head.o.constant?.isSome)) :
    headRow head k = k := by
  simp only [not_or, Option.not_isSome_iff_eq_none] at free
  simp [headRow, free]

/-- Chains of what is reached reach nothing new. -/
theorem reached_of_linked (h : Linked F k) (reached : ∀ b ∈ F, Reached head E b) :
    Reached head E (headRow head k) := by
  by_cases fixed : head.s.constant?.isSome ∨ head.o.constant?.isSome
  · obtain ⟨e, he, same⟩ := exists_edge fixed h
    obtain he | ⟨k', linked, rfl⟩ := reached e he
    · exact .inr ⟨e, .single he, same⟩
    · exact .inr ⟨k', linked, headRow_headRow.symm.trans same⟩
  · refine .inr ⟨k, h.flatten ?_, rfl⟩
    intro b hb
    obtain hb | ⟨k', linked, rfl⟩ := reached b hb
    · exact .single hb
    · rw [headRow_of_free fixed]
      exact linked

theorem graph_of_reached (h : Reached head E k) : ∃ e ∈ E, e.g = k.g := by
  obtain h | ⟨k', linked, rfl⟩ := h
  · exact ⟨k, h, rfl⟩
  · obtain ⟨e, he, _, g⟩ := linked.exists_first
    exact ⟨e, he, g⟩

end Reached

section Exec

variable {ctx : Context} {r : Rule} {head : Atom} {p : TermId} {q : RecQuery}

/-- The rows of the statement and the stored triples are what chains reach. -/
theorem mem_exec_iff_reached (emitted : Emitted ctx r head p q)
    (only : ∀ a ∈ r.positiveAtoms, a.p = .const p)
    (uniform : (∃ v, head.g = .var v) ∨ ∀ b ∈ ctx.stored p, ∀ c ∈ ctx.stored p, b.g = c.g)
    (depth : ∀ e ∈ ctx.stored p, ctx.settings.datalogMaxDepth ≤ 0 ∨ head.s.constant?.isSome ∨
      head.o.constant?.isSome) {k : Key} : k ∈ q.exec ctx.toDatabase ∨ k ∈ ctx.stored p ↔
      Reached head { b | b ∈ ctx.stored p } k := by
  have closes := emitted.closes only
  rw [mem_exec_recQuery emitted.where_, emitted.row]
  constructor
  · rintro (⟨k', hk', rfl⟩ | stored)
    · refine .inr
        ⟨k', linked_of_mem_cteRows closes (uniform.imp_left emitted.joinGraph.mpr) hk', rfl⟩
    · exact .inl stored
  · rintro (stored | ⟨k', linked, rfl⟩)
    · exact .inr stored
    · obtain ⟨e, he, _⟩ := linked.exists_first
      obtain unbounded | fixed := depth e he
      · exact .inl ⟨k', mem_cteRows_of_linked closes (emitted.maxDepth ▸ unbounded) linked, rfl⟩
      · obtain ⟨e, he, same⟩ := exists_edge fixed linked
        exact .inl ⟨e, mem_cteRows_of_seed ((mem_seeds_of_closes closes).mpr he), same⟩

end Exec

section Fixpoint

variable {I : Interpretation} {ctx : Context} {r : Rule} {head : Atom} {p : TermId}
  {G : Set TermId}

theorem Rule.Recurs.not_temporal (recurs : r.Recurs head p) (I : Interpretation) (a : Atom) :
    ¬ I.Temporal r a := fun ⟨filters, _⟩ => filters recurs.timeless

/-- What is derived from derived triples is derived. -/
theorem leastModel_trans {rules : List Rule} {N facts facts' : Set Quad}
    (h : facts' ⊆ I.leastModel rules N facts) :
    I.leastModel rules N facts' ⊆ I.leastModel rules N facts :=
  least_subset h fun _ _ step premises => mem_least_of_infer step premises

/-- An instance of the rule with premises in the least model. -/
theorem mem_leastModel_of_instance (recurs : r.Recurs head p) {facts : Set Quad} {ρ : Valuation}
    {chosen : List Quad} {b : Quad} (inst : I.Instance r ∅ ρ chosen b)
    (premises : ∀ c ∈ chosen, c ∈ I.leastModel [r] ∅ facts) : b ∈ I.leastModel [r] ∅ facts := by
  refine mem_least_of_infer ⟨r, List.mem_singleton_self r, ρ, chosen, inst, rfl⟩ ?_
  intro c hc
  exact premises c ((Interpretation.mem_premises (recurs.not_temporal I) inst).mp hc)

/-- A rule that derives shortcuts derives whatever a chain leads to. -/
theorem mem_leastModel_of_linked {rules : List Rule} {N facts : Set Quad} {E : Set Key} {k : Key}
    (shortcut : ∀ a b c, (⟨a, c, k.g⟩ : Key).quad p ∈
      I.leastModel rules N {(⟨a, b, k.g⟩ : Key).quad p, (⟨b, c, k.g⟩ : Key).quad p})
    (known : ∀ b ∈ E, b.quad p ∈ I.leastModel rules N facts) (h : Linked E k) :
    k.quad p ∈ I.leastModel rules N facts := by
  have each (y : TermId) (chain : TransGen (fun x y => (⟨x, y, k.g⟩ : Key) ∈ E) k.s y) :
      (⟨k.s, y, k.g⟩ : Key).quad p ∈ I.leastModel rules N facts := by
    induction chain with
    | single edge => exact known _ edge
    | @tail y z _ edge ih =>
      refine leastModel_trans ?_ (shortcut k.s y z)
      rintro b (rfl | rfl)
      · exact ih
      · exact known _ edge
  exact each k.o h

/-- The triples that chains reach are derived. -/
theorem mem_leastModel_of_reached (closure : ActsAsClosure I ctx r head p G) {facts : Set Quad}
    {E : Set Key} (inside : ∀ b ∈ E, b.g ∈ G) (known : ∀ b ∈ E, b.quad p ∈ facts) {k : Key}
    (h : Reached head E k) : k.quad p ∈ I.leastModel [r] ∅ facts := by
  have base (b : Key) (hb : b ∈ E) : b.quad p ∈ I.leastModel [r] ∅ facts :=
    base_subset_least (known b hb)
  obtain h | ⟨k', linked, rfl⟩ := h
  · exact base k h
  · by_cases fixed : head.s.constant?.isSome ∨ head.o.constant?.isSome
    · obtain ⟨e, he, same⟩ := exists_edge fixed linked
      rw [← same]
      refine leastModel_trans ?_ (closure.single e (inside e he))
      rintro _ rfl
      exact base e he
    · rw [headRow_of_free fixed]
      refine mem_leastModel_of_linked ?_ base linked
      intro a b c
      obtain ⟨e, he, _, g⟩ := linked.exists_first
      have step := closure.double a b c k'.g (g ▸ inside e he)
      rw [headRow_of_free fixed] at step
      exact step

/-- The derived triples are those that chains reach. -/
theorem reached_of_mem_leastModel (recurs : r.Recurs head p)
    (closure : ActsAsClosure I ctx r head p G) {facts : Set Quad} {E : Set Key}
    (inside : ∀ b ∈ E, b.g ∈ G) (known : ∀ k : Key, k.quad p ∈ facts → k ∈ E) {k : Key}
    (h : k.quad p ∈ I.leastModel [r] ∅ facts) : Reached head E k := by
  have all : I.leastModel [r] ∅ facts ⊆ { b | b.p = p → Reached head E b.key } := by
    refine least_subset ?_ ?_
    · rintro b hb rfl
      refine .inl (known _ ?_)
      rw [Quad.key_quad]
      exact hb
    · rintro _ b ⟨r', hr, ρ, chosen, inst, rfl⟩ premises _
      rw [List.mem_singleton.mp hr] at inst premises
      have reached (c : Quad) (hc : c ∈ chosen) : c.p = p ∧ Reached head E c.key := by
        obtain ⟨a, ha, isMatch, _⟩ := Fold.exists_right_of_forall₂ inst.atoms.flip hc
        have pred : c.p = p := Interpretation.pred_of_matches isMatch
          (by simp [Atom.pred?, closure.only a ha])
        exact ⟨pred, premises
          ((Interpretation.mem_premises (recurs.not_temporal I) inst).mpr hc) pred⟩
      have graphs (c : Quad) (hc : c ∈ chosen) : c.g ∈ G := by
        obtain ⟨e, he, g⟩ := graph_of_reached (reached c hc).2
        have same : c.g = e.g := g.symm
        rw [same]
        exact inside e he
      obtain old | ⟨k', linked, same⟩ := closure.applied ρ chosen b inst graphs
      · exact (reached b old).2
      · rw [← same]
        refine reached_of_linked linked ?_
        intro c hc
        exact (reached (c.quad p) hc).2
  exact all h rfl

/-- A rule that acts as a closure is computed, whatever is stored. -/
theorem reachesFixpoint_of_closure (recurs : r.Recurs head p)
    (closure : ActsAsClosure I ctx r head p G) (stored : TermId → List Key)
    (inside : ∀ k ∈ stored p, k.g ∈ G) :
    ReachesFixpoint I (ctx.withStored stored) r head p := by
  obtain ⟨q, compiled, emitted⟩ :
      ∃ q, compileRecursiveRule (ctx.withStored stored) r head p = .ok q ∧
        Emitted (ctx.withStored stored) r head p q := exists_emitted recurs.const
  have uniform : (∃ v, head.g = .var v) ∨ ∀ b ∈ stored p, ∀ c ∈ stored p, b.g = c.g := by
    refine closure.graph.imp_right fun all b hb c hc => ?_
    have graphB := all b.g (inside b hb)
    rw [all c.g (inside c hc)] at graphB
    exact (Option.some.inj graphB).symm
  have depth (e : Key) (he : e ∈ stored p) := closure.depth ⟨e.g, inside e he⟩
  refine ⟨q, compiled, fun k => ?_⟩
  refine (mem_exec_iff_reached emitted closure.only uniform depth).trans ⟨?_, ?_⟩
  · exact mem_leastModel_of_reached closure inside fun b hb => hb
  · exact reached_of_mem_leastModel recurs closure inside fun b hb => hb

/-- Only triples of one predicate are stored. -/
def onlyStored (p : TermId) (rows : List Key) : TermId → List Key := fun x =>
  if x = p then rows else []

theorem facts_onlyStored (rows : List Key) :
    (ctx.withStored (onlyStored p rows)).facts = { b | b.p = p ∧ b.key ∈ rows } := by
  ext b
  simp only [Context.facts, Context.withStored, onlyStored, Set.mem_ofPred_eq]
  split
  · rename_i same
    exact ⟨fun h => ⟨same, h⟩, fun h => h.2⟩
  · rename_i other
    exact ⟨fun h => absurd h List.not_mem_nil, fun h => absurd h.1 other⟩

/-- Nothing is derived without a triple of the head predicate. -/
theorem pred_ne_of_derived (recurs : r.Recurs head p) {facts : Set Quad}
    (absent : ∀ b ∈ facts, b.p ≠ p) : ∀ b ∈ I.leastModel [r] ∅ facts, b.p ≠ p := by
  refine least_subset (X := { b : Quad | b.p ≠ p }) absent ?_
  rintro _ b ⟨r', hr, ρ, chosen, inst, rfl⟩ premises
  rw [List.mem_singleton.mp hr] at inst premises
  obtain ⟨a, ha, isHead⟩ := List.any_eq_true.mp recurs.recursive
  obtain ⟨c, hc, isMatch, _⟩ := Fold.exists_right_of_forall₂ inst.atoms ha
  have pred : c.p = p := Interpretation.pred_of_matches isMatch
    (by simp [Atom.pred?, of_decide_eq_true isHead])
  exact absurd pred (premises ((Interpretation.mem_premises (recurs.not_temporal I) inst).mpr hc))

/-- A derived triple that is not stored lies in the graph that the head names. -/
theorem graph_of_derived {facts : Set Quad} {b : Quad} (recurs : r.Recurs head p)
    (h : b ∈ I.leastModel [r] ∅ facts) (new : b ∉ facts) :
    ∃ ρ : Valuation, (head.g.value ρ).getD 0 = b.g := by
  cases h with
  | base old => exact absurd old new
  | infer step _ =>
    obtain ⟨r', hr, ρ, chosen, inst, rfl⟩ := step
    rw [List.mem_singleton.mp hr] at inst
    exact ⟨ρ, (inst.concludes recurs.hasHead).g⟩

theorem headGExpr_of_value {t : Term} {g : TermId} (notVar : ¬ ∃ v, t = .var v) {ρ : Valuation}
    (h : (t.value ρ).getD 0 = g) : headGExpr t = some g := by
  cases t with
  | var v => exact absurd ⟨v, rfl⟩ notVar
  | const id => exact congrArg some h
  | wildcard => exact congrArg some h
  | defaultGraph => exact congrArg some h

theorem emitted_of_reachesFixpoint (recurs : r.Recurs head p)
    (h : ReachesFixpoint I ctx r head p) : ∃ q, Emitted ctx r head p q ∧
      ∀ k, k ∈ q.exec ctx.toDatabase ∨ k ∈ ctx.stored p ↔
        k.quad p ∈ I.leastModel [r] ∅ ctx.facts := by
  obtain ⟨q, compiled, rows⟩ := h
  obtain ⟨q', compiled', emitted⟩ :
      ∃ q, compileRecursiveRule ctx r head p = .ok q ∧ Emitted ctx r head p q :=
    exists_emitted recurs.const
  rw [compiled] at compiled'
  cases compiled'
  exact ⟨q, emitted, rows⟩

section Necessary

variable (recurs : r.Recurs head p)
  (all : ∀ stored : TermId → List Key, (∀ k ∈ stored p, k.g ∈ G) →
    ReachesFixpoint I (ctx.withStored stored) r head p)

include recurs all

/-- No other predicate can occur in the body: its rows would be taken for the head's. -/
theorem only_of_reachesFixpoint : ∀ a ∈ r.positiveAtoms, a.p = .const p := by
  intro a ha
  obtain ⟨b, hb⟩ := Option.isSome_iff_exists.mp (recurs.const a ha)
  have hb := eq_const_of_pred hb
  by_cases same : b = p
  · rw [hb, same]
  · exfalso
    have absent : onlyStored b [⟨1, 2, 0⟩] p = [] := if_neg (Ne.symm same)
    obtain ⟨q, emitted, rows⟩ := emitted_of_reachesFixpoint recurs
      (all (onlyStored b [⟨1, 2, 0⟩]) (by rw [absent]; exact fun _ h => absurd h List.not_mem_nil))
    have stored : (⟨1, 2, 0⟩ : Key) ∈ onlyStored b [⟨1, 2, 0⟩] b := by simp [onlyStored]
    have seed := emitted.base a ha b hb same (ctx.withStored (onlyStored b [⟨1, 2, 0⟩])).toDatabase
      ⟨1, 2, 0⟩ stored rfl
    have derived := (rows (headRow head ⟨1, 2, 0⟩)).mp (.inl
      ((mem_exec_recQuery emitted.where_).mpr ⟨_, mem_cteRows_of_seed seed, by rw [emitted.row]⟩))
    refine pred_ne_of_derived recurs ?_ _ derived rfl
    rw [facts_onlyStored]
    rintro c ⟨hc, _⟩
    rw [hc]
    exact same

/-- What is inserted, and what is derived, from triples of the head predicate. -/
theorem rows_of_reachesFixpoint (rows : List Key) (inside : ∀ k ∈ rows, k.g ∈ G) :
    ∃ q, Emitted (ctx.withStored (onlyStored p rows)) r head p q ∧ q.Closes p ∧
      ∀ k, k ∈ q.exec (ctx.withStored (onlyStored p rows)).toDatabase ∨ k ∈ rows ↔
        k.quad p ∈ I.leastModel [r] ∅ { b | b.p = p ∧ b.key ∈ rows } := by
  have here : onlyStored p rows p = rows := if_pos rfl
  obtain ⟨q, emitted, h⟩ := emitted_of_reachesFixpoint recurs
    (all (onlyStored p rows) (by rw [here]; exact inside))
  refine ⟨q, emitted, emitted.closes (only_of_reachesFixpoint recurs all), fun k => ?_⟩
  have read : (ctx.withStored (onlyStored p rows)).stored p = rows := here
  have both := h k
  rw [facts_onlyStored, read] at both
  exact both

theorem derived_of_reachesFixpoint (rows : List Key) {facts : Set Quad}
    (inside : ∀ k ∈ rows, k.g ∈ G) (known : ∀ k ∈ rows, k.quad p ∈ facts) {k : Key}
    (emits : ∀ q : RecQuery, q.Closes p →
      k ∈ q.cteRows (ctx.withStored (onlyStored p rows)).toDatabase) :
    (headRow head k).quad p ∈ I.leastModel [r] ∅ facts := by
  obtain ⟨q, emitted, closes, derived⟩ := rows_of_reachesFixpoint recurs all rows inside
  have more : { b : Quad | b.p = p ∧ b.key ∈ rows } ⊆ facts := by
    rintro b ⟨rfl, hb⟩
    have := known b.key hb
    rwa [Quad.key_quad] at this
  refine leastModel_trans (more.trans base_subset_least) ((derived _).mp (.inl ?_))
  exact (mem_exec_recQuery emitted.where_).mpr ⟨k, emits q closes, by rw [emitted.row]⟩

theorem single_of_reachesFixpoint (k : Key) (hk : k.g ∈ G) :
    (headRow head k).quad p ∈ I.leastModel [r] ∅ {k.quad p} := by
  refine derived_of_reachesFixpoint recurs all [k] (by simpa using hk) (by simp) ?_
  intro q closes
  refine mem_cteRows_of_seed ((mem_seeds_of_closes closes).mpr ?_)
  simp [Context.withStored, onlyStored]

theorem double_of_reachesFixpoint (a b c : TermId) (g : TermId) (hg : g ∈ G) :
    (headRow head ⟨a, c, g⟩).quad p ∈
      I.leastModel [r] ∅ {(⟨a, b, g⟩ : Key).quad p, (⟨b, c, g⟩ : Key).quad p} := by
  refine derived_of_reachesFixpoint recurs all [⟨a, b, g⟩, ⟨b, c, g⟩] (by simp [hg])
    (by simp) ?_
  intro q closes
  have read : (ctx.withStored (onlyStored p [⟨a, b, g⟩, ⟨b, c, g⟩])).stored p =
    [⟨a, b, g⟩, ⟨b, c, g⟩] := if_pos rfl
  by_cases same : a = b
  · subst same
    refine mem_cteRows_of_seed ((mem_seeds_of_closes closes).mpr ?_)
    rw [read]
    simp
  · exact mem_cteRows_of_two closes (k := ⟨b, c, g⟩) (b := ⟨a, b, g⟩) (by rw [read]; simp)
      (by rw [read]; simp) rfl rfl same

/-- A graph other than the head's would stay with its triples. -/
theorem graph_of_reachesFixpoint :
    (∃ v, head.g = .var v) ∨ ∀ g ∈ G, headGExpr head.g = some g := by
  by_cases isVar : ∃ v, head.g = .var v
  · exact .inl isVar
  · refine .inr fun g hg => ?_
    -- some row of the statement is not stored
    obtain ⟨rows, k, derived, graph, new⟩ : ∃ (rows : List Key) (k : Key),
        (headRow head k).quad p ∈ I.leastModel [r] ∅ { b | b.p = p ∧ b.key ∈ rows } ∧
        k.g = g ∧ headRow head k ∉ rows := by
      have one (k : Key) (hk : k.g = g) (ne : headRow head k ≠ k) : ∃ (rows : List Key) (k : Key),
          (headRow head k).quad p ∈ I.leastModel [r] ∅ { b | b.p = p ∧ b.key ∈ rows } ∧
          k.g = g ∧ headRow head k ∉ rows := by
        refine ⟨[k], k, ?_, hk, fun h => ne (List.mem_singleton.mp h)⟩
        refine leastModel_trans ?_ (single_of_reachesFixpoint recurs all k (hk ▸ hg))
        rintro _ rfl
        exact base_subset_least ⟨rfl, List.mem_singleton_self k⟩
      cases hs : head.s.constant? with
      | some c =>
        refine one ⟨c + 1, 0, g⟩ rfl fun same => ?_
        have := congrArg Key.s same
        simp [headRow, hs] at this
      | none =>
        cases ho : head.o.constant? with
        | some c =>
          refine one ⟨0, c + 1, g⟩ rfl fun same => ?_
          have := congrArg Key.o same
          simp [headRow, ho] at this
        | none =>
          refine ⟨[⟨1, 2, g⟩, ⟨2, 3, g⟩], ⟨1, 3, g⟩, ?_, rfl, by simp [headRow, hs, ho]⟩
          refine leastModel_trans ?_ (double_of_reachesFixpoint recurs all 1 2 3 g hg)
          rintro b (rfl | rfl)
          · exact base_subset_least ⟨rfl, by simp⟩
          · exact base_subset_least ⟨rfl, by simp⟩
    have outside : (headRow head k).quad p ∉ { b : Quad | b.p = p ∧ b.key ∈ rows } :=
      fun h => new h.2
    obtain ⟨ρ, value⟩ := graph_of_derived recurs derived outside
    have same : ((headRow head k).quad p).g = g := graph
    rw [same] at value
    exact headGExpr_of_value isVar value

/-- An instance whose premises are stored is reached by them. -/
theorem applied_of_reachesFixpoint (ρ : Valuation) (chosen : List Quad) (b : Quad)
    (inst : I.Instance r ∅ ρ chosen b) (graphs : ∀ c ∈ chosen, c.g ∈ G) :
    b ∈ chosen ∨ ∃ k, Linked { c | c.quad p ∈ chosen } k ∧ headRow head k = b.key := by
  have only := only_of_reachesFixpoint recurs all
  have preds (c : Quad) (hc : c ∈ chosen) : c.p = p := by
    obtain ⟨a, ha, isMatch, _⟩ := Fold.exists_right_of_forall₂ inst.atoms.flip hc
    exact Interpretation.pred_of_matches isMatch (by simp [Atom.pred?, only a ha])
  have stored (k : Key) : k ∈ chosen.map Quad.key ↔ k.quad p ∈ chosen := by
    rw [List.mem_map]
    constructor
    · rintro ⟨c, hc, rfl⟩
      rw [← preds c hc, Quad.key_quad]
      exact hc
    · intro h
      exact ⟨_, h, rfl⟩
  have pred : b.p = p := by
    have concludes := (inst.concludes recurs.hasHead).p
    rw [recurs.pred] at concludes
    exact (Option.some.inj concludes).symm
  have quad : b.key.quad p = b := by rw [← pred, Quad.key_quad]
  obtain ⟨q, emitted, closes, derived⟩ :=
    rows_of_reachesFixpoint recurs all (chosen.map Quad.key) (by
      intro k hk
      obtain ⟨c, hc, rfl⟩ := List.mem_map.mp hk
      exact graphs c hc)
  have mem : b.key.quad p ∈ I.leastModel [r] ∅ { c | c.p = p ∧ c.key ∈ chosen.map Quad.key } := by
    rw [quad]
    refine mem_leastModel_of_instance recurs inst fun c hc => ?_
    exact base_subset_least ⟨preds c hc, List.mem_map_of_mem hc⟩
  obtain row | old := (derived b.key).mpr mem
  · obtain ⟨k, hk, same⟩ := (mem_exec_recQuery emitted.where_).mp row
    rw [emitted.row] at same
    refine .inr ⟨k, ?_, same⟩
    have read : (ctx.withStored (onlyStored p (chosen.map Quad.key))).stored p =
      chosen.map Quad.key := if_pos rfl
    have uniform : q.joinGraph = true ∨
        ∀ c ∈ (ctx.withStored (onlyStored p (chosen.map Quad.key))).stored p,
          ∀ d ∈ (ctx.withStored (onlyStored p (chosen.map Quad.key))).stored p, c.g = d.g := by
      refine (graph_of_reachesFixpoint recurs all).imp emitted.joinGraph.mpr ?_
      intro named c hc d hd
      rw [read, stored] at hc hd
      have graphC := named c.g (graphs _ hc)
      rw [named d.g (graphs _ hd)] at graphC
      exact (Option.some.inj graphC).symm
    have linked := linked_of_mem_cteRows closes uniform hk
    rw [read] at linked
    simp only [stored] at linked
    exact linked
  · rw [stored, quad] at old
    exact .inl old

/-- A bound on the depth cuts long chains off. -/
theorem depth_of_reachesFixpoint (nonempty : G.Nonempty) :
    ctx.settings.datalogMaxDepth ≤ 0 ∨ head.s.constant?.isSome ∨ head.o.constant?.isSome := by
  by_contra no
  obtain ⟨bounded, free⟩ := not_or.mp no
  obtain ⟨g, hg⟩ := nonempty
  obtain ⟨D, hD⟩ := Int.eq_ofNat_of_zero_le (not_le.mp bounded).le
  -- a chain of more triples than the bound allows
  let rows : List Key := (List.range (D + 2)).map fun i : Nat => ⟨(i : Int), (i : Int) + 1, g⟩
  have mem (i : Nat) (hi : i < D + 2) : (⟨(i : Int), (i : Int) + 1, g⟩ : Key) ∈ rows :=
    List.mem_map.mpr ⟨i, List.mem_range.mpr hi, rfl⟩
  have unit (b : Key) (hb : b ∈ rows) : b.o = b.s + 1 ∧ b.g = g := by
    obtain ⟨i, _, rfl⟩ := List.mem_map.mp hb
    exact ⟨rfl, rfl⟩
  have chain (n : Nat) (hn : n < D + 2) :
      TransGen (fun x y => (⟨x, y, g⟩ : Key) ∈ rows) 0 ((n : Int) + 1) := by
    induction n with
    | zero => exact .single (mem 0 hn)
    | succ n ih => exact (ih (Nat.lt_of_succ_lt hn)).tail (mem (n + 1) hn)
  have linked : Linked { b | b ∈ rows } ⟨0, ((D + 1 : Nat) : Int) + 1, g⟩ :=
    chain (D + 1) (Nat.lt_succ_self _)
  have shortcut (a b c : TermId) : (⟨a, c, g⟩ : Key).quad p ∈
      I.leastModel [r] ∅ {(⟨a, b, g⟩ : Key).quad p, (⟨b, c, g⟩ : Key).quad p} := by
    have step := double_of_reachesFixpoint recurs all a b c g hg
    rwa [headRow_of_free free] at step
  obtain ⟨q, emitted, closes, derived⟩ := rows_of_reachesFixpoint recurs all rows
    fun k hk => (unit k hk).2 ▸ hg
  have known (b : Key) (hb : b ∈ rows) :
      b.quad p ∈ I.leastModel [r] ∅ { b | b.p = p ∧ b.key ∈ rows } :=
    base_subset_least ⟨rfl, hb⟩
  have far := mem_leastModel_of_linked shortcut known linked
  have read : (ctx.withStored (onlyStored p rows)).stored p = rows := if_pos rfl
  obtain row | old := (derived _).mpr far
  · obtain ⟨k, hk, same⟩ := (mem_exec_recQuery emitted.where_).mp row
    rw [emitted.row, headRow_of_free free] at same
    have span := span_of_mem_cteRows closes (not_le.mp bounded) emitted.maxDepth
      (fun b hb => (unit b (read ▸ hb)).1) hk
    rw [same, hD] at span
    push_cast at span
    linarith
  · have span := (unit _ old).1
    push_cast at span
    rw [hD] at bounded
    have := not_le.mp bounded
    linarith

end Necessary

end Fixpoint

/-- The statement of a recursive rule reaches the least fixpoint of the rule, whatever is
stored in these graphs, exactly if the rule acts as a transitive closure. -/
theorem reachesFixpoint_iff {I : Interpretation} {ctx : Context} {r : Rule} {head : Atom}
    {p : TermId} (G : Set TermId) (recurs : r.Recurs head p) :
    (∀ stored : TermId → List Key, (∀ k ∈ stored p, k.g ∈ G) →
      ReachesFixpoint I (ctx.withStored stored) r head p) ↔ ActsAsClosure I ctx r head p G := by
  constructor
  · intro all
    exact {
      only := only_of_reachesFixpoint recurs all
      depth := depth_of_reachesFixpoint recurs all
      graph := graph_of_reachesFixpoint recurs all
      applied := applied_of_reachesFixpoint recurs all
      single := single_of_reachesFixpoint recurs all
      double := double_of_reachesFixpoint recurs all }
  · intro closure stored inside
    exact reachesFixpoint_of_closure recurs closure stored inside

/-- A pattern over variables, in a variable graph. -/
def graphEdge (x : String) (p : TermId) (y : String) : Atom := ⟨.var x, .const p, .var y, .var "g"⟩

/-- `GRAPH ?g { ?x <11> ?z } :- GRAPH ?g { ?x <11> ?y }, GRAPH ?g { ?y <11> ?z } .` -/
def transitiveRule : Rule :=
  ⟨some (graphEdge "x" 11 "z"),
    [.positive (graphEdge "x" 11 "y"), .positive (graphEdge "y" 11 "z")],
    "GRAPH ?g { ?x <11> ?z } :- GRAPH ?g { ?x <11> ?y }, GRAPH ?g { ?y <11> ?z } ."⟩

theorem recurs_transitiveRule : transitiveRule.Recurs (graphEdge "x" 11 "z") 11 where
  hasHead := rfl
  pred := rfl
  recursive := by decide
  const := by decide
  positive := by simp [transitiveRule]
  plain := by simp [transitiveRule]
  timeless := rfl

theorem actsAsClosure_transitiveRule (I : Interpretation) (ctx : Context)
    (unbounded : ctx.settings.datalogMaxDepth ≤ 0) :
    ActsAsClosure I ctx transitiveRule (graphEdge "x" 11 "z") 11 Set.univ where
  only := by decide
  depth := fun _ => .inl unbounded
  graph := .inl ⟨"g", rfl⟩
  applied := by
    intro ρ chosen b inst _
    obtain ⟨head, hh, concludes⟩ := inst.head
    cases hh
    -- the two premises are the links of the chain
    obtain ⟨c, d, rfl, first, second⟩ : ∃ c d, chosen = [c, d] ∧
        (graphEdge "x" 11 "y").Matches I.scope ρ c ∧
          (graphEdge "y" 11 "z").Matches I.scope ρ d := by
      have atoms : List.Forall₂ (I.AtomMatches transitiveRule ρ)
        [graphEdge "x" 11 "y", graphEdge "y" 11 "z"] chosen := inst.atoms
      cases atoms with
      | cons first rest =>
        cases rest with
        | cons second none =>
          cases none
          exact ⟨_, _, rfl, first.1, second.1⟩
    have links (x y : String) (e : Quad) (isMatch : (graphEdge x 11 y).Matches I.scope ρ e) :
        (⟨ρ x, ρ y, ρ "g"⟩ : Key).quad 11 = e := by
      obtain ⟨s, p, o, g⟩ := e
      cases isMatch.s
      cases isMatch.p
      cases isMatch.o
      cases isMatch.g
      rfl
    refine .inr ⟨⟨ρ "x", ρ "z", ρ "g"⟩, ?_, ?_⟩
    · refine .tail (b := ρ "y") (.single ?_) ?_
      · show (⟨ρ "x", ρ "y", ρ "g"⟩ : Key).quad 11 ∈ [c, d]
        rw [links "x" "y" c first]
        exact List.mem_cons_self
      · show (⟨ρ "y", ρ "z", ρ "g"⟩ : Key).quad 11 ∈ [c, d]
        rw [links "y" "z" d second]
        exact List.mem_cons_of_mem c (List.mem_singleton_self d)
    · obtain ⟨s, p, o, g⟩ := b
      cases concludes.s
      cases concludes.p
      cases concludes.o
      cases concludes.g
      rfl
  single := fun k _ => base_subset_least rfl
  double := by
    intro x y z g _
    let ρ : Valuation := fun v => if v = "x" then x else if v = "y" then y else if v = "z" then z
      else g
    have inst : I.Instance transitiveRule ∅ ρ
        [(⟨x, y, g⟩ : Key).quad 11, (⟨y, z, g⟩ : Key).quad 11] ((⟨x, z, g⟩ : Key).quad 11) := by
      refine ⟨⟨_, rfl, rfl, rfl, rfl, rfl⟩, ?_, ?_⟩
      · have timeless := recurs_transitiveRule.not_temporal I
        exact .cons ⟨⟨rfl, rfl, rfl, rfl⟩, fun h => absurd h (timeless _)⟩
          (.cons ⟨⟨rfl, rfl, rfl, rfl⟩, fun h => absurd h (timeless _)⟩ .nil)
      · intro l hl
        obtain rfl | rfl := List.mem_pair.mp hl <;> trivial
    refine mem_leastModel_of_instance recurs_transitiveRule inst fun c hc => ?_
    exact base_subset_least (List.mem_pair.mp hc)

theorem reachesFixpoint_transitiveRule :
    ReachesFixpoint (Environment.bare.interpretation fun _ _ => 0)
      ((Environment.bare.context Store.initial).withStored
        (onlyStored 11 [⟨101, 102, 0⟩, ⟨102, 103, 0⟩])) transitiveRule (graphEdge "x" 11 "z") 11 :=
  (reachesFixpoint_iff Set.univ recurs_transitiveRule).mpr
    (actsAsClosure_transitiveRule _ _ le_rfl) _ fun _ _ => trivial

/-- The usual recursion over another predicate,
`?x <11> ?z :- ?x <21> ?y, ?y <11> ?z .` -/
def stepwiseRule : Rule :=
  ⟨some (edge "x" 11 "z"), [.positive (edge "x" 21 "y"), .positive (edge "y" 11 "z")],
    "?x <11> ?z :- ?x <21> ?y, ?y <11> ?z ."⟩

theorem recurs_stepwiseRule : stepwiseRule.Recurs (edge "x" 11 "z") 11 where
  hasHead := rfl
  pred := rfl
  recursive := by decide
  const := by decide
  positive := by simp [stepwiseRule]
  plain := by simp [stepwiseRule]
  timeless := rfl

/-- With one stored triple, of the other predicate, the statement inserts it for the head
predicate, although nothing can be derived. -/
theorem not_reachesFixpoint_stepwiseRule :
    ¬ ReachesFixpoint (Environment.bare.interpretation fun _ _ => 0)
      ((Environment.bare.context Store.initial).withStored (onlyStored 21 [⟨101, 102, 0⟩]))
      stepwiseRule (edge "x" 11 "z") 11 := by
  intro ⟨q, compiled, rows⟩
  cases compiled
  have derived := (rows ⟨101, 102, 0⟩).mp (.inl (by decide))
  refine pred_ne_of_derived recurs_stepwiseRule ?_ _ derived rfl
  rw [facts_onlyStored]
  rintro b ⟨hb, _⟩
  rw [hb]
  decide

end PgRipple.Datalog
