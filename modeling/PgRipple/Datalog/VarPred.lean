import PgRipple.Datalog.Accepted
import PgRipple.Datalog.PredVars
import PgRipple.Datalog.RemoveRule

/-!
# Rules with predicate variables

A rule such as `?y ?p ?x :- ?x ?p ?y, ?p rdf:type owl:SymmetricProperty` has no table to read for
`?p`. `run_var_pred_rule` collects the ids that `?p` can stand for and runs the rule once for each
of them.

A variable that is never the subject or object of an atom gets no ids, and then nothing is run. A
variable that is left in the rule makes it fail to compile. A specialised rule whose head predicate
occurs in its body is compiled as a transitive closure over the other atoms. And the statements run
one after the other, each over what the ones before have inserted.
-/

namespace PgRipple.Datalog

open Storage

/-- `compile_single_rule`: the head predicate gets tables first. -/
def compileSingleRule (env : Environment) (st : Store) (rule : Rule) :
    Except String (TermId × Stmt) × Store :=
  let st := match rule.headPred with
    | some p => st.ensureVpTable p
    | none => st
  (compileSingleRuleTo (env.context st) rule, st)

/-- Compile a specialised rule and execute its statement, with the number of statements so far.
A rule without head or one that does not compile is skipped. -/
def runSpecialised (env : Environment) (session : Session) (acc : Int × Store) (rule : Rule) :
    Option (Int × Store) :=
  if rule.head.isNone then some acc
  else
    let (compiled, st) := compileSingleRule env acc.2 rule
    match compiled with
    | .error _ => some (acc.1, st)
    | .ok (p, stmt) => do
      let rows ← stmt.exec (env.context st).toDatabase []
      let st ← insertColumns session p rows st
      return (acc.1 + 1, st)

/-- One round of the loop over the bindings. -/
def runBinding (env : Environment) (session : Session) (rule : Rule) (acc : Int × Store)
    (binding : PredBinding) : Option (Int × Store) :=
  runSpecialised env session acc (specialise rule binding)

/-- `run_var_pred_rule`; `none` for an error in a statement. -/
def runVarPredRule (env : Environment) (session : Session) (order : RowOrder) (rule : Rule)
    (st : Store) : Option (Int × Store) :=
  if (collectPredVars rule).isEmpty then some (0, st)
  else Run.exec (runBinding env session rule) (0, st) (computePredVarBindings order st rule)

/-- The store after the call, which an error in a statement undoes. -/
def afterVarPredRule (env : Environment) (session : Session) (order : RowOrder) (rule : Rule)
    (st : Store) : Store :=
  ((runVarPredRule env session order rule st).map Prod.snd).getD st

namespace VarPred

/-- An id that some stored triple mentions. -/
def StoredId (st : Store) (x : TermId) : Prop :=
  ∃ q, st.Visible q ∧ (x = q.s ∨ x = q.p ∨ x = q.o ∨ x = q.g)

/-- The predicate of some stored triple. -/
def StoredPredicate (st : Store) (x : TermId) : Prop := ∃ q, st.Visible q ∧ q.p = x

/-- The valuation takes predicate variables to stored predicates and the others to stored ids,
and satisfies the body in the store; `q` is the head. -/
structure Satisfies (I : Interpretation) (st : Store) (rule : Rule) (ρ : Valuation)
    (chosen : List Quad) (q : Quad) : Prop where
  preds : ∀ v ∈ collectPredVars rule, StoredPredicate st (ρ v)
  ids : ∀ v, v ∉ collectPredVars rule → StoredId st (ρ v)
  inst : I.Instance rule {b | st.Visible b} ρ chosen q
  premises : ∀ b ∈ I.premises rule chosen, st.Visible b

/-- The triple is a head instance. -/
def HeadInstance (I : Interpretation) (st : Store) (rule : Rule) (q : Quad) : Prop :=
  ∃ ρ chosen, Satisfies I st rule ρ chosen q

/-- The call adds exactly the head instances. -/
def InstantiatesCompletely (env : Environment) (session : Session) (order : RowOrder)
    (aggregate : AggregateLiteral → Set Quad → TermId) (rule : Rule) (st : Store) : Prop :=
  ∀ q, (afterVarPredRule env session order rule st).Visible q ↔
    st.Visible q ∨ HeadInstance (env.interpretation aggregate) st rule q

section Effect

variable {env : Environment} {session : Session} {order : RowOrder} {rule : Rule} {st st' : Store}
  {p : TermId} {q : Quad} {acc acc' : Int × Store} {binding : PredBinding}

theorem tidy_insertColumns {rows : List Key} (tidy : st.Tidy)
    (done : insertColumns session p rows st = some st') : st'.Tidy := by
  unfold insertColumns at done
  split at done
  · rename_i dedicated
    cases done
    have used : st.DedicatedAt p := tidy.dedicatedAt dedicated
    have drawn : { st with seq := (st.seq.stamp session rows).2 }.DedicatedAt p :=
      used.of_eq rfl rfl Sequence.lastValue_le_stamp
    have only : Store.OnlyAt p st { st with seq := (st.seq.stamp session rows).2 } :=
      .of_eq p rfl rfl Sequence.lastValue_le_stamp
    apply tidy.of_onlyAt (only.trans Store.onlyAt_setTables) (.inl (drawn.setDelta _))
    rw [Store.setTables_tables_self]
    exact tidy.clean p
  · split at done
    · cases done
      exact tidy
    · cases done

/-- The statement for the binding selects the triple when its turn comes. -/
def Selects (env : Environment) (rule : Rule) (q : Quad) (acc : Int × Store)
    (binding : PredBinding) : Prop :=
  let (compiled, st) := compileSingleRule env acc.2 (specialise rule binding)
  ∃ stmt, compiled = .ok (q.p, stmt) ∧ stmt.Yields (env.context st).toDatabase [] q.key

theorem compileSingleRule_snd (tidy : st.Tidy) :
    (compileSingleRule env st rule).2.Tidy ∧
      ∀ q, (compileSingleRule env st rule).2.Visible q ↔ st.Visible q := by
  unfold compileSingleRule
  cases rule.headPred with
  | none => exact ⟨tidy, fun _ => Iff.rfl⟩
  | some p => exact ⟨tidy.ensureVpTable, fun _ => tidy.visible_ensureVpTable⟩

/-- One round adds what its statement selects. -/
theorem runBinding_spec (tidy : acc.2.Tidy)
    (done : runBinding env session rule acc binding = some acc') :
    acc'.2.Tidy ∧ ∀ q, acc'.2.Visible q ↔ acc.2.Visible q ∨ Selects env rule q acc binding := by
  unfold runBinding runSpecialised at done
  split at done
  · rename_i constraint
    cases done
    refine ⟨tidy, fun q => (or_iff_left ?_).symm⟩
    rintro ⟨stmt, compiled, -⟩
    obtain ⟨head, hh, -⟩ := compileSingleRuleTo_eq_ok.mp compiled
    rw [hh] at constraint
    cases constraint
  · obtain ⟨tidyTables, shown⟩ := @compileSingleRule_snd env (specialise rule binding) acc.2 tidy
    dsimp only at done
    split at done
    · rename_i error compiled
      cases done
      refine ⟨tidyTables, fun q => (shown q).trans (or_iff_left ?_).symm⟩
      rintro ⟨stmt, compiled', -⟩
      cases compiled.symm.trans compiled'
    · rename_i p stmt compiled
      obtain ⟨rows, executed, done⟩ := Option.bind_eq_some_iff.mp done
      obtain ⟨st', inserted, done⟩ := Option.bind_eq_some_iff.mp done
      cases done
      refine ⟨tidy_insertColumns tidyTables inserted, fun q => ?_⟩
      rw [visible_insertColumns inserted, shown, Stmt.mem_exec executed]
      refine or_congr_right ?_
      constructor
      · rintro ⟨rfl, yields⟩
        exact ⟨stmt, compiled, yields⟩
      · rintro ⟨stmt', compiled', yields⟩
        cases compiled.symm.trans compiled'
        exact ⟨rfl, yields⟩

/-- A call adds what some statement selects when its turn comes. -/
theorem visible_exec {bindings : List PredBinding} (tidy : acc.2.Tidy)
    (done : Run.exec (runBinding env session rule) acc bindings = some acc') :
    acc'.2.Visible q ↔ acc.2.Visible q ∨
      Run.Eventually (runBinding env session rule) (Selects env rule q) acc bindings := by
  induction bindings generalizing acc with
  | nil =>
    cases done
    exact (or_iff_left id).symm
  | cons binding bindings ih =>
    obtain ⟨mid, first, rest⟩ := Option.bind_eq_some_iff.mp done
    obtain ⟨tidyMid, added⟩ := runBinding_spec tidy first
    rw [ih tidyMid rest, added, Run.eventually_cons first, or_assoc]

/-- No statement of the call fails. -/
def Ends (env : Environment) (session : Session) (order : RowOrder) (rule : Rule)
    (st : Store) : Prop :=
  (Run.exec (runBinding env session rule) (0, st) (computePredVarBindings order st rule)).isSome

instance (env : Environment) (session : Session) (order : RowOrder) (rule : Rule) (st : Store) :
    Decidable (Ends env session order rule st) := inferInstanceAs (Decidable (_ = true))

/-- The call adds the triple. -/
def Adds (env : Environment) (session : Session) (order : RowOrder) (rule : Rule) (st : Store)
    (q : Quad) : Prop :=
  Ends env session order rule st ∧
    Run.Eventually (runBinding env session rule) (Selects env rule q) (0, st)
      (computePredVarBindings order st rule)

theorem visible_afterVarPredRule (tidy : st.Tidy) (vars : collectPredVars rule ≠ []) :
    (afterVarPredRule env session order rule st).Visible q ↔
      st.Visible q ∨ Adds env session order rule st q := by
  have notEmpty : (collectPredVars rule).isEmpty = false := by simpa using vars
  unfold afterVarPredRule runVarPredRule Adds Ends
  simp only [notEmpty, Bool.false_eq_true, if_false]
  cases executed : Run.exec (runBinding env session rule) (0, st)
      (computePredVarBindings order st rule) with
  | none => simp
  | some acc =>
    have effect := visible_exec (q := q) tidy executed
    simpa using effect

end Effect

section Bindings

variable {I : Interpretation} {order : RowOrder} {rule : Rule} {st : Store} {ρ : Valuation}
  {chosen : List Quad} {q : Quad} {v : String}

/-- Every predicate variable gets its values from an atom: it is one of the two that the first
atom with two of them binds, or there is no such atom and it is the subject or object of an atom
with a known predicate. -/
def Enumerable (rule : Rule) : Prop :=
  match enumeratingAtom rule with
  | some (_, s, o) => ∀ v ∈ collectPredVars rule, v = s ∨ v = o
  | none => ∀ v ∈ collectPredVars rule, ∃ a ∈ rule.positiveAtoms,
      a.pred?.isSome ∧ (a.s = .var v ∨ a.o = .var v)

instance (rule : Rule) : Decidable (Enumerable rule) := by
  unfold Enumerable
  split <;> infer_instance

theorem enumeratingAtom_eq_some {p : TermId} {s o : String}
    (found : enumeratingAtom rule = some (p, s, o)) :
    ∃ a ∈ rule.positiveAtoms, a.pred? = some p ∧ a.s = .var s ∧ a.o = .var o := by
  have named {t : Term} {w : String} {vars : List String} (h : t.predVar? vars = some w) :
      t = .var w := by
    cases t with
    | var w' =>
      simp only [Term.predVar?] at h
      split at h
      · cases h
        rfl
      · cases h
    | _ => cases h
  obtain ⟨a, ha, here⟩ := List.exists_of_findSome?_eq_some found
  refine ⟨a, ha, ?_⟩
  split at here
  · rename_i p' s' o' pred subject object
    cases here
    exact ⟨pred, named subject, named object⟩
  · cases here

theorem append_mem_choices {perVar : List (String × List TermId)} {front binding : PredBinding}
    (values : List.Forall₂ (fun x y => x.1 = y.1 ∧ x.2 ∈ y.2) binding perVar)
    {result : List PredBinding} (mem : front ∈ result) :
    front ++ binding ∈ perVar.foldl (fun result (v, values) =>
      result.flatMap fun chosen => values.map fun x => chosen ++ [(v, x)]) result := by
  induction values generalizing front result with
  | nil => simpa using mem
  | @cons x y binding perVar here _ ih =>
    have next : front ++ [x] ∈ result.flatMap fun chosen =>
        y.2.map fun value => chosen ++ [(y.1, value)] := by
      apply List.mem_flatMap.mpr
      refine ⟨front, mem, List.mem_map.mpr ⟨x.2, here.2, ?_⟩⟩
      rw [← here.1]
    have rest := ih next
    rwa [List.append_assoc] at rest

/-- A choice of a value for each variable is one of the choices. -/
theorem mem_choices {perVar : List (String × List TermId)} {binding : PredBinding}
    (values : List.Forall₂ (fun x y => x.1 = y.1 ∧ x.2 ∈ y.2) binding perVar) :
    binding ∈ choices perVar :=
  append_mem_choices values (List.mem_singleton_self [])

/-- The triple that an instance chooses for an atom is stored. -/
theorem Satisfies.exists_stored (h : Satisfies I st rule ρ chosen q) (positive : rule.AllPositive)
    {a : Atom} (ha : a ∈ rule.positiveAtoms) : ∃ b, a.Matches I.scope ρ b ∧ st.Visible b := by
  obtain ⟨b, hb, isMatch⟩ := Fold.exists_right_of_forall₂ h.inst.atoms ha
  refine ⟨b, isMatch.1, h.premises b ?_⟩
  exact (Interpretation.mem_premises (positive.not_temporal I) h.inst).mpr hb

theorem mem_vpReadExpr_of_matches {a : Atom} {p : TermId} {b : Quad} {scope : GraphScope}
    (isMatch : a.Matches scope ρ b) (stored : st.Visible b) (pred : a.pred? = some p) :
    b.key ∈ vpReadExpr st p := by
  rw [mem_vpReadExpr, ← Interpretation.pred_of_matches isMatch pred, Quad.key_quad]
  exact stored

/-- An atom gives a variable all the values that stored triples allow. -/
theorem mem_atomValues {a : Atom} {b : Quad} {scope : GraphScope} (isMatch : a.Matches scope ρ b)
    (stored : st.Visible b) (pred : a.pred?.isSome) (position : a.s = .var v ∨ a.o = .var v) :
    ρ v ∈ atomValues st v a := by
  obtain ⟨p, hp⟩ := Option.isSome_iff_exists.mp pred
  have row : b.key ∈ vpReadExpr st p := mem_vpReadExpr_of_matches isMatch stored hp
  have subject := isMatch.s
  have object := isMatch.o
  simp only [atomValues, hp]
  by_cases first : a.s = .var v
  · rw [first] at subject
    have value : ρ v = b.key.s := subject
    rw [if_pos first, value]
    split
    · rename_i o constant
      rw [constant] at object
      have same : o = b.key.o := object
      refine List.mem_map_of_mem (List.mem_filter.mpr ⟨row, ?_⟩)
      exact decide_eq_true same.symm
    · exact List.mem_map_of_mem row
  · have second : a.o = .var v := position.resolve_left first
    rw [second] at object
    have value : ρ v = b.key.o := object
    rw [if_neg first, if_pos second, value]
    split
    · rename_i s constant
      rw [constant] at subject
      have same : s = b.key.s := subject
      refine List.mem_map_of_mem (List.mem_filter.mpr ⟨row, ?_⟩)
      exact decide_eq_true same.symm
    · exact List.mem_map_of_mem row

theorem mem_enumeratePredVarValues {x : TermId} :
    x ∈ enumeratePredVarValues order st rule v ↔
      ∃ a ∈ rule.positiveAtoms, x ∈ atomValues st v a := by
  rw [enumeratePredVarValues, (order.perm_values v _).mem_iff, List.mem_dedup, List.mem_flatMap]

/-- Where every predicate variable gets its values from an atom, the values of every instance are
among the bindings. -/
theorem Satisfies.exists_binding (h : Satisfies I st rule ρ chosen q) (positive : rule.AllPositive)
    (enumerable : Enumerable rule) :
    ∃ binding ∈ computePredVarBindings order st rule, binding.Agrees ρ := by
  unfold Enumerable at enumerable
  unfold computePredVarBindings
  cases found : enumeratingAtom rule with
  | some atom =>
    obtain ⟨p, s, o⟩ := atom
    obtain ⟨a, ha, pred, subject, object⟩ := enumeratingAtom_eq_some found
    obtain ⟨b, isMatch, stored⟩ := h.exists_stored positive ha
    have row : b.key ∈ vpReadExpr st p := mem_vpReadExpr_of_matches isMatch stored pred
    have first := isMatch.s
    have second := isMatch.o
    rw [subject] at first
    rw [object] at second
    refine ⟨[(s, b.key.s), (o, b.key.o)], List.mem_map.mpr ⟨(b.key.s, b.key.o), ?_, rfl⟩, ?_⟩
    · rw [(order.perm_pairs _).mem_iff, List.mem_dedup]
      exact List.mem_map_of_mem row
    · intro v x mem
      obtain same | same : (v, x) = (s, b.key.s) ∨ (v, x) = (o, b.key.o) := by simpa using mem
      · cases same
        exact first
      · cases same
        exact second
  | none =>
    rw [found] at enumerable
    have values (v : String) (hv : v ∈ collectPredVars rule) :
        ρ v ∈ enumeratePredVarValues order st rule v := by
      obtain ⟨a, ha, pred, position⟩ := enumerable v hv
      obtain ⟨b, isMatch, stored⟩ := h.exists_stored positive ha
      exact mem_enumeratePredVarValues.mpr ⟨a, ha, mem_atomValues isMatch stored pred position⟩
    have nonempty : ((collectPredVars rule).map fun v =>
        (v, enumeratePredVarValues order st rule v)).any
          (fun values => values.2.isEmpty) = false := by
      simp only [List.any_eq_false, List.mem_map]
      rintro _ ⟨v, hv, rfl⟩
      simpa using List.ne_nil_of_mem (values v hv)
    refine ⟨(collectPredVars rule).map fun v => (v, ρ v), ?_, ?_⟩
    · simp only [nonempty, Bool.false_eq_true, if_false]
      apply mem_choices
      rw [List.forall₂_map_left_iff, List.forall₂_map_right_iff, List.forall₂_same]
      exact fun v hv => ⟨rfl, values v hv⟩
    · intro v x mem
      obtain ⟨w, -, same⟩ := List.mem_map.mp mem
      cases same
      rfl

end Bindings

/-- The specialised rule is compiled as what it says, and no statement of the call derives a
predicate that it reads. -/
structure Settled (env : Environment) (order : RowOrder) (rule : Rule) (st : Store)
    (binding : PredBinding) : Prop where
  positive : rule.AllPositive
  plain : (specialise rule binding).Plain env.settings.ruleGraphScope
  unread : ∀ other ∈ computePredVarBindings order st rule, ∀ p,
    (specialise rule other).headPred = some p → (specialise rule binding).isRecursive p = false

/-- The values of the binding are stored predicates. -/
def StoredValues (st : Store) (binding : PredBinding) : Prop :=
  ∀ v x, (v, x) ∈ binding → StoredPredicate st x

section Settled

variable {env : Environment} {session : Session} {order : RowOrder} {rule : Rule} {st : Store}
  {aggregate : AggregateLiteral → Set Quad → TermId} {I : Interpretation} {binding : PredBinding}
  {ρ : Valuation} {chosen : List Quad} {q : Quad} {acc : Int × Store}

theorem StoredPredicate.storedId {x : TermId} (h : StoredPredicate st x) : StoredId st x := by
  obtain ⟨q, visible, rfl⟩ := h
  exact ⟨q, visible, .inr (.inl rfl)⟩

/-- A specialised rule without predicate variables has values for all of them. -/
theorem mem_binding_of_constPreds (positive : rule.AllPositive)
    (const : (specialise rule binding).ConstPreds) {v : String} (hv : v ∈ collectPredVars rule) :
    v ∈ binding.map Prod.fst := by
  have named {a : Atom} (ha : a.p = .var v) (constant : (a.specialise binding).pred?.isSome) :
      v ∈ binding.map Prod.fst := by
    by_contra free
    rw [Atom.specialise_eq, ha, Term.specialise_var free] at constant
    cases constant
  rw [collectPredVars, List.mem_eraseDups, List.mem_filterMap] at hv
  obtain ⟨a, ha, isVar⟩ := hv
  have predicate : a.p = .var v := by
    cases term : a.p with
    | var w =>
      rw [term] at isVar
      cases isVar
      rfl
    | _ =>
      rw [term] at isVar
      cases isVar
  rw [List.mem_append, Option.mem_toList, List.mem_filterMap] at ha
  obtain head | ⟨l, hl, isAtom⟩ := ha
  · apply named predicate
    have constant := const.1
    rw [Rule.headPred, head_specialise, head] at constant
    exact constant
  · obtain ⟨b, rfl⟩ := positive l hl
    cases isAtom
    apply named predicate
    refine const.2 (.positive (a.specialise binding)) ?_
    apply Rule.mem_positiveAtoms.mp
    rw [positiveAtoms_specialise]
    exact List.mem_map_of_mem (Rule.mem_positiveAtoms.mpr hl)

/-- Ids that are not stored can be replaced in a valuation without losing a match. -/
theorem matches_of_stored {a : Atom} {scope : GraphScope} {ρ' : Valuation} {b : Quad}
    (isMatch : a.Matches scope ρ b) (stored : st.Visible b)
    (same : ∀ v, StoredId st (ρ v) → ρ' v = ρ v) : a.Matches scope ρ' b := by
  have position {t : Term} {x : TermId} (id : StoredId st x) (accepts : t.Accepts ρ x) :
      t.Accepts ρ' x := by
    cases t with
    | var v =>
      have value : ρ v = x := accepts
      exact (same v (value ▸ id)).trans value
    | _ => exact accepts
  have graph {t : Term} {x : TermId} (id : StoredId st x) (accepts : t.AcceptsGraph scope ρ x) :
      t.AcceptsGraph scope ρ' x := by
    cases t with
    | var v =>
      have value : ρ v = x := accepts
      exact (same v (value ▸ id)).trans value
    | _ => exact accepts
  exact ⟨position ⟨b, stored, .inl rfl⟩ isMatch.s, position ⟨b, stored, .inr (.inl rfl)⟩ isMatch.p,
    position ⟨b, stored, .inr (.inr (.inl rfl))⟩ isMatch.o,
    graph ⟨b, stored, .inr (.inr (.inr rfl))⟩ isMatch.g⟩

/-- The variables of the head have stored values. -/
theorem storedId_of_head {scope : GraphScope} {N : Set Quad}
    (plain : (specialise rule binding).Plain scope)
    (values : StoredValues st binding) (inst : I.Instance (specialise rule binding) N ρ chosen q)
    (stored : ∀ b ∈ chosen, st.Visible b) {head : Atom} (hh : rule.head = some head) {v : String}
    (mentions : head.Mentions v) : StoredId st (binding.valuation ρ v) := by
  by_cases bound : v ∈ binding.map Prod.fst
  · exact (values v _ (PredBinding.mem_over bound)).storedId
  · obtain ⟨head', hh', graph, determinesS, determinesO⟩ := plain.head
    have specialised : (specialise rule binding).head = some (head.specialise binding) := by
      rw [head_specialise, hh]
      rfl
    rw [specialised] at hh'
    cases hh'
    have constant := plain.preds.1
    rw [Rule.headPred, specialised] at constant
    rw [Atom.specialise_eq] at graph determinesS determinesO constant
    have keeps : (Term.var v).specialise binding = .var v := Term.specialise_var bound
    -- a determined variable is matched by a stored triple
    have determined (determines : (specialise rule binding).Determines (.var v)) :
        StoredId st (ρ v) := by
      obtain ⟨a, ha, binds⟩ := determines
      obtain ⟨b, hb, isMatch⟩ := Fold.exists_right_of_forall₂ inst.atoms ha
      have visible := stored b hb
      obtain subject | object | graph := binds
      · have accepts := isMatch.1.s
        rw [subject] at accepts
        exact ⟨b, visible, .inl accepts⟩
      · have accepts := isMatch.1.o
        rw [object] at accepts
        exact ⟨b, visible, .inr (.inr (.inl accepts))⟩
      · have accepts := isMatch.1.g
        rw [graph] at accepts
        exact ⟨b, visible, .inr (.inr (.inr accepts))⟩
    rw [PredBinding.valuation_of_not_mem bound]
    obtain subject | predicate | object | isGraph := mentions
    · rw [subject, keeps] at determinesS
      exact determined determinesS
    · rw [predicate, keeps] at constant
      cases constant
    · rw [object, keeps] at determinesO
      exact determined determinesO
    · rw [isGraph, keeps] at graph
      cases graph

/-- An instance of a plain specialised rule over stored triples is a head instance. -/
theorem headInstance_of_specialised {scope : GraphScope} {N : Set Quad}
    (vars : collectPredVars rule ≠ []) (positive : rule.AllPositive)
    (plain : (specialise rule binding).Plain scope) (values : StoredValues st binding)
    (inst : I.Instance (specialise rule binding) N ρ chosen q)
    (stored : ∀ b ∈ chosen, st.Visible b) :
    HeadInstance I st rule q := by
  have bound (v : String) (hv : v ∈ collectPredVars rule) :
      StoredPredicate st (binding.valuation ρ v) :=
    values v _ (PredBinding.mem_over (mem_binding_of_constPreds positive plain.preds hv))
  obtain ⟨some_, hsome⟩ := List.exists_mem_of_ne_nil _ vars
  classical
  -- variables that occur nowhere get some stored id
  let ρ' : Valuation := fun v =>
    if StoredId st (binding.valuation ρ v) then binding.valuation ρ v else binding.valuation ρ some_
  have same (v : String) (id : StoredId st (binding.valuation ρ v)) :
      ρ' v = binding.valuation ρ v := if_pos id
  have whole : I.Instance rule N (binding.valuation ρ) chosen q :=
      (instance_specialise_iff positive).mp inst
  obtain ⟨⟨head, hh, concludes⟩, atoms⟩ := positive.instance_iff.mp whole
  have term {t : Term} (mentioned : ∀ v, t = .var v → head.Mentions v) :
      t.value ρ' = t.value (binding.valuation ρ) := by
    cases t with
    | var v =>
      have id := storedId_of_head plain values inst stored hh (mentioned v rfl)
      exact congrArg some (same v id)
    | _ => rfl
  have concludes' : head.Concludes ρ' q := by
    refine ⟨(term fun v h => .inl h).trans concludes.s, (term fun v h => .inr (.inl h)).trans
      concludes.p, (term fun v h => .inr (.inr (.inl h))).trans concludes.o, ?_⟩
    rw [term fun v h => .inr (.inr (.inr h))]
    exact concludes.g
  have atoms' : List.Forall₂ (fun a b => a.Matches I.scope ρ' b) rule.positiveAtoms chosen := by
    rw [List.forall₂_iff_get] at atoms ⊢
    refine ⟨atoms.1, fun j hj hj' => ?_⟩
    exact matches_of_stored (atoms.2 j hj hj') (stored _ (List.get_mem ..)) same
  have inst' : I.Instance rule {b | st.Visible b} ρ' chosen q :=
    positive.instance_iff.mpr ⟨⟨head, hh, concludes'⟩, atoms'⟩
  refine ⟨ρ', chosen, ?_, ?_, inst', ?_⟩
  · intro v hv
    rw [same v (bound v hv).storedId]
    exact bound v hv
  · intro v _
    by_cases id : StoredId st (binding.valuation ρ v)
    · rw [same v id]
      exact id
    · have value : ρ' v = binding.valuation ρ some_ := if_neg id
      rw [value]
      exact (bound some_ hsome).storedId
  · intro b hb
    exact stored b ((Interpretation.mem_premises (positive.not_temporal I) inst').mp hb)

end Settled

/-- A statement whose binding is not settled, or takes a predicate variable to something that is
not a stored predicate, adds the triple. -/
def AddsUnsettled (env : Environment) (session : Session) (order : RowOrder) (rule : Rule)
    (st : Store) (q : Quad) : Prop :=
  Ends env session order rule st ∧
    Run.Eventually (runBinding env session rule)
      (fun acc binding => Selects env rule q acc binding ∧
      ¬ (Settled env order rule st binding ∧ StoredValues st binding)) (0, st)
      (computePredVarBindings order st rule)

/-- The values of the valuation are found, and what is compiled for them is settled. -/
structure Handled (env : Environment) (session : Session) (order : RowOrder) (rule : Rule)
    (st : Store) (ρ : Valuation) : Prop where
  ends : Ends env session order rule st
  positive : rule.AllPositive
  enumerable : Enumerable rule
  settled : ∀ binding ∈ computePredVarBindings order st rule, binding.Agrees ρ →
    Settled env order rule st binding

/-- What is not settled is right by chance. -/
structure BindingsSuffice (env : Environment) (session : Session) (order : RowOrder)
    (aggregate : AggregateLiteral → Set Quad → TermId) (rule : Rule) (st : Store) : Prop where
  /-- What unsettled statements add is stored or a head instance. -/
  sound : ∀ q, AddsUnsettled env session order rule st q →
    st.Visible q ∨ HeadInstance (env.interpretation aggregate) st rule q
  /-- The heads of the other instances are stored or added by some statement. -/
  complete : ∀ ρ chosen q, Satisfies (env.interpretation aggregate) st rule ρ chosen q →
    ¬ Handled env session order rule st ρ → st.Visible q ∨ Adds env session order rule st q

section Exact

variable {env : Environment} {session : Session} {order : RowOrder} {rule : Rule} {st : Store}
  {aggregate : AggregateLiteral → Set Quad → TermId} {binding : PredBinding} {ρ : Valuation}
  {chosen : List Quad} {q : Quad} {acc acc' : Int × Store}

theorem headPred_of_selects (selects : Selects env rule q acc binding) :
    (specialise rule binding).headPred = some q.p := by
  obtain ⟨stmt, compiled, -⟩ := selects
  obtain ⟨head, hh, hp, -⟩ := compileSingleRuleTo_eq_ok.mp compiled
  simp [Rule.headPred, hh, Atom.pred?, hp]

/-- What the statements so far have done: only triples with the head predicates have come. -/
structure Progress (order : RowOrder) (rule : Rule) (st : Store) (acc : Int × Store) : Prop where
  tidy : acc.2.Tidy
  kept : ∀ q, st.Visible q → acc.2.Visible q
  added : ∀ q, acc.2.Visible q → st.Visible q ∨
    ∃ other ∈ computePredVarBindings order st rule,
      (specialise rule other).headPred = some q.p

theorem Progress.runBinding (h : Progress order rule st acc)
    (mem : binding ∈ computePredVarBindings order st rule)
    (done : runBinding env session rule acc binding = some acc') : Progress order rule st acc' := by
  obtain ⟨tidy, effect⟩ := runBinding_spec h.tidy done
  refine ⟨tidy, fun q visible => (effect q).mpr (.inl (h.kept q visible)), ?_⟩
  intro q visible
  obtain before | selects := (effect q).mp visible
  · exact h.added q before
  · exact .inr ⟨binding, mem, headPred_of_selects selects⟩

theorem progress_start (tidy : st.Tidy) : Progress order rule st (0, st) :=
  ⟨tidy, fun _ visible => visible, fun _ => .inl⟩

/-- A settled statement reads only what was stored before the call. -/
theorem Settled.visible (settled : Settled env order rule st binding)
    (progress : Progress order rule st acc) {a : Atom} {b : Quad} {scope : GraphScope}
    (ha : a ∈ (specialise rule binding).positiveAtoms) (isMatch : a.Matches scope ρ b)
    (visible : acc.2.Visible b) : st.Visible b := by
  obtain before | ⟨other, mem, derives⟩ := progress.added b visible
  · exact before
  · have reads : (specialise rule binding).isRecursive b.p = true := by
      have const := settled.plain.preds.2 _ (Rule.mem_positiveAtoms.mp ha)
      obtain ⟨p, hp⟩ := Option.isSome_iff_exists.mp const
      apply List.any_eq_true.mpr
      refine ⟨a, ha, decide_eq_true ?_⟩
      rw [eq_const_of_pred hp, Interpretation.pred_of_matches isMatch hp]
    rw [settled.unread other mem b.p derives] at reads
    cases reads

/-- What a settled statement selects is a head instance. -/
theorem Settled.headInstance (settled : Settled env order rule st binding)
    (values : StoredValues st binding) (vars : collectPredVars rule ≠ [])
    (progress : Progress order rule st acc)
    (mem : binding ∈ computePredVarBindings order st rule)
    (selects : Selects env rule q acc binding) :
    HeadInstance (env.interpretation aggregate) st rule q := by
  have derives := headPred_of_selects selects
  obtain ⟨stmt, compiled, yields⟩ := selects
  obtain ⟨-, shown⟩ := @compileSingleRule_snd env (specialise rule binding) acc.2 progress.tidy
  obtain ⟨ρ, chosen, inst, facts⟩ := instance_of_seed (I := env.interpretation aggregate)
    settled.plain rfl compiled (settled.unread binding mem q.p derives) yields
  rw [Quad.key_quad] at inst
  refine headInstance_of_specialised vars settled.positive settled.plain values inst ?_
  intro b hb
  obtain ⟨a, ha, isMatch⟩ := Fold.exists_right_of_forall₂ inst.atoms.flip hb
  apply settled.visible progress ha isMatch.1
  exact (shown b).mp (mem_facts_context.mp (facts b hb))

/-- The head of an instance is selected by the statement for its values, if that is settled. -/
theorem Settled.selects (settled : Settled env order rule st binding)
    (satisfies : Satisfies (env.interpretation aggregate) st rule ρ chosen q)
    (agrees : binding.Agrees ρ) (mem : binding ∈ computePredVarBindings order st rule)
    (progress : Progress order rule st acc) : Selects env rule q acc binding := by
  obtain ⟨-, shown⟩ := @compileSingleRule_snd env (specialise rule binding) acc.2 progress.tidy
  have inst : (env.interpretation aggregate).Instance (specialise rule binding)
      {b | st.Visible b} ρ chosen q := by
    apply (instance_specialise_iff settled.positive).mpr
    rw [agrees.valuation_eq]
    exact satisfies.inst
  have nonrecursive (p : TermId) (derives : (specialise rule binding).headPred = some p) :
      (specialise rule binding).isRecursive p = false := settled.unread binding mem p derives
  have stored (b : Quad) (hb : b ∈ chosen) :
      b.key ∈ (env.context (compileSingleRule env acc.2 (specialise rule binding)).2).stored
        b.p := by
    have premise := (Interpretation.mem_premises
      (settled.positive.not_temporal (env.interpretation aggregate)) satisfies.inst).mpr hb
    have visible := progress.kept b (satisfies.premises b premise)
    exact mem_facts_context.mpr ((shown b).mpr visible)
  obtain ⟨stmt, isSeed, yields⟩ := produces_seed (List.mem_singleton_self _)
    settled.plain.toConjunctive nonrecursive rfl inst stored (by
      rintro ⟨a, ha⟩
      obtain ⟨b, same⟩ := allPositive_specialise.mpr settled.positive _ ha
      cases same)
  obtain ⟨r, hr, compiled⟩ := mem_seedStmts.mp isSeed
  cases List.mem_singleton.mp hr
  exact ⟨stmt, compiled, yields⟩

theorem Handled.adds (h : Handled env session order rule st ρ) (tidy : st.Tidy)
    (satisfies : Satisfies (env.interpretation aggregate) st rule ρ chosen q) :
    Adds env session order rule st q := by
  obtain ⟨binding, mem, agrees⟩ : ∃ binding ∈ computePredVarBindings order st rule,
      binding.Agrees ρ := satisfies.exists_binding h.positive h.enumerable
  refine ⟨h.ends, ?_⟩
  obtain ⟨acc, executed⟩ := Option.isSome_iff_exists.mp h.ends
  have start : Progress order rule st (0, st) := progress_start tidy
  refine Run.eventually_of_mem ?_ start executed mem ?_
  · exact fun _ _ mem _ progress _ done => progress.runBinding mem done
  · exact fun _ progress => (h.settled binding mem agrees).selects satisfies agrees mem progress

/-- A specialised rule constrains a column wherever the rule does. -/
theorem anchored_specialise {a : Atom} {scope : GraphScope} (anchored : a.Anchored scope) :
    (a.specialise binding).Anchored scope := by
  have kept {u : Term} (named : (∃ v, u = .var v) ∨ ∃ id, u = .const id) :
      (∃ v, u.specialise binding = .var v) ∨ ∃ id, u.specialise binding = .const id := by
    induction binding generalizing u with
    | nil => exact named
    | cons first binding ih =>
      refine ih (u := u.substitute first.1 first.2) ?_
      obtain ⟨v, rfl⟩ | ⟨id, rfl⟩ := named
      · by_cases same : v = first.1
        · exact .inr ⟨first.2, if_pos same⟩
        · exact .inl ⟨v, if_neg same⟩
      · exact .inr ⟨id, rfl⟩
  have position (named : ((∃ v, a.s = .var v) ∨ ∃ id, a.s = .const id) ∨
      ((∃ v, a.o = .var v) ∨ ∃ id, a.o = .const id) ∨
        (∃ v, a.g = .var v) ∨ ∃ id, a.g = .const id) : (a.specialise binding).Anchored scope := by
    rw [Atom.specialise_eq]
    obtain subject | object | graph := named
    · obtain ⟨v, hv⟩ | ⟨id, hid⟩ := kept subject
      · exact .inl ⟨v, .inl hv⟩
      · exact .inr (.inl ⟨id, .inl hid⟩)
    · obtain ⟨v, hv⟩ | ⟨id, hid⟩ := kept object
      · exact .inl ⟨v, .inr (.inl hv)⟩
      · exact .inr (.inl ⟨id, .inr (.inl hid)⟩)
    · obtain ⟨v, hv⟩ | ⟨id, hid⟩ := kept graph
      · exact .inl ⟨v, .inr (.inr hv)⟩
      · exact .inr (.inl ⟨id, .inr (.inr hid)⟩)
  obtain ⟨v, binds⟩ | ⟨id, const⟩ | isDefault := anchored
  · obtain subject | object | graph := binds
    · exact position (.inl (.inl ⟨v, subject⟩))
    · exact position (.inr (.inl (.inl ⟨v, object⟩)))
    · exact position (.inr (.inr (.inl ⟨v, graph⟩)))
  · obtain subject | object | graph := const
    · exact position (.inl (.inr ⟨id, subject⟩))
    · exact position (.inr (.inl (.inr ⟨id, object⟩)))
    · exact position (.inr (.inr (.inr ⟨id, graph⟩)))
  · exact .inr (.inr isDefault)

/-- What can be said of the rule and the store before the call: every computed binding is
settled and has stored predicates as values, and every instance has a binding. -/
structure Ordinary (env : Environment) (order : RowOrder) (rule : Rule) (st : Store) : Prop where
  positive : rule.AllPositive
  anchored : ∀ a ∈ rule.positiveAtoms, a.Anchored env.settings.ruleGraphScope
  enumerable : Enumerable rule
  settled : ∀ binding ∈ computePredVarBindings order st rule,
    Settled env order rule st binding ∧ StoredValues st binding

namespace Ordinary

variable (ordinary : Ordinary env order rule st)
include ordinary

theorem positiveAtoms_ne_nil (vars : collectPredVars rule ≠ []) : rule.positiveAtoms ≠ [] := by
  obtain ⟨v, hv⟩ := List.exists_mem_of_ne_nil _ vars
  have enumerable := ordinary.enumerable
  unfold Enumerable at enumerable
  cases found : enumeratingAtom rule with
  | some atom =>
    obtain ⟨a, ha, -⟩ := enumeratingAtom_eq_some (p := atom.1) (s := atom.2.1) (o := atom.2.2) found
    exact List.ne_nil_of_mem ha
  | none =>
    rw [found] at enumerable
    obtain ⟨a, ha, -⟩ := enumerable v hv
    exact List.ne_nil_of_mem ha

/-- The statement for a binding succeeds. -/
theorem exists_runBinding (vars : collectPredVars rule ≠ []) (tidy : acc.2.Tidy)
    (mem : binding ∈ computePredVarBindings order st rule) :
    ∃ acc', Datalog.runBinding env session rule acc binding = some acc' := by
  obtain ⟨⟨positive, plain, unread⟩, -⟩ := ordinary.settled binding mem
  unfold Datalog.runBinding runSpecialised
  split
  · exact ⟨acc, rfl⟩
  · dsimp only
    split
    · exact ⟨_, rfl⟩
    · rename_i p stmt compiled
      have atoms : (specialise rule binding).AllPositive := allPositive_specialise.mpr positive
      have specialised := @positiveAtoms_specialise rule binding
      have accepted : stmt.accepted = true := by
        refine accepted_seed atoms plain.preds ?_ ?_ ?_ compiled
        · rw [specialised]
          exact fun none => ordinary.positiveAtoms_ne_nil vars (List.map_eq_nil_iff.mp none)
        · intro a ha
          rw [specialised] at ha
          obtain ⟨b, hb, rfl⟩ := List.mem_map.mp ha
          exact anchored_specialise (ordinary.anchored b hb)
        · intro head hh
          obtain ⟨head', hh', graph, -⟩ := plain.head
          cases hh.symm.trans hh'
          exact graph
      obtain ⟨rows, executed⟩ : ∃ rows, stmt.exec (env.context
          (compileSingleRule env acc.2 (specialise rule binding)).2).toDatabase [] = some rows :=
        Option.isSome_iff_exists.mp
          ((isSome_exec_iff [] (total_seed atoms plain.preds compiled)).mpr accepted)
      have dedicated : (compileSingleRule env acc.2 (specialise rule binding)).2.isDedicated p =
          true := by
        obtain ⟨head, hh, pred, -⟩ := compileSingleRuleTo_eq_ok.mp compiled
        have derives : (specialise rule binding).headPred = some p := by
          simp [Rule.headPred, hh, Atom.pred?, pred]
        simp only [compileSingleRule, derives]
        exact (Store.dedicatedAt_ensureVpTable (tidy.predicate p)).dedicated
      rw [executed]
      simp [insertColumns, dedicated]

theorem ends (vars : collectPredVars rule ≠ []) (tidy : st.Tidy) :
    Ends env session order rule st := by
  have possible (acc : Int × Store) (binding : PredBinding)
      (mem : binding ∈ computePredVarBindings order st rule) (tidy : acc.2.Tidy) :
      ∃ acc', Datalog.runBinding env session rule acc binding = some acc' ∧ acc'.2.Tidy := by
    obtain ⟨acc', done⟩ := ordinary.exists_runBinding vars tidy mem
    exact ⟨acc', done, (runBinding_spec tidy done).1⟩
  exact Run.isSome_exec possible tidy

theorem bindingsSuffice (vars : collectPredVars rule ≠ []) (tidy : st.Tidy) :
    BindingsSuffice env session order aggregate rule st where
  sound := by
    intro q ⟨_, unsettled⟩
    obtain ⟨_, binding, mem, -, -, not⟩ := Run.exists_of_eventually (fun _ _ _ _ _ _ => trivial)
      (trivial : Function.const (Int × Store) True (0, st)) unsettled
    exact absurd (ordinary.settled binding mem) not
  complete := by
    intro ρ chosen q _ unhandled
    exact absurd ⟨ordinary.ends vars tidy, ordinary.positive, ordinary.enumerable,
      fun binding mem _ => (ordinary.settled binding mem).1⟩ unhandled

end Ordinary

end Exact

/-- Rows come as they are stored. -/
def storedOrder : RowOrder where
  values _ xs := xs
  pairs xs := xs
  perm_values _ xs := .refl xs
  perm_pairs xs := .refl xs

/-- `?x <21> ?y :- ?x ?p ?y, ?p <31> <32> .` -/
def markedRule : Rule where
  head := some ⟨.var "x", .const 21, .var "y", .defaultGraph⟩
  body := [.positive ⟨.var "x", .var "p", .var "y", .defaultGraph⟩,
    .positive ⟨.var "p", .const 31, .const 32, .defaultGraph⟩]
  ruleText := "?x <21> ?y :- ?x ?p ?y, ?p <31> <32> ."

theorem plain_markedRule (scope : GraphScope) :
    (specialise markedRule [("p", 11)]).Plain scope where
  toConjunctive := by
    have positive : (specialise markedRule [("p", 11)]).Positive := by
      refine ⟨⟨_, 21, rfl, rfl, rfl⟩, ?_⟩
      intro l hl
      obtain rfl | rfl : l = _ ∨ l = _ := by
        simpa [specialise, markedRule, substitutePredVar] using hl
      · exact ⟨_, 11, rfl, rfl, rfl⟩
      · exact ⟨_, 31, rfl, rfl, rfl⟩
    refine positive.conjunctive ⟨_, rfl, ?_, ?_⟩ scope
    · exact ⟨⟨.var "x", .const 11, .var "y", .defaultGraph⟩, List.mem_cons_self, .inl rfl⟩
    · exact ⟨⟨.var "x", .const 11, .var "y", .defaultGraph⟩, List.mem_cons_self, .inr (.inl rfl)⟩
  linear := by
    intro a ha
    have atoms : (specialise markedRule [("p", 11)]).positiveAtoms =
        [⟨.var "x", .const 11, .var "y", .defaultGraph⟩,
          ⟨.const 11, .const 31, .const 32, .defaultGraph⟩] := rfl
    rw [atoms, List.mem_pair] at ha
    obtain rfl | rfl := ha
    · exact ⟨by simp, by simp, by simp⟩
    · exact ⟨by simp, by simp, by simp⟩

/-- `?y <21> ?x :- ?x ?p ?y .` -/
def invertRule : Rule where
  head := some ⟨.var "y", .const 21, .var "x", .defaultGraph⟩
  body := [.positive ⟨.var "x", .var "p", .var "y", .defaultGraph⟩]
  ruleText := "?y <21> ?x :- ?x ?p ?y ."

end VarPred

end PgRipple.Datalog
