import PgRipple.Sparql.Quoted

/-!
# Quoted triples that are joined

The rows of a basic graph pattern with quoted triples are the assignments that turn every
pattern into a triple of the data, where a quoted triple stands for its row in the
dictionary. This is so if every place inside of quotes is the first of its variable or
blank node. Where an open quoted triple has another inside, there are no rows.
-/

namespace PgRipple.Sparql

open Storage

section Terms

variable {env : Env} {db : Db} {j : Joined} {μ : Slot → TermId} {t : TermPattern} {n : Alias}
  {c : Col} {e : ColExpr} {id : TermId} {r : QuotedRow} {qt : QuotedRow → TermId}

/-- The places among some steps have the values of an assignment, and the checks hold. -/
def StepsHold (db : Db) (j : Joined) (μ : Slot → TermId) (steps : List BindStep) : Prop :=
  (∀ c, BindStep.check c ∈ steps → c db j = true) ∧
    ∀ x ∈ mentioned steps, x.2 db j = some (μ x.1.slot)

theorem stepsHold_append {steps steps' : List BindStep} :
    StepsHold db j μ (steps ++ steps') ↔ StepsHold db j μ steps ∧ StepsHold db j μ steps' := by
  rw [StepsHold, StepsHold, StepsHold, mentioned_append, List.forall_mem_append]
  simp only [List.mem_append, or_imp, forall_and]
  exact and_and_and_comm

theorem stepsHold_check {cond : Cond} : StepsHold db j μ [.check cond] ↔ cond db j = true := by
  simp [StepsHold, mentioned]

theorem stepsHold_mention {m : Mention} :
    StepsHold db j μ [.mention m e] ↔ e db j = some (μ m.slot) := by
  simp [StepsHold, mentioned]

theorem stepsHold_componentSteps {slot? : Option Slot} :
    StepsHold db j μ (componentSteps qt e slot?) ↔
      ∀ y, slot? = some y → quotedColumn qt e db j = some (μ y) := by
  cases slot? with
  | none => simp [componentSteps, StepsHold, mentioned]
  | some y =>
    rw [componentSteps, Option.toList_some, List.map_singleton, stepsHold_mention]
    simp

theorem quotedColumn_eq (right : QuotedRight env db) (hr : r ∈ db.quoted)
    (value : e db j = some r.id) : quotedColumn qt e db j = some (qt r) := by
  have found : db.quoted.find? (fun r => e db j = some r.id) = some r := by
    cases first : db.quoted.find? (fun r => e db j = some r.id) with
    | none =>
      have absent := List.find?_eq_none.mp first r hr
      simp [value] at absent
    | some r' =>
      have same : e db j = some r'.id := by simpa using List.find?_some first
      rw [value] at same
      rw [right.unique r' (List.mem_of_find?_eq_some first) r hr (Option.some.inj same).symm]
  rw [quotedColumn, found]
  rfl

/-- A component that is no quoted triple is compared with its meaning. -/
theorem accepts_iff (plain : t.isTriple = false) :
    ((processQtComponent env t).accepts id = true ∧ ∀ y, t.slot? = some y → id = μ y) ↔
      t.Denotes env db μ id := by
  rw [denotes_of_not_isTriple plain]
  cases t with
  | var v =>
    simp only [processQtComponent, QtComponent.accepts, TermPattern.slot?, TermPattern.denote,
      Option.some.injEq, forall_eq', true_and]
    exact eq_comm
  | blankNode label =>
    simp only [processQtComponent, QtComponent.accepts, TermPattern.slot?, TermPattern.denote,
      Option.some.injEq, forall_eq', true_and]
    exact eq_comm
  | namedNode iri =>
    simp only [processQtComponent, TermPattern.slot?, TermPattern.denote, groundTermId]
    cases env.lookupIri iri with
    | none => simp [QtComponent.accepts]
    | some known => simp [QtComponent.accepts, eq_comm]
  | literal lit =>
    simp [processQtComponent, QtComponent.accepts, TermPattern.slot?, TermPattern.denote,
      groundTermId, eq_comm]
  | triple s p o => cases plain

theorem accepts_predicate_iff {p : NamedNodePattern} :
    ((processQtPredicate env p).accepts id = true ∧ ∀ y, p.slot? = some y → id = μ y) ↔
      p.denote env μ = some id := by
  cases p with
  | var v =>
    simp only [processQtPredicate, QtComponent.accepts, NamedNodePattern.slot?,
      NamedNodePattern.denote, Option.some.injEq, forall_eq', true_and]
    exact eq_comm
  | namedNode iri =>
    simp only [processQtPredicate, NamedNodePattern.slot?, NamedNodePattern.denote]
    cases env.lookupIri iri with
    | none => simp [QtComponent.accepts]
    | some known => simp [QtComponent.accepts, eq_comm]

/-- A quoted triple inside of quotes is never accepted. -/
theorem isTriple_of_accepts (accepted : (processQtComponent env t).accepts id = true) :
    t.isTriple = false := by
  cases t with
  | triple s p o => cases accepted
  | _ => rfl

theorem inQuoted_iff {qs qp qo : QtComponent} :
    Cond.inQuoted e qs qp qo db j = true ↔ ∃ r ∈ db.quoted, e db j = some r.id ∧
      qs.accepts r.qtS = true ∧ qp.accepts r.qtP = true ∧ qo.accepts r.qtO = true := by
  rw [Cond.inQuoted, List.any_eq_true]
  simp only [Bool.and_eq_true, decide_eq_true_eq, and_assoc]

/-- The steps of a term say that the column has its value. -/
theorem stepsHold_termSteps (right : QuotedRight env db) (flat : t.Flat) :
    StepsHold db j μ (termSteps env n c t) ↔
      ∃ id, j.col n c = some id ∧ t.Denotes env db μ id := by
  cases t with
  | var v =>
    rw [termSteps, stepsHold_mention]
    constructor
    · intro value
      exact ⟨_, value, rfl⟩
    · rintro ⟨id, value, same⟩
      exact value.trans same.symm
  | blankNode label =>
    rw [termSteps, stepsHold_mention]
    constructor
    · intro value
      exact ⟨_, value, rfl⟩
    · rintro ⟨id, value, same⟩
      exact value.trans same.symm
  | namedNode iri =>
    have meaning (id : TermId) : (TermPattern.namedNode iri).Denotes env db μ id ↔
        env.lookupIri iri = some id := Iff.rfl
    rw [termSteps, stepsHold_check]
    simp only [meaning]
    cases env.lookupIri iri with
    | none => simp
    | some known => simp [Cond.eqId_iff, column]
  | literal lit =>
    have meaning (id : TermId) : (TermPattern.literal lit).Denotes env db μ id ↔
        some (env.literalId lit) = some id := Iff.rfl
    rw [termSteps, stepsHold_check]
    simp [meaning, Cond.eqId_iff, column]
  | triple s p o =>
    rw [termSteps]
    cases known : groundTermId env (.triple s p o) with
    | some id =>
      have ground := isOpen_of_groundTermId known
      simp only [denotes_of_not_isOpen right ground, known, stepsHold_check, Cond.eqId_iff, column]
      constructor
      · intro value
        exact ⟨id, value, rfl⟩
      · rintro ⟨_, value, same⟩
        cases same
        exact value
    | none =>
      dsimp only
      rw [← List.singleton_append, stepsHold_append, stepsHold_check, stepsHold_append,
        stepsHold_append, stepsHold_componentSteps, stepsHold_componentSteps,
        stepsHold_componentSteps, inQuoted_iff]
      constructor
      · rintro ⟨⟨r, hr, value, hs, hp, ho⟩, ⟨slotS, slotP⟩, slotO⟩
        have same {qt : QuotedRow → TermId} {y : Slot}
            (slot : quotedColumn qt (column n c) db j = some (μ y)) : qt r = μ y := by
          rw [quotedColumn_eq right hr value] at slot
          exact Option.some.inj slot
        refine ⟨r.id, value, r, hr, rfl, ?_, ?_, ?_⟩
        · exact (accepts_iff (isTriple_of_accepts hs)).mp ⟨hs, fun y hy => same (slotS y hy)⟩
        · exact accepts_predicate_iff.mp ⟨hp, fun y hy => same (slotP y hy)⟩
        · exact (accepts_iff (isTriple_of_accepts ho)).mp ⟨ho, fun y hy => same (slotO y hy)⟩
      · rintro ⟨id, value, denotes⟩
        -- without a row of its own the term has variables or blank nodes
        have isOpen : (TermPattern.triple s p o).isOpen = true := by
          by_contra ground
          rw [denotes_of_not_isOpen right (by simpa using ground), known] at denotes
          cases denotes
        obtain ⟨plainS, plainO⟩ := flat s p o rfl isOpen
        obtain ⟨r, hr, rfl, hs, hp, ho⟩ := denotes
        obtain ⟨acceptS, slotS⟩ := (accepts_iff plainS).mpr hs
        obtain ⟨acceptP, slotP⟩ := accepts_predicate_iff.mpr hp
        obtain ⟨acceptO, slotO⟩ := (accepts_iff plainO).mpr ho
        refine ⟨⟨r, hr, value, acceptS, acceptP, acceptO⟩, ⟨?_, ?_⟩, ?_⟩
        · intro y hy
          rw [quotedColumn_eq right hr value, slotS y hy]
        · intro y hy
          rw [quotedColumn_eq right hr value, slotP y hy]
        · intro y hy
          rw [quotedColumn_eq right hr value, slotO y hy]

/-- Where the checks hold, the places of a term have values. -/
theorem isSome_mentioned (right : QuotedRight env db) (value : (j.col n c).isSome = true)
    (checks : ∀ cond, BindStep.check cond ∈ termSteps env n c t → cond db j = true)
    {x : Mention × ColExpr} (hx : x ∈ mentioned (termSteps env n c t)) :
    (x.2 db j).isSome = true := by
  cases t with
  | var v =>
    cases List.mem_singleton.mp hx
    exact value
  | blankNode label =>
    cases List.mem_singleton.mp hx
    exact value
  | namedNode iri => cases hx
  | literal lit => cases hx
  | triple s p o =>
    rw [termSteps] at hx checks
    cases known : groundTermId env (.triple s p o) with
    | some id =>
      rw [known] at hx
      cases hx
    | none =>
      rw [known] at hx checks
      obtain ⟨r, hr, same, -⟩ := inQuoted_iff.mp (checks _ List.mem_cons_self)
      have component {qt : QuotedRow → TermId} {slot? : Option Slot}
          (hx : x ∈ mentioned (componentSteps qt (column n c) slot?)) :
          (x.2 db j).isSome = true := by
        cases slot? with
        | none => cases hx
        | some y =>
          cases List.mem_singleton.mp hx
          show (quotedColumn qt (column n c) db j).isSome = true
          rw [quotedColumn_eq right hr same]
          rfl
      rw [← List.singleton_append, mentioned_append, mentioned_append, mentioned_append] at hx
      obtain hx | hx := List.mem_append.mp hx
      · cases hx
      · obtain hx | hx := List.mem_append.mp hx
        · obtain hx | hx := List.mem_append.mp hx
          · exact component hx
          · exact component hx
        · exact component hx

/-- A quoted triple inside of an open one is a check that fails. -/
theorem flat_of_checks
    (checks : ∀ cond, BindStep.check cond ∈ termSteps env n c t → cond db j = true) : t.Flat := by
  rintro s p o rfl isOpen
  rw [termSteps] at checks
  cases known : groundTermId env (.triple s p o) with
  | some id =>
    rw [isOpen_of_groundTermId known] at isOpen
    cases isOpen
  | none =>
    rw [known] at checks
    obtain ⟨r, -, -, hs, -, ho⟩ := inQuoted_iff.mp (checks _ List.mem_cons_self)
    exact ⟨isTriple_of_accepts hs, isTriple_of_accepts ho⟩

end Terms

def TermPattern.mentions : TermPattern → List Mention
  | .triple s p o =>
    (s.slot?.toList ++ p.slot?.toList ++ o.slot?.toList).map fun y => ⟨true, y⟩
  | t => t.slot?.toList.map fun y => ⟨false, y⟩

/-- The places of variables and blank nodes, in the order in which they are bound. -/
def TriplePattern.mentions (tp : TriplePattern) : List Mention :=
  tp.predicate.slot?.toList.map (fun y => ⟨false, y⟩) ++ tp.subject.mentions ++ tp.object.mentions

/-- The variables and blank nodes at any depth. -/
def TermPattern.allSlots : TermPattern → List Slot
  | .triple s p o => s.allSlots ++ p.slot?.toList ++ o.allSlots
  | t => t.slot?.toList

def TriplePattern.allSlots (tp : TriplePattern) : List Slot :=
  tp.subject.allSlots ++ tp.predicate.slot?.toList ++ tp.object.allSlots

section Mentions

variable {env : Env} {t : TermPattern} {n : Alias} {c : Col} {tp : TriplePattern} {y : Slot}

theorem mentioned_componentSteps {qt : QuotedRow → TermId} {e : ColExpr} {slot? : Option Slot} :
    (mentioned (componentSteps qt e slot?)).map Prod.fst =
      slot?.toList.map fun y => (⟨true, y⟩ : Mention) := by
  cases slot? <;> rfl

theorem slot?_of_not_isOpen (ground : t.isOpen = false) : t.slot? = none := by
  cases t with
  | var v => cases ground
  | blankNode label => cases ground
  | _ => rfl

theorem mentioned_termSteps :
    (mentioned (termSteps env n c t)).map Prod.fst = t.mentions := by
  cases t with
  | triple s p o =>
    rw [termSteps, TermPattern.mentions]
    cases known : groundTermId env (.triple s p o) with
    | some id =>
      have ground := isOpen_of_groundTermId known
      rw [TermPattern.isOpen, Bool.or_eq_false_iff, Bool.or_eq_false_iff] at ground
      obtain ⟨⟨groundS, groundP⟩, groundO⟩ := ground
      rw [slot?_of_not_isOpen groundS, slot?_of_not_isOpen groundO,
        Option.isNone_iff_eq_none.mp (Option.isSome_eq_false_iff.mp groundP)]
      rfl
    | none =>
      rw [← List.singleton_append, mentioned_append, mentioned_append, mentioned_append,
        List.map_append, List.map_append, List.map_append, mentioned_componentSteps,
        mentioned_componentSteps, mentioned_componentSteps, List.map_append, List.map_append]
      rfl
  | _ => rfl

theorem mentioned_patternSteps :
    (mentioned (patternSteps env (n, tp))).map Prod.fst = tp.mentions := by
  rw [patternSteps, mentioned_append, mentioned_append, List.map_append, List.map_append,
    mentioned_termSteps, mentioned_termSteps, TriplePattern.mentions]
  cases tp.predicate with
  | var v => rfl
  | namedNode iri => rfl

theorem mentioned_flatMap (placed : List (Alias × TriplePattern)) :
    (mentioned (placed.flatMap (patternSteps env))).map Prod.fst =
      (placed.map Prod.snd).flatMap TriplePattern.mentions := by
  induction placed with
  | nil => rfl
  | cons x placed ih =>
    rw [List.flatMap_cons, mentioned_append, List.map_append, ih, List.map_cons, List.flatMap_cons]
    exact congrArg (· ++ _) mentioned_patternSteps

theorem isOpen_of_mem_allSlots (hy : y ∈ t.allSlots) : t.isOpen = true := by
  induction t with
  | var v => rfl
  | blankNode label => rfl
  | namedNode iri => cases hy
  | literal lit => cases hy
  | triple s p o ihs iho =>
    rw [TermPattern.allSlots, List.mem_append, List.mem_append] at hy
    rw [TermPattern.isOpen, Bool.or_eq_true, Bool.or_eq_true]
    obtain (hs | hp) | ho := hy
    · exact Or.inl (Or.inl (ihs hs))
    · refine Or.inl (Or.inr ?_)
      rw [Option.mem_toList.mp hp]
      rfl
    · exact Or.inr (iho ho)

theorem allSlots_of_not_isTriple (plain : t.isTriple = false) : t.allSlots = t.slot?.toList := by
  cases t with
  | triple s p o => cases plain
  | _ => rfl

/-- In a flat term all variables and blank nodes have places. -/
theorem exists_mention (flat : t.Flat) (hy : y ∈ t.allSlots) : ∃ m ∈ t.mentions, m.slot = y := by
  cases t with
  | triple s p o =>
    obtain ⟨plainS, plainO⟩ := flat s p o rfl (isOpen_of_mem_allSlots hy)
    rw [TermPattern.allSlots, allSlots_of_not_isTriple plainS,
      allSlots_of_not_isTriple plainO] at hy
    exact ⟨⟨true, y⟩, List.mem_map_of_mem hy, rfl⟩
  | _ => exact ⟨⟨false, y⟩, List.mem_map_of_mem hy, rfl⟩

theorem exists_mention_pattern (flat : tp.Flat) (hy : y ∈ tp.allSlots) :
    ∃ m ∈ tp.mentions, m.slot = y := by
  rw [TriplePattern.allSlots, List.mem_append, List.mem_append] at hy
  rw [TriplePattern.mentions]
  obtain (hs | hp) | ho := hy
  · obtain ⟨m, hm, slot⟩ := exists_mention flat.1 hs
    exact ⟨m, List.mem_append_left _ (List.mem_append_right _ hm), slot⟩
  · exact ⟨⟨false, y⟩,
      List.mem_append_left _ (List.mem_append_left _ (List.mem_map_of_mem hp)), rfl⟩
  · obtain ⟨m, hm, slot⟩ := exists_mention flat.2 ho
    exact ⟨m, List.mem_append_right _ hm, slot⟩

end Mentions

/-- A row of the source of a pattern has the values of its terms. -/
structure RowMatches (env : Env) (db : Db) (μ : Slot → TermId) (tp : TriplePattern) (r : SqlRow) :
    Prop where
  subject : ∃ id, r.get .s = some id ∧ tp.subject.Denotes env db μ id
  object : ∃ id, r.get .o = some id ∧ tp.object.Denotes env db μ id
  predicate : ∀ v, tp.predicate = .var v → r.get .p = some (μ (.var v))

/-- A joined row has the values of the terms of all patterns. -/
def Matches (env : Env) (db : Db) (μ : Slot → TermId) (placed : List (Alias × TriplePattern))
    (j : Joined) : Prop :=
  ∀ x ∈ placed, ∃ r, j.lookup x.1 = some r ∧ RowMatches env db μ x.2 r

/-- The assignment turns every pattern into a triple of the data. -/
def QuotedSolution (env : Env) (db : Db) (graphFilter : Option TermId)
    (patterns : List TriplePattern) (μ : Slot → TermId) : Prop :=
  ∀ tp ∈ patterns, ∃ s p o, tp.subject.Denotes env db μ s ∧ tp.predicate.denote env μ = some p ∧
    tp.object.Denotes env db μ o ∧ HasTriple env db.store graphFilter s p o

/-- The joined row is one of the assignment, and the variables have its values. -/
structure RowFor (env : Env) (db : Db) (placed : List (Alias × TriplePattern)) (frag : Fragment)
    (μ : Slot → TermId) (j : Joined) : Prop where
  row : j ∈ frag.joined db
  terms : Matches env db μ placed j
  values : ∀ v, Slot.var v ∈ (placed.map Prod.snd).flatMap TriplePattern.allSlots →
    frag.value db j v = some (μ (.var v))

/-- Every row is one of a solution, and every solution has a row. -/
structure ReturnsQuoted (env : Env) (db : Db) (graphFilter : Option TermId)
    (placed : List (Alias × TriplePattern)) (frag : Fragment) : Prop where
  sound : ∀ j ∈ frag.joined db, ∃ μ,
    QuotedSolution env db graphFilter (placed.map Prod.snd) μ ∧ RowFor env db placed frag μ j
  complete : ∀ μ, QuotedSolution env db graphFilter (placed.map Prod.snd) μ →
    ∃ j, RowFor env db placed frag μ j

section Rows

variable {env : Env} {db : Db} {graphFilter : Option TermId} {j : Joined} {μ : Slot → TermId}
  {tp : TriplePattern} {n : Alias} {r : SqlRow} {placed : List (Alias × TriplePattern)}
  {frag : Fragment}

theorem stepsHold_flatMap :
    StepsHold db j μ (placed.flatMap (patternSteps env)) ↔
      ∀ x ∈ placed, StepsHold db j μ (patternSteps env x) := by
  induction placed with
  | nil => simp [StepsHold, mentioned]
  | cons x placed ih => rw [List.flatMap_cons, stepsHold_append, ih, List.forall_mem_cons]

theorem stepsHold_patternSteps (right : QuotedRight env db) (flat : tp.Flat)
    (here : j.lookup n = some r) :
    StepsHold db j μ (patternSteps env (n, tp)) ↔ RowMatches env db μ tp r := by
  have col (c : Col) : j.col n c = r.get c := by rw [Joined.col, here, Option.bind_some]
  have predicate : StepsHold db j μ
      (tp.predicate.slot?.toList.map fun y => .mention ⟨false, y⟩ (column n .p)) ↔
        ∀ v, tp.predicate = .var v → r.get .p = some (μ (.var v)) := by
    cases tp.predicate with
    | namedNode iri => simp [NamedNodePattern.slot?, StepsHold, mentioned]
    | var v =>
      rw [NamedNodePattern.slot?, Option.toList_some, List.map_singleton, stepsHold_mention]
      simp [column, col]
  rw [patternSteps, stepsHold_append, stepsHold_append, predicate,
    stepsHold_termSteps right flat.1, stepsHold_termSteps right flat.2, col, col]
  constructor
  · rintro ⟨⟨hp, hs⟩, ho⟩
    exact ⟨hs, ho, hp⟩
  · rintro ⟨hs, ho, hp⟩
    exact ⟨⟨hp, hs⟩, ho⟩

/-- The conditions of a fragment contain the checks of each term. -/
theorem checks_of_conditions
    (collects : Binds.Collects env (placed.flatMap (patternSteps env))
      ⟨frag.bindings, frag.conditions⟩)
    (holds : ∀ c ∈ frag.conditions, c db j = true) {x : Alias × TriplePattern} (hx : x ∈ placed) :
    (∀ cond, BindStep.check cond ∈ termSteps env x.1 .s x.2.subject → cond db j = true) ∧
      ∀ cond, BindStep.check cond ∈ termSteps env x.1 .o x.2.object → cond db j = true := by
  have all := collects.checks db j holds
  refine ⟨fun cond mem => all cond ?_, fun cond mem => all cond ?_⟩
  · exact List.mem_flatMap.mpr ⟨x, hx, List.mem_append_left _ (List.mem_append_right _ mem)⟩
  · exact List.mem_flatMap.mpr ⟨x, hx, List.mem_append_right _ mem⟩

/-- A pattern that is not flat has no rows. -/
theorem joined_eq_nil_of_not_flat
    (collects : Binds.Collects env (placed.flatMap (patternSteps env))
      ⟨frag.bindings, frag.conditions⟩)
    (deep : ¬ ∀ tp ∈ placed.map Prod.snd, tp.Flat) : frag.joined db = [] := by
  rw [List.eq_nil_iff_forall_not_mem]
  intro j row
  refine deep fun tp htp => ?_
  obtain ⟨x, hx, rfl⟩ := List.mem_map.mp htp
  have holds : ∀ c ∈ frag.conditions, c db j = true :=
    List.all_eq_true.mp (List.mem_filter.mp row).2
  obtain ⟨subject, object⟩ := checks_of_conditions collects holds hx
  exact ⟨flat_of_checks subject, flat_of_checks object⟩

section Placed

variable (items : frag.fromItems = placed.map fun x => (x.1, patternSource env graphFilter x.2))
  (collects : Binds.Collects env (placed.flatMap (patternSteps env))
    ⟨frag.bindings, frag.conditions⟩)
  (distinct : (placed.map Prod.fst).Nodup) (catalog : CatalogRight env db.store)
  (quoted : QuotedRight env db)
  (union : ∀ x ∈ placed, ∀ v, x.2.predicate = .var v → env.unionPredicates ≠ none)
  (flat : ∀ x ∈ placed, x.2.Flat)
  (fine : AllFine (Mention.name env) ((placed.map Prod.snd).flatMap TriplePattern.mentions))

include items collects distinct catalog quoted union in
/-- The places of a joined row have values. -/
theorem isSome_of_mem_joined (row : j ∈ frag.joined db) :
    ∀ x ∈ mentioned (placed.flatMap (patternSteps env)), (x.2 db j).isSome = true := by
  obtain ⟨rowOf, holds⟩ := (mem_joined_iff items).mp row
  intro m hm
  obtain ⟨step, hstep, found⟩ := List.mem_filterMap.mp hm
  obtain ⟨x, hx, hstep⟩ := List.mem_flatMap.mp hstep
  obtain ⟨subject, object⟩ := checks_of_conditions collects holds hx
  obtain ⟨r, hr, here⟩ := rowOf.lookup distinct hx
  obtain ⟨hs, ho, hp⟩ := isSome_patternSource catalog (union x hx) hr
  have col (c : Col) : j.col x.1 c = r.get c := by rw [Joined.col, here, Option.bind_some]
  obtain hstep | hstep := List.mem_append.mp hstep
  · obtain hstep | hstep := List.mem_append.mp hstep
    · obtain ⟨y, hy, rfl⟩ := List.mem_map.mp hstep
      cases found
      cases pred : x.2.predicate with
      | namedNode iri =>
        rw [pred] at hy
        cases hy
      | var v =>
        show (j.col x.1 .p).isSome = true
        rw [col]
        exact hp v pred
    · refine isSome_mentioned quoted ?_ subject (List.mem_filterMap.mpr ⟨step, hstep, found⟩)
      rw [col]
      exact hs
  · refine isSome_mentioned quoted ?_ object (List.mem_filterMap.mpr ⟨step, hstep, found⟩)
    rw [col]
    exact ho

include collects flat fine in
/-- Where all steps hold, the variables have their values. -/
theorem values_of_stepsHold (holds : StepsHold db j μ (placed.flatMap (patternSteps env)))
    {v : String}
    (occurs : Slot.var v ∈ (placed.map Prod.snd).flatMap TriplePattern.allSlots) :
    frag.value db j v = some (μ (.var v)) := by
  obtain ⟨tp, htp, hy⟩ := List.mem_flatMap.mp occurs
  obtain ⟨x, hx, rfl⟩ := List.mem_map.mp htp
  obtain ⟨m, hm, slot⟩ := exists_mention_pattern (flat x hx) hy
  have placedHere : m ∈ (mentioned (placed.flatMap (patternSteps env))).map Prod.fst := by
    rw [mentioned_flatMap]
    exact List.mem_flatMap.mpr ⟨x.2, htp, hm⟩
  obtain ⟨y, hy, rfl⟩ := List.mem_map.mp placedHere
  have lookup : frag.bindings.lookup v =
      (binder env (mentioned (placed.flatMap (patternSteps env))) v).map Prod.snd :=
    collects.lookup v
  rw [Fragment.value, lookup, Option.bind_map]
  exact value_of_binder ((@mentioned_flatMap env placed).symm ▸ fine) holds.2 hy slot

include items collects distinct catalog quoted union flat fine in
/-- The rows are those of the solutions. -/
theorem returnsQuoted : ReturnsQuoted env db graphFilter placed frag := by
  have fine' : AllFine (Mention.name env)
      ((mentioned (placed.flatMap (patternSteps env))).map Prod.fst) := by
    rw [mentioned_flatMap]
    exact fine
  constructor
  · intro j row
    obtain ⟨rowOf, holds⟩ := (mem_joined_iff items).mp row
    have known := isSome_of_mem_joined items collects distinct catalog quoted union row
    obtain ⟨checks, agreeing⟩ := (collects.conditions db j known).mp holds
    obtain ⟨μ, values⟩ := exists_assignment fine' known agreeing
    have steps : StepsHold db j μ (placed.flatMap (patternSteps env)) := ⟨checks, values⟩
    have rows : ∀ x ∈ placed, ∃ r ∈ (patternSource env graphFilter x.2).rows db,
        j.lookup x.1 = some r ∧ RowMatches env db μ x.2 r := by
      intro x hx
      obtain ⟨r, hr, here⟩ := rowOf.lookup distinct hx
      exact ⟨r, hr, here,
        (stepsHold_patternSteps quoted (flat x hx) here).mp (stepsHold_flatMap.mp steps x hx)⟩
    refine ⟨μ, ?_, row, ?_, fun v occurs => values_of_stepsHold collects flat fine steps occurs⟩
    · intro tp htp
      obtain ⟨x, hx, rfl⟩ := List.mem_map.mp htp
      obtain ⟨r, hr, -, fit⟩ := rows x hx
      obtain ⟨s, p, o, hs, ho, known, triple⟩ :=
        hasTriple_of_mem_patternSource catalog (union x hx) hr fit.predicate
      obtain ⟨s', hs', subject⟩ := fit.subject
      obtain ⟨o', ho', object⟩ := fit.object
      cases hs.symm.trans hs'
      cases ho.symm.trans ho'
      exact ⟨s, p, o, subject, known, object, triple⟩
    · intro x hx
      obtain ⟨r, -, here, fit⟩ := rows x hx
      exact ⟨r, here, fit⟩
  · intro μ solution
    have rows : ∀ x ∈ placed, ∃ r ∈ (patternSource env graphFilter x.2).rows db,
        RowMatches env db μ x.2 r := by
      intro x hx
      obtain ⟨s, p, o, subject, predicate, object, triple⟩ :=
        solution x.2 (List.mem_map_of_mem hx)
      obtain ⟨r, hr, hs, ho, hp⟩ :=
        exists_mem_patternSource catalog (union x hx) predicate triple
      exact ⟨r, hr, ⟨s, hs, subject⟩, ⟨o, ho, object⟩, hp⟩
    obtain ⟨j, rowOf, fits⟩ := exists_rowOf distinct rows
    have steps : StepsHold db j μ (placed.flatMap (patternSteps env)) := by
      refine stepsHold_flatMap.mpr fun x hx => ?_
      obtain ⟨r, here, fit⟩ := fits x hx
      exact (stepsHold_patternSteps quoted (flat x hx) here).mpr fit
    have known : ∀ x ∈ mentioned (placed.flatMap (patternSteps env)), (x.2 db j).isSome = true := by
      intro x hx
      rw [steps.2 x hx]
      rfl
    have holds := (collects.conditions db j known).mpr
      ⟨steps.1, agreeing_of_values fine' steps.2⟩
    exact ⟨j, (mem_joined_iff items).mpr ⟨rowOf, holds⟩, fits,
      fun v occurs => values_of_stepsHold collects flat fine steps occurs⟩

end Placed

end Rows

theorem mem_of_mem_firsts {seen tps : List TriplePattern} {tp : TriplePattern}
    (h : tp ∈ firsts seen tps) : tp ∈ tps := by
  induction tps generalizing seen with
  | nil => cases h
  | cons tp' tps ih =>
    rw [firsts] at h
    split at h
    · exact List.mem_cons_of_mem _ (ih h)
    · obtain rfl | later := List.mem_cons.mp h
      · exact List.mem_cons_self
      · exact List.mem_cons_of_mem _ (ih later)

/-- All places, in the order of the patterns. -/
def mentionsOf (order : List TriplePattern) : List Mention :=
  (firsts [] order).flatMap TriplePattern.mentions

/-- For all data and all estimates that lead to this order, the rows are those of the
solutions. -/
def QuotedCorrect (naming : Env) (order : List TriplePattern) : Prop :=
  ∀ (env : Env) (db : Db) (κ : Type) [LT κ] [DecidableLT κ] (bgpReorder : Bool)
    (estimate : PatternCost κ) (graphFilter : Option TermId) (n : Nat)
    (patterns : List TriplePattern), reorderBgp env bgpReorder estimate patterns = order →
    env.SameNames naming → CatalogRight env db.store → QuotedRight env db →
    (AsksAllPredicates order → env.unionPredicates ≠ none) →
    ∃ frag n', translateBgp env bgpReorder estimate graphFilter n patterns = some (frag, n') ∧
      ReturnsQuoted env db graphFilter (numbered n (firsts [] order)) frag

/-- For all data and all estimates that lead to this order, there are no rows. -/
def MatchesNothing (order : List TriplePattern) : Prop :=
  ∀ (env : Env) (db : Db) (κ : Type) [LT κ] [DecidableLT κ] (bgpReorder : Bool)
    (estimate : PatternCost κ) (graphFilter : Option TermId) (n n' : Nat)
    (patterns : List TriplePattern) (frag : Fragment),
    reorderBgp env bgpReorder estimate patterns = order →
    translateBgp env bgpReorder estimate graphFilter n patterns = some (frag, n') →
    frag.joined db = []

theorem name_congr {env naming : Env} (same : env.SameNames naming) :
    Mention.name env = Mention.name naming := by
  funext m
  obtain ⟨quoted, y⟩ := m
  cases quoted with
  | false => exact same.name y
  | true =>
    cases y with
    | var v => rfl
    | blank label =>
      simp only [Mention.name, Env.sanitizeSqlIdent]
      rw [same.2]

/-- The fragment of a translation, from its steps. -/
theorem collects_translateBgp {env : Env} {graphFilter : Option TermId} {κ : Type} [LT κ]
    [DecidableLT κ] {bgpReorder : Bool} {estimate : PatternCost κ} {n n' : Nat}
    {patterns : List TriplePattern} {frag : Fragment}
    (done : translateBgp env bgpReorder estimate graphFilter n patterns = some (frag, n')) :
    let placed := numbered n (firsts [] (reorderBgp env bgpReorder estimate patterns))
    frag.fromItems = placed.map (fun x => (x.1, patternSource env graphFilter x.2)) ∧
      Binds.Collects env (placed.flatMap (patternSteps env)) ⟨frag.bindings, frag.conditions⟩ := by
  obtain ⟨items, binds⟩ := translateTriples_eq done
  refine ⟨items, ?_⟩
  rw [binds]
  exact collects_foldl _

/-- Flat patterns are joined right if every place inside of quotes comes first; others match
nothing. -/
theorem translateBgp_quoted (naming : Env) (order : List TriplePattern) :
    ((∀ tp ∈ firsts [] order, tp.Flat) → AllFine (Mention.name naming) (mentionsOf order) →
        QuotedCorrect naming order) ∧
      ((¬ ∀ tp ∈ firsts [] order, tp.Flat) → MatchesNothing order) := by
  constructor
  · intro flat fine env db κ _ _ bgpReorder estimate graphFilter n patterns ordered same catalog
      quoted union
    subst ordered
    obtain ⟨frag, n', done⟩ := exists_translateTriples
      (reorderBgp env bgpReorder estimate patterns) [] n Fragment.empty union
    obtain ⟨items, collects⟩ := collects_translateBgp done
    refine ⟨frag, n', done, ?_⟩
    have placedOnes : ∀ x ∈ numbered n (firsts [] (reorderBgp env bgpReorder estimate patterns)),
        x.2 ∈ firsts [] (reorderBgp env bgpReorder estimate patterns) := by
      intro x hx
      rw [← map_snd_numbered (n := n) (firsts [] _)]
      exact List.mem_map_of_mem hx
    refine returnsQuoted items collects (nodup_numbered _) catalog quoted ?_ ?_ ?_
    · intro x hx v pred
      exact union ⟨x.2, mem_of_mem_firsts (placedOnes x hx), v, pred⟩
    · exact fun x hx => flat x.2 (placedOnes x hx)
    · rw [map_snd_numbered, name_congr same]
      exact fine
  · intro deep env db κ _ _ bgpReorder estimate graphFilter n n' patterns frag ordered done
    subst ordered
    obtain ⟨-, collects⟩ := collects_translateBgp done
    refine joined_eq_nil_of_not_flat collects ?_
    rw [map_snd_numbered]
    exact deep

/-- `<< ?x <q> <a> >> <p> ?y . ?x <p> ?y`. -/
def quotedFirst : List TriplePattern :=
  [⟨.triple (.var "x") (.namedNode "q") (.namedNode "a"), .namedNode "p", .var "y"⟩,
    ⟨.var "x", .namedNode "p", .var "y"⟩]

theorem translateBgp_quotedFirst : QuotedCorrect firstQuery quotedFirst := by
  refine (translateBgp_quoted firstQuery quotedFirst).1 ?_ ?_
  · intro tp htp
    obtain rfl | htp := List.mem_cons.mp (mem_of_mem_firsts htp)
    · refine ⟨?_, ?_⟩
      · rintro s p o same -
        cases same
        exact ⟨rfl, rfl⟩
      · rintro s p o same
        cases same
    · cases List.mem_singleton.mp htp
      refine ⟨?_, ?_⟩
      · rintro s p o same
        cases same
      · rintro s p o same
        cases same
  · have places : mentionsOf quotedFirst = [] ++ [⟨true, .var "x"⟩] ++ [⟨false, .var "y"⟩] ++
        [⟨false, .var "x"⟩] ++ [⟨false, .var "y"⟩] := by decide
    rw [places, allFine_concat, allFine_concat, allFine_concat, allFine_concat]
    refine ⟨⟨⟨⟨allFine_nil, ?_⟩, ?_⟩, ?_⟩, ?_⟩ <;> simp [Mention.Fine, Mention.name, Slot.name]

/-- Two quoted triples, one of them in a third. -/
def quotedRows : List QuotedRow := [⟨20, 12, 11, 12⟩, ⟨21, 20, 11, 1⟩, ⟨22, 5, 11, 12⟩]

def quotedTriples : List Quad := [⟨1, 10, 2, 0⟩, ⟨21, 10, 2, 0⟩, ⟨22, 10, 2, 0⟩]

def quotedStore : Store where
  predicates := ⟨[⟨10, false, 3, false, 0⟩], by decide⟩
  tables := fun _ => HtapTables.fresh
  rare := ⟨quotedTriples.map fun q => ⟨q, 1, 0⟩, by decide⟩
  seq := Sequence.initial

def quotedDb : Db := ⟨quotedStore, quotedRows⟩

def quotedEnv : Env where
  lookupIri iri :=
    if iri = "p" then some 10
    else if iri = "q" then some 11
    else if iri = "a" then some 12
    else none
  literalId _ := 0
  lookupQuotedTriple s p o :=
    (quotedRows.find? fun r => r.qtS = s ∧ r.qtP = p ∧ r.qtO = o).map QuotedRow.id
  vpSource := catalogSource quotedStore
  unionPredicates := some quotedStore.dedicatedPredicates
  serviceGraphs := []
  bnScopePrefix := "0"
  isAlphanumeric := Char.isAlphanum

theorem catalogRight_quotedEnv : CatalogRight quotedEnv quotedStore where
  source _ := rfl
  union _ h := (Option.some.inj h).symm
  rare q hq := by
    have listed : ∀ q ∈ quotedTriples, quotedStore.tableOid q.p = some false := by decide
    refine listed q ?_
    simpa [UniqueTable.HasKey, quotedStore] using hq

theorem quotedRight_quotedEnv : QuotedRight quotedEnv quotedDb where
  unique := by
    show ∀ r ∈ quotedRows, ∀ r' ∈ quotedRows, r.id = r'.id → r = r'
    decide
  lookup s p o id := by
    show (quotedRows.find? fun r => r.qtS = s ∧ r.qtP = p ∧ r.qtO = o).map QuotedRow.id = some id ↔
      (⟨id, s, p, o⟩ : QuotedRow) ∈ quotedRows
    rw [Option.map_eq_some_iff]
    constructor
    · rintro ⟨r, found, rfl⟩
      have parts : r.qtS = s ∧ r.qtP = p ∧ r.qtO = o := by simpa using List.find?_some found
      obtain ⟨rfl, rfl, rfl⟩ := parts
      exact List.mem_of_find?_eq_some found
    · intro mem
      simp only [quotedRows, List.mem_cons, List.not_mem_nil, or_false, QuotedRow.mk.injEq] at mem
      obtain ⟨rfl, rfl, rfl, rfl⟩ | ⟨rfl, rfl, rfl, rfl⟩ | ⟨rfl, rfl, rfl, rfl⟩ := mem <;>
        exact ⟨_, rfl, rfl⟩

/-- `<< << <a> <q> <a> >> <q> ?x >> <p> ?y`. -/
def quotedInside : List TriplePattern :=
  [⟨.triple (.triple (.namedNode "a") (.namedNode "q") (.namedNode "a")) (.namedNode "q")
    (.var "x"), .namedNode "p", .var "y"⟩]

/-- `?x <p> ?y . << ?x <q> <a> >> <p> ?y`. -/
def quotedLast : List TriplePattern :=
  [⟨.var "x", .namedNode "p", .var "y"⟩,
    ⟨.triple (.var "x") (.namedNode "q") (.namedNode "a"), .namedNode "p", .var "y"⟩]

/-- The solution `?x = 1`, `?y = 2` has no row in the first pattern. In the second, the
variable `?x` is the node 1 outside of quotes and the node 5 inside. -/
theorem not_quotedCorrect :
    ¬ QuotedCorrect firstQuery quotedInside ∧ ¬ QuotedCorrect firstQuery quotedLast := by
  constructor
  · intro correct
    obtain ⟨frag, n', done, returns⟩ := correct quotedEnv quotedDb Nat false (fun _ _ _ => 0) none 0
      quotedInside rfl ⟨rfl, rfl⟩ catalogRight_quotedEnv quotedRight_quotedEnv
      fun _ => Option.some_ne_none _
    obtain ⟨j, rowFor⟩ := returns.complete (fun y => if y = .var "x" then 1 else 2) (by
      intro tp htp
      cases List.mem_singleton.mp htp
      refine ⟨21, 10, 2, ?_, rfl, rfl, 0, rfl, ?_⟩
      · refine ⟨⟨21, 20, 11, 1⟩, by decide, rfl, ?_, rfl, rfl⟩
        exact ⟨⟨20, 12, 11, 12⟩, by decide, rfl, rfl, rfl, rfl⟩
      · exact Or.inr (by decide))
    obtain ⟨-, collects⟩ := collects_translateBgp done
    have nothing : frag.joined quotedDb = [] := by
      refine joined_eq_nil_of_not_flat collects fun flat => ?_
      have inside := (flat _ List.mem_cons_self).1 _ _ _ rfl rfl
      cases inside.1
    have row := rowFor.row
    rw [nothing] at row
    cases row
  · intro correct
    obtain ⟨frag, n', done, returns⟩ := correct quotedEnv quotedDb Nat false (fun _ _ _ => 0) none 0
      quotedLast rfl ⟨rfl, rfl⟩ catalogRight_quotedEnv quotedRight_quotedEnv
      fun _ => Option.some_ne_none _
    have row : [(.counted 0, tripleRow ⟨1, 2, 0⟩), (.counted 1, tripleRow ⟨22, 2, 0⟩)] ∈
        ((translateBgp quotedEnv false (fun _ _ _ => (0 : Nat)) none 0 quotedLast).elim []
          fun found => found.1.joined quotedDb) := by decide
    rw [done] at row
    obtain ⟨μ, -, rowFor⟩ := returns.sound _ row
    obtain ⟨r, here, outside⟩ := rowFor.terms _ List.mem_cons_self
    obtain ⟨r', there, inside⟩ := rowFor.terms _ (List.mem_cons_of_mem _ List.mem_cons_self)
    cases here
    cases there
    obtain ⟨x, column, outside⟩ := outside.subject
    obtain ⟨q, column', r, hr, same, inside, -, -⟩ := inside.subject
    cases column
    cases column'
    have here : μ (.var "x") = 1 := Option.some.inj outside
    have there : μ (.var "x") = r.qtS := Option.some.inj inside
    have known : ∀ r ∈ quotedRows, r.id = 22 → r.qtS = 5 := by decide
    rw [known r hr same, here] at there
    cases there

end PgRipple.Sparql
