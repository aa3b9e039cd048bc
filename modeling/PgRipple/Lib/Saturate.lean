import Mathlib.Data.Set.Card

/-!
# Saturation by rounds that report what they find

A round changes a state and reports the facts that it found. `saturate` runs rounds until
one of them reports nothing, and gives up if none of a bounded number did.

Such a loop stops for what its rounds report, which need not be new. If a round adds what it
reports and a round without a report changes nothing, `saturate_eq_some_iff` says where the
loop stops, and `ncard_new_eq_length_iff` when the number of reports is the number of facts
that were not there before.
-/

namespace Saturate

variable {σ α : Type*}

/-- The reports of the first `n` rounds and the state after them. -/
def rounds (round : σ → List α × σ) : Nat → σ → List α × σ
  | 0, s => ([], s)
  | n + 1, s =>
    let later := rounds round n (round s).2
    ((round s).1 ++ later.1, later.2)

/-- Run rounds until one reports nothing; `none` if each of the first `left` did. -/
def saturate (round : σ → List α × σ) : Nat → σ → Option (List α × σ)
  | 0, _ => none
  | left + 1, s =>
    if (round s).1 = [] then some ([], (round s).2)
    else (saturate round left (round s).2).map fun later => ((round s).1 ++ later.1, later.2)

/-- What is reported is reported once, was not there before, and is needed. -/
structure Fresh (before needed : Set α) (reported : List α) : Prop where
  nodup : reported.Nodup
  missing : ∀ a ∈ reported, a ∉ before
  within : ∀ a ∈ reported, a ∈ needed

theorem Fresh.nil {before needed : Set α} : Fresh before needed [] :=
  ⟨List.nodup_nil, nofun, nofun⟩

theorem Fresh.append {before needed : Set α} {first later : List α} (h : Fresh before needed first)
    (h' : Fresh (before ∪ {a | a ∈ first}) needed later) :
    Fresh before needed (first ++ later) where
  nodup := h.nodup.append h'.nodup fun a old new => h'.missing a new (.inr old)
  missing a ha := (List.mem_append.mp ha).elim (h.missing a)
    fun new old => h'.missing a new (.inl old)
  within a ha := (List.mem_append.mp ha).elim (h.within a) (h'.within a)

/-- A round without a report changes nothing, and one with a report adds it to the facts. -/
structure Adds (round : σ → List α × σ) (inv : σ → Prop) (facts : σ → Set α) : Prop where
  keeps : ∀ s, inv s → inv (round s).2
  facts_round : ∀ s, inv s → facts (round s).2 = facts s ∪ {a | a ∈ (round s).1}
  quiet : ∀ s, (round s).1 = [] → (round s).2 = s

namespace Adds

variable {round : σ → List α × σ} {inv : σ → Prop} {facts : σ → Set α} {s : σ}

theorem rounds_inv (h : Adds round inv facts) (n : Nat) (start : inv s) :
    inv (rounds round n s).2 := by
  induction n generalizing s with
  | zero => exact start
  | succ n ih => exact ih (h.keeps s start)

/-- The facts after some rounds are the facts before them and the reports. -/
theorem facts_rounds (h : Adds round inv facts) (n : Nat) (start : inv s) :
    facts (rounds round n s).2 = facts s ∪ {a | a ∈ (rounds round n s).1} := by
  induction n generalizing s with
  | zero => simp [rounds]
  | succ n ih =>
    have later := ih (h.keeps s start)
    rw [h.facts_round s start, Set.union_assoc] at later
    rw [rounds, later]
    congr 1
    ext a
    simp

/-- If every round reports needed facts that are missing, and none twice, so do all together. -/
theorem fresh_rounds (h : Adds round inv facts) {needed : Set α}
    (fresh : ∀ s, inv s → facts s ⊆ needed → Fresh (facts s) needed (round s).1) (n : Nat)
    (start : inv s) (within : facts s ⊆ needed) : Fresh (facts s) needed (rounds round n s).1 := by
  induction n generalizing s with
  | zero => exact .nil
  | succ n ih =>
    have first := fresh s start within
    have later := ih (h.keeps s start)
    rw [h.facts_round s start] at later
    exact first.append (later (Set.union_subset within first.within))

/-- Nothing happens after a round without a report. -/
theorem rounds_of_quiet (h : Adds round inv facts) (quiet : (round s).1 = []) (n : Nat) :
    rounds round n s = ([], s) := by
  induction n with
  | zero => rfl
  | succ n ih => rw [rounds, h.quiet s quiet, quiet, ih, List.nil_append]

/-- The loop ends with the rounds before the first one that reports nothing. -/
theorem saturate_eq_some_iff (h : Adds round inv facts) {max : Nat} {r : List α × σ} :
    saturate round max s = some r ↔
      ∃ i < max, (round (rounds round i s).2).1 = [] ∧ rounds round i s = r := by
  induction max generalizing s r with
  | zero => simp [saturate]
  | succ left ih =>
    by_cases quiet : (round s).1 = []
    · have stay := h.rounds_of_quiet quiet
      rw [saturate, if_pos quiet, h.quiet s quiet, Option.some_inj]
      constructor
      · intro same
        exact ⟨0, Nat.succ_pos left, quiet, same⟩
      · rintro ⟨i, -, -, same⟩
        rw [← same, stay i]
    · rw [saturate, if_neg quiet, Option.map_eq_some_iff]
      constructor
      · rintro ⟨later, found, same⟩
        obtain ⟨i, lt, quiet', same'⟩ := ih.mp found
        refine ⟨i + 1, Nat.succ_lt_succ lt, quiet', ?_⟩
        rw [rounds, same', same]
      · rintro ⟨i, lt, quiet', same⟩
        cases i with
        | zero => exact absurd quiet' quiet
        | succ i =>
          exact ⟨_, ih.mpr ⟨i, Nat.lt_of_succ_lt_succ lt, quiet', rfl⟩, same⟩

/-- If a report in one state means a report in every state with more facts, the loop ends
only if there is no report at the start. -/
theorem quiet_of_quiet_rounds (h : Adds round inv facts)
    (mono : ∀ s s', inv s → inv s' → facts s ⊆ facts s' → (round s').1 = [] → (round s).1 = [])
    (start : inv s) {i : Nat} (quiet : (round (rounds round i s).2).1 = []) :
    (round s).1 = [] := by
  apply mono s (rounds round i s).2 start (h.rounds_inv i start) ?_ quiet
  rw [h.facts_rounds i start]
  exact Set.subset_union_left

end Adds

/-- Added facts are as many as were reported if none was there before and none is reported
twice. -/
theorem ncard_new_eq_length_iff {before : Set α} {reported : List α} :
    (((before ∪ {a | a ∈ reported}) \ before).ncard = reported.length) ↔
      reported.Nodup ∧ ∀ a ∈ reported, a ∉ before := by
  classical
  have new : (before ∪ {a | a ∈ reported}) \ before =
      ((reported.filter (· ∉ before)).toFinset : Set α) := by
    ext a
    simp only [Set.mem_sdiff, Set.mem_union, Set.mem_ofPred_eq, List.coe_toFinset,
      List.mem_filter, decide_eq_true_eq]
    tauto
  have fewer := (reported.filter (· ∉ before)).toFinset_card_le
  have fewer' := reported.length_filter_le (· ∉ before)
  rw [new, Set.ncard_coe_finset]
  constructor
  · intro same
    have all : reported.filter (· ∉ before) = reported :=
      reported.filter_sublist.eq_of_length (by omega)
    rw [all] at same
    refine ⟨Multiset.coe_nodup.mp (Multiset.toFinset_card_eq_card_iff_nodup.mp same), ?_⟩
    intro a ha
    simpa using List.filter_eq_self.mp all a ha
  · rintro ⟨nodup, fresh⟩
    have all : reported.filter (· ∉ before) = reported :=
      List.filter_eq_self.mpr fun a ha => by simpa using fresh a ha
    rw [all, List.toFinset_card_of_nodup nodup]

end Saturate
