import Mathlib.Data.List.DropRight
import Mathlib.Tactic.Common

/-!
# Texts with marked symbols

A splitter reads a text once. It keeps a symbol for the current entry, ends the entry at
it, or skips it; what it returns are the entries, stripped of blanks at both ends. A grammar
marks the symbols of a text in the same way.

Two markings of one text can only give the same entries if they are the same marking. For
markings without skipped symbols that needs nothing but stops that are not blank. With line
comments it needs a little more of one of the two (`Proper`): where entries are joined, a
comment sign must not look like the beginning of an entry.
-/

namespace PgRipple.Marks

/-- What happens to a symbol. -/
inductive Role where
  | kept
  | stop
  | skipped
  deriving DecidableEq, Repr

variable {α : Type} (blank : α → Bool)

def strip (s : List α) : List α := (s.dropWhile blank).rdropWhile blank

/-- The text has a symbol that is not blank. -/
def Solid (s : List α) : Prop := ∃ c ∈ s, blank c = false

/-- End an entry; a blank one is only kept where `keepBlank` says so. -/
def push (keepBlank : Bool) (entry : List α) (entries : List (List α)) : List (List α) :=
  if strip blank entry = [] ∧ keepBlank = false then entries else strip blank entry :: entries

/-- The entries of a marked text, after the symbols of the entry that is under way. -/
def entries (keepBlank : Bool) : List α → List (α × Role) → List (List α)
  | current, [] => push blank false current []
  | current, (c, .kept) :: ms => entries keepBlank (current ++ [c]) ms
  | current, (_, .stop) :: ms => push blank keepBlank current (entries keepBlank [] ms)
  | current, (_, .skipped) :: ms => entries keepBlank current ms

/-- What is left of a text without its stops and what is skipped. -/
def plain (ms : List (α × Role)) : List α :=
  ms.filterMap fun (c, role) => if role = .kept then some c else none

variable {blank} {keepBlank : Bool} {s t current : List α} {c : α} {ms ms' : List (α × Role)}

theorem dropWhile_append_cons (solid : blank c = false) :
    (s ++ c :: t).dropWhile blank = s.dropWhile blank ++ c :: t := by
  rw [List.dropWhile_append]
  split
  · rename_i empty
    rw [List.isEmpty_iff.mp empty, List.dropWhile_cons_of_neg
      (by rw [solid]; exact Bool.false_ne_true)]
    rfl
  · rfl

theorem rdropWhile_append_cons (solid : blank c = false) :
    (s ++ c :: t).rdropWhile blank = s ++ c :: t.rdropWhile blank := by
  rw [List.rdropWhile, List.rdropWhile, List.reverse_append, List.reverse_cons, List.append_assoc,
    List.singleton_append, dropWhile_append_cons solid, List.reverse_append, List.reverse_cons,
    List.reverse_reverse, List.append_assoc, List.singleton_append]

theorem strip_append_cons (solid : blank c = false) :
    strip blank (s ++ c :: t) = s.dropWhile blank ++ c :: t.rdropWhile blank := by
  rw [strip, dropWhile_append_cons solid, rdropWhile_append_cons solid]

theorem solid_append_cons (solid : blank c = false) : Solid blank (s ++ c :: t) :=
  ⟨c, List.mem_append_right s List.mem_cons_self, solid⟩

theorem exists_split_of_solid (h : Solid blank s) :
    ∃ front c rest, blank c = false ∧ s = front ++ c :: rest := by
  obtain ⟨c, mem, solid⟩ := h
  obtain ⟨front, rest, same⟩ := List.append_of_mem mem
  exact ⟨front, c, rest, solid, same⟩

theorem strip_eq_nil_iff : strip blank s = [] ↔ ¬ Solid blank s := by
  constructor
  · intro empty solid
    obtain ⟨front, c, rest, first, rfl⟩ := exists_split_of_solid solid
    rw [strip_append_cons first] at empty
    exact List.cons_ne_nil _ _ (List.append_eq_nil_iff.mp empty).2
  · intro none
    have all : ∀ c ∈ s, blank c = true := fun c mem => by
      by_contra solid
      exact none ⟨c, mem, Bool.eq_false_iff.mpr solid⟩
    rw [strip, List.dropWhile_eq_nil_iff.mpr all, List.rdropWhile_nil]

theorem dropWhile_of_not_solid (h : ¬ Solid blank s) : s.dropWhile blank = [] := by
  rw [List.dropWhile_eq_nil_iff]
  intro c mem
  by_contra solid
  exact h ⟨c, mem, Bool.eq_false_iff.mpr solid⟩

/-- A text that has begun only grows at its end. -/
theorem dropWhile_append_of_solid (h : Solid blank s) :
    (s ++ t).dropWhile blank = s.dropWhile blank ++ t := by
  obtain ⟨front, c, rest, solid, rfl⟩ := exists_split_of_solid h
  rw [List.append_assoc, List.cons_append, dropWhile_append_cons solid, dropWhile_append_cons solid,
    List.append_assoc, List.cons_append]

theorem strip_prefix : strip blank s <+: s.dropWhile blank := List.rdropWhile_prefix _ _

theorem strip_ne_longer : strip blank s ≠ s.dropWhile blank ++ c :: t := by
  intro same
  have bound : (strip blank s).length ≤ (s.dropWhile blank).length := strip_prefix.length_le
  rw [same, List.length_append, List.length_cons] at bound
  omega

theorem push_of_solid (h : Solid blank s) {es : List (List α)} :
    push blank keepBlank s es = strip blank s :: es := by
  rw [push, if_neg]
  rintro ⟨empty, -⟩
  exact strip_eq_nil_iff.mp empty h

theorem push_true {es : List (List α)} : push blank true s es = strip blank s :: es :=
  if_neg fun h => Bool.noConfusion h.2

/-- Once an entry has begun, it is the first one. -/
theorem exists_entries_of_solid (h : Solid blank current) :
    ∃ t rest, entries blank keepBlank current ms = strip blank (current ++ t) :: rest := by
  induction ms generalizing current with
  | nil => exact ⟨[], [], by rw [entries, push_of_solid h, List.append_nil]⟩
  | cons m ms ih =>
    obtain ⟨c, role⟩ := m
    cases role with
    | kept =>
      obtain ⟨d, mem, solid⟩ := h
      obtain ⟨t, rest, same⟩ := ih ⟨d, List.mem_append_left [c] mem, solid⟩
      exact ⟨c :: t, rest, by rw [entries, same, List.append_assoc, List.singleton_append]⟩
    | stop => exact ⟨[], _, by rw [entries, push_of_solid h, List.append_nil]⟩
    | skipped => exact ih h

/-- A symbol that is not blank stays at its place. -/
theorem exists_entries_cons (solid : blank c = false) :
    ∃ t rest, entries blank keepBlank (current ++ [c]) ms =
      (current.dropWhile blank ++ c :: t) :: rest := by
  obtain ⟨t, rest, same⟩ := exists_entries_of_solid (solid_append_cons solid)
  refine ⟨t.rdropWhile blank, rest, ?_⟩
  rw [same, List.append_assoc, List.singleton_append, strip_append_cons solid]

/-- An entry that is kept open at a stop differs from the one that ends there. -/
theorem entries_kept_ne_stop (solid : blank c = false) {es : List (List α)} :
    entries blank keepBlank (current ++ [c]) ms ≠ strip blank current :: es := by
  obtain ⟨t, rest, same⟩ := exists_entries_cons solid
  rw [same]
  intro equal
  exact strip_ne_longer (List.cons.inj equal).1.symm

/-- The symbols belong to one entry. -/
def NoStop (ms : List (α × Role)) : Prop := ∀ m ∈ ms, m.2 ≠ .stop

theorem plain_append : plain (ms ++ ms') = plain ms ++ plain ms' := List.filterMap_append

theorem noStop_append : NoStop (ms ++ ms') ↔ NoStop ms ∧ NoStop ms' := List.forall_mem_append

theorem entries_append (noStop : NoStop ms) :
    entries blank keepBlank current (ms ++ ms') =
      entries blank keepBlank (current ++ plain ms) ms' := by
  induction ms generalizing current with
  | nil => rw [plain, List.filterMap_nil, List.append_nil, List.nil_append]
  | cons m ms ih =>
    obtain ⟨c, role⟩ := m
    obtain ⟨here, later⟩ := List.forall_mem_cons.mp noStop
    cases role with
    | kept =>
      rw [List.cons_append, entries, ih later, List.append_assoc]
      rfl
    | stop => exact absurd rfl here
    | skipped =>
      rw [List.cons_append, entries, ih later]
      rfl

/-- Every symbol is kept, or is a stop that is not blank. -/
def Plain (blank : α → Bool) (ms : List (α × Role)) : Prop :=
  ∀ m ∈ ms, m.2 = .kept ∨ m.2 = .stop ∧ blank m.1 = false

theorem eq_of_entries_eq_of_plain (plain : Plain blank ms) (plain' : Plain blank ms')
    (same : ms.map Prod.fst = ms'.map Prod.fst)
    (equal : entries blank true current ms = entries blank true current ms') : ms = ms' := by
  induction ms generalizing current ms' with
  | nil => exact (List.map_eq_nil_iff.mp same.symm).symm
  | cons m ms ih =>
    cases ms' with
    | nil => cases same
    | cons m' ms' =>
      obtain ⟨c, role⟩ := m
      obtain ⟨c', role'⟩ := m'
      obtain ⟨symbols, rest⟩ := List.cons.inj same
      obtain rfl : c = c' := symbols
      obtain ⟨here, later⟩ := List.forall_mem_cons.mp plain
      obtain ⟨here', later'⟩ := List.forall_mem_cons.mp plain'
      obtain rfl | ⟨rfl, solid⟩ := here <;> obtain rfl | ⟨rfl, solid'⟩ := here'
      · rw [ih later later' rest equal]
      · rw [entries, entries, push_true] at equal
        exact absurd equal (entries_kept_ne_stop solid')
      · rw [entries, entries, push_true] at equal
        exact absurd equal.symm (entries_kept_ne_stop solid)
      · rw [entries, entries, push_true, push_true] at equal
        rw [ih later later' rest (List.cons.inj equal).2]

/-- Stops are `period`s; a comment goes from `hash` to the end of the line, which is kept. -/
def Lined [DecidableEq α] (period hash newline : α) : (inComment : Bool) → List (α × Role) → Prop
  | _, [] => True
  | true, (c, role) :: ms =>
    if c = newline then role = .kept ∧ Lined period hash newline false ms
    else role = .skipped ∧ Lined period hash newline true ms
  | false, (_, .kept) :: ms => Lined period hash newline false ms
  | false, (c, .stop) :: ms => c = period ∧ Lined period hash newline false ms
  | false, (c, .skipped) :: ms => c = hash ∧ Lined period hash newline true ms

/-- No entry is blank where it stops, and none begins with a kept `period` or `hash`. -/
def Proper (blank : α → Bool) (period hash : α) : List α → List (α × Role) → Prop
  | _, [] => True
  | current, (c, .kept) :: ms =>
    (c = period ∨ c = hash → Solid blank current) ∧ Proper blank period hash (current ++ [c]) ms
  | current, (_, .stop) :: ms => Solid blank current ∧ Proper blank period hash [] ms
  | current, (_, .skipped) :: ms => Proper blank period hash current ms

/-- The first entry of a proper marking does not begin with a comment sign. -/
theorem entries_ne_hash_of_proper {period hash : α} (h : ¬ Solid blank current)
    (proper : Proper blank period hash current ms) {es : List (List α)} :
    entries blank false current ms ≠ (hash :: t) :: es := by
  induction ms generalizing current with
  | nil =>
    rw [entries, push, if_pos ⟨strip_eq_nil_iff.mpr h, rfl⟩]
    exact (List.cons_ne_nil _ _).symm
  | cons m ms ih =>
    obtain ⟨c, role⟩ := m
    cases role with
    | kept =>
      obtain ⟨first, later⟩ := proper
      rw [entries]
      by_cases isBlank : blank c = true
      · refine ih ?_ later
        rintro ⟨d, mem, solid⟩
        obtain old | rfl : d ∈ current ∨ d = c := by simpa using mem
        · exact h ⟨d, old, solid⟩
        · rw [isBlank] at solid
          cases solid
      · obtain ⟨t', rest, same⟩ := exists_entries_cons (Bool.eq_false_iff.mpr isBlank)
        rw [same, dropWhile_of_not_solid h, List.nil_append]
        intro equal
        exact h (first (.inr (List.cons.inj (List.cons.inj equal).1).1))
    | stop => exact absurd proper.1 h
    | skipped => exact ih h proper

theorem Proper.append {period hash : α} (noStop : NoStop ms)
    (proper : Proper blank period hash current ms)
    (later : Proper blank period hash (current ++ plain ms) ms') :
    Proper blank period hash current (ms ++ ms') := by
  induction ms generalizing current with
  | nil => rwa [plain, List.filterMap_nil, List.append_nil] at later
  | cons m ms ih =>
    obtain ⟨c, role⟩ := m
    obtain ⟨here, rest⟩ := List.forall_mem_cons.mp noStop
    cases role with
    | kept =>
      refine ⟨proper.1, ih rest proper.2 ?_⟩
      rw [List.append_assoc]
      exact later
    | stop => exact absurd rfl here
    | skipped => exact ih rest proper later

section Lined

variable [DecidableEq α] {period hash newline : α}

/-- After a comment that began here, no entry has the comment sign at this place. -/
theorem entries_comment_ne (other : newline ≠ hash) (lined : Lined period hash newline true ms)
    (proper : Solid blank current ∨ Proper blank period hash current ms) {es : List (List α)} :
    entries blank false current ms ≠ (current.dropWhile blank ++ hash :: t) :: es := by
  by_cases h : Solid blank current
  · clear proper
    induction ms with
    | nil =>
      rw [entries, push_of_solid h]
      exact fun equal => strip_ne_longer (List.cons.inj equal).1
    | cons m ms ih =>
      obtain ⟨c, role⟩ := m
      rw [Lined] at lined
      split at lined
      · rename_i line
        obtain ⟨rfl, -⟩ := lined
        obtain ⟨d, mem, solid⟩ := h
        have longer : Solid blank (current ++ [c]) := ⟨d, List.mem_append_left [c] mem, solid⟩
        obtain ⟨t', rest, same⟩ : ∃ t' rest, entries blank false (current ++ [c]) ms =
            strip blank (current ++ [c] ++ t') :: rest := exists_entries_of_solid longer
        rw [entries, same]
        intro equal
        have stripped : strip blank (current ++ [c] ++ t') <+:
            (current ++ [c] ++ t').dropWhile blank := strip_prefix
        rw [(List.cons.inj equal).1, List.append_assoc, dropWhile_append_of_solid ⟨d, mem, solid⟩,
          List.prefix_append_right_inj, List.singleton_append, List.cons_prefix_cons] at stripped
        exact other (line.symm.trans stripped.1.symm)
      · obtain ⟨rfl, later⟩ := lined
        exact ih later
  · rw [dropWhile_of_not_solid h, List.nil_append]
    exact entries_ne_hash_of_proper h (proper.resolve_left h)

/-- Two markings of a text with line comments that give the same entries are the same, if one of
them is proper. -/
theorem eq_of_entries_eq (solidPeriod : blank period = false) (solidHash : blank hash = false)
    (notNewline : newline ≠ hash) (notPeriod : period ≠ hash) {inComment : Bool}
    (lined : Lined period hash newline inComment ms)
    (lined' : Lined period hash newline inComment ms')
    (proper : Proper blank period hash current ms') (same : ms.map Prod.fst = ms'.map Prod.fst)
    (equal : entries blank false current ms = entries blank false current ms') : ms = ms' := by
  induction ms generalizing current ms' inComment with
  | nil => exact (List.map_eq_nil_iff.mp same.symm).symm
  | cons m ms ih =>
    cases ms' with
    | nil => cases same
    | cons m' ms' =>
      obtain ⟨c, role⟩ := m
      obtain ⟨c', role'⟩ := m'
      obtain ⟨symbols, rest⟩ := List.cons.inj same
      obtain rfl : c = c' := symbols
      cases inComment with
      | true =>
        -- inside a comment there is no choice
        rw [Lined] at lined lined'
        split at lined
        · rename_i line
          rw [if_pos line] at lined'
          obtain ⟨rfl, lined⟩ := lined
          obtain ⟨rfl, lined'⟩ := lined'
          obtain ⟨-, proper⟩ := proper
          rw [ih lined lined' proper rest equal]
        · rename_i line
          rw [if_neg line] at lined'
          obtain ⟨rfl, lined⟩ := lined
          obtain ⟨rfl, lined'⟩ := lined'
          rw [ih lined lined' proper rest equal]
      | false =>
        cases role with
        | kept =>
          cases role' with
          | kept =>
            obtain ⟨-, proper⟩ := proper
            have lined' : Lined period hash newline false ms' := lined'
            rw [ih lined lined' proper rest equal]
          | stop =>
            rw [entries, entries, push_of_solid proper.1] at equal
            exact absurd equal (entries_kept_ne_stop (lined'.1 ▸ solidPeriod))
          | skipped =>
            obtain ⟨rfl, lined'⟩ := lined'
            obtain ⟨t, es, first⟩ : ∃ t es, entries blank false (current ++ [c]) ms =
                (current.dropWhile blank ++ c :: t) :: es := exists_entries_cons solidHash
            rw [entries, entries, first] at equal
            exact absurd equal.symm (entries_comment_ne notNewline lined' (.inr proper))
        | stop =>
          obtain ⟨rfl, lined⟩ := lined
          cases role' with
          | kept =>
            rw [entries, entries, push_of_solid (proper.1 (.inl rfl))] at equal
            exact absurd equal.symm (entries_kept_ne_stop solidPeriod)
          | stop =>
            obtain ⟨solid, proper⟩ := proper
            rw [entries, entries, push_of_solid solid, push_of_solid solid] at equal
            rw [ih lined lined'.2 proper rest (List.cons.inj equal).2]
          | skipped => exact absurd lined'.1 notPeriod
        | skipped =>
          obtain ⟨rfl, lined⟩ := lined
          cases role' with
          | kept =>
            obtain ⟨t, es, first⟩ : ∃ t es, entries blank false (current ++ [c]) ms' =
                (current.dropWhile blank ++ c :: t) :: es := exists_entries_cons solidHash
            rw [entries, entries, first] at equal
            exact absurd equal (entries_comment_ne notNewline lined (.inl (proper.1 (.inr rfl))))
          | stop => exact absurd lined'.1.symm notPeriod
          | skipped =>
            have proper : Proper blank period c current ms' := proper
            rw [ih lined lined'.2 proper rest equal]

end Lined

end PgRipple.Marks
