import Mathlib.Data.List.Infix
import Mathlib.Logic.Function.Basic

/-!
# Escaping symbol by symbol and unescaping by replacement

`escape` writes a symbol that has a code as the escape symbol followed by the code.
`replacePair` is a global replacement of a two-symbol pattern, with matches taken from
left to right and without overlap.

Replacing the pair that stands for one symbol undoes the escaping of that symbol. How the
replacement acts on text that is not an escape depends on what is still escaped at that
moment, which is why there are three rules: for a code that is escaped itself
(`replacePair_escape_quote`), for the escape symbol (`replacePair_escape_self`), and for
a code that also occurs as plain text (`replacePair_escape_letter`).
-/

namespace Escape

variable {α : Type*}

/-- Write `esc` and the code for every symbol that has one. -/
def escape (esc : α) (code : α → Option α) : List α → List α
  | [] => []
  | c :: cs =>
    match code c with
    | some k => esc :: k :: escape esc code cs
    | none => c :: escape esc code cs

section Escape

variable {esc c k : α} {code : α → Option α} {cs : List α}

theorem escape_cons_some (h : code c = some k) :
    escape esc code (c :: cs) = esc :: k :: escape esc code cs := by
  simp only [escape, h]

theorem escape_cons_none (h : code c = none) :
    escape esc code (c :: cs) = c :: escape esc code cs := by
  simp only [escape, h]

/-- Escaped text begins with the escape symbol or with a symbol that has no code. -/
theorem escape_head {x : α} {rest : List α} (h : escape esc code cs = x :: rest) :
    x = esc ∨ code x = none := by
  cases cs with
  | nil => cases h
  | cons c cs =>
    cases coded : code c with
    | some k =>
      rw [escape_cons_some coded] at h
      cases h
      exact .inl rfl
    | none =>
      rw [escape_cons_none coded] at h
      cases h
      exact .inr coded

/-- Escaped text can be read back, symbol by symbol. -/
theorem escape_injective (self : code esc ≠ none)
    (unique : ∀ c d k, code c = some k → code d = some k → c = d) :
    Function.Injective (escape esc code) := by
  intro cs ds h
  induction cs generalizing ds with
  | nil =>
    cases ds with
    | nil => rfl
    | cons d ds => cases coded : code d <;> simp [escape, coded] at h
  | cons c cs ih =>
    cases ds with
    | nil => cases coded : code c <;> simp [escape, coded] at h
    | cons d ds =>
      cases codedC : code c with
      | some k =>
        rw [escape_cons_some codedC] at h
        cases codedD : code d with
        | some k' =>
          rw [escape_cons_some codedD] at h
          obtain ⟨sameCode, rest⟩ := List.cons.inj (List.cons.inj h).2
          rw [unique c d k codedC (sameCode ▸ codedD), ih rest]
        | none =>
          rw [escape_cons_none codedD] at h
          exact absurd ((List.cons.inj h).1 ▸ codedD) self
      | none =>
        rw [escape_cons_none codedC] at h
        cases codedD : code d with
        | some k' =>
          rw [escape_cons_some codedD] at h
          exact absurd ((List.cons.inj h).1 ▸ codedC) self
        | none =>
          rw [escape_cons_none codedD] at h
          obtain ⟨same, rest⟩ := List.cons.inj h
          rw [same, ih rest]

theorem escape_of_no_code (uncoded : ∀ c ∈ cs, ∀ k, code c ≠ some k) :
    escape esc code cs = cs := by
  induction cs with
  | nil => rfl
  | cons c cs ih =>
    have none : code c = none := Option.eq_none_iff_forall_ne_some.mpr
        (uncoded c List.mem_cons_self)
    rw [escape_cons_none none, ih fun d hd => uncoded d (List.mem_cons_of_mem c hd)]

end Escape

variable [DecidableEq α]

/-- Replace every occurrence of `first` followed by `second`. -/
def replacePair (first second image : α) : List α → List α
  | [] => []
  | [c] => [c]
  | c :: d :: cs =>
    if c = first ∧ d = second then image :: replacePair first second image cs
    else c :: replacePair first second image (d :: cs)

section Replace

variable {first second image c : α} {cs : List α}

theorem replacePair_cons_cons (c d : α) (cs : List α) :
    replacePair first second image (c :: d :: cs) =
      if c = first ∧ d = second then image :: replacePair first second image cs
      else c :: replacePair first second image (d :: cs) := rfl

theorem replacePair_match :
    replacePair first second image (first :: second :: cs) =
      image :: replacePair first second image cs := by
  rw [replacePair_cons_cons, if_pos ⟨rfl, rfl⟩]

theorem replacePair_cons (h : c = first → ∀ rest, cs ≠ second :: rest) :
    replacePair first second image (c :: cs) = c :: replacePair first second image cs := by
  cases cs with
  | nil => rfl
  | cons d cs =>
    have noMatch : ¬ (c = first ∧ d = second) := by
      rintro ⟨isFirst, rfl⟩
      exact h isFirst cs rfl
    rw [replacePair_cons_cons, if_neg noMatch]

theorem length_replacePair_le (cs : List α) :
    (replacePair first second image cs).length ≤ cs.length := by
  induction cs using replacePair.induct first second with
  | case1 => exact le_rfl
  | case2 c => exact le_rfl
  | case3 c d cs found ih =>
    simp only [replacePair_cons_cons, if_pos found, List.length_cons]
    omega
  | case4 c d cs noMatch ih =>
    simp only [replacePair_cons_cons, if_neg noMatch, List.length_cons] at ih ⊢
    omega

/-- A replacement that does anything makes the text shorter. -/
theorem replacePair_eq_self_of_length
    (same : (replacePair first second image cs).length = cs.length) :
    replacePair first second image cs = cs := by
  induction cs using replacePair.induct first second with
  | case1 => rfl
  | case2 c => rfl
  | case3 c d cs found ih =>
    have shorter : (replacePair first second image cs).length ≤ cs.length :=
      length_replacePair_le cs
    simp only [replacePair_cons_cons, if_pos found, List.length_cons] at same
    omega
  | case4 c d cs noMatch ih =>
    rw [replacePair_cons_cons, if_neg noMatch] at same ⊢
    rw [ih (by simpa using same)]

theorem replacePair_eq_self_iff :
    replacePair first second image cs = cs ↔ ¬ [first, second] <:+: cs := by
  induction cs using replacePair.induct first second with
  | case1 => exact iff_of_true rfl (by simp)
  | case2 c => exact iff_of_true rfl (by simp [List.infix_cons_iff])
  | case3 c d cs found ih =>
    obtain ⟨rfl, rfl⟩ := found
    have shorter : (replacePair c d image cs).length ≤ cs.length := length_replacePair_le cs
    refine iff_of_false ?_ ?_
    · intro same
      have := congrArg List.length same
      rw [replacePair_match] at this
      simp only [List.length_cons] at this
      omega
    · intro absent
      exact absent ⟨[], cs, rfl⟩
  | case4 c d cs noMatch ih =>
    have front : ¬ [first, second] <+: c :: d :: cs := by
      intro h
      simp only [List.cons_prefix_cons, List.nil_prefix, and_true] at h
      exact noMatch ⟨h.1.symm, h.2.symm⟩
    have later : ¬ [first, second] <:+: c :: d :: cs ↔ ¬ [first, second] <:+: d :: cs := by
      rw [List.infix_cons_iff, not_or, and_iff_right front]
    rw [replacePair_cons_cons, if_neg noMatch, List.cons_inj_right, ih, later]

/-- Each replacement takes away one `first` and makes the text shorter by one. -/
theorem count_replacePair (other : second ≠ first) (other' : image ≠ first) (cs : List α) :
    (replacePair first second image cs).count first + cs.length =
      cs.count first + (replacePair first second image cs).length := by
  induction cs using replacePair.induct first second with
  | case1 => rfl
  | case2 c => rfl
  | case3 c d cs found ih =>
    obtain ⟨rfl, rfl⟩ := found
    rw [replacePair_match, List.count_cons_of_ne other', List.count_cons_self,
      List.count_cons_of_ne other]
    simp only [List.length_cons]
    omega
  | case4 c d cs noMatch ih =>
    rw [replacePair_cons_cons, if_neg noMatch, List.count_cons, List.count_cons (l := d :: cs)]
    simp only [List.length_cons] at ih ⊢
    omega

end Replace

section Undo

variable {esc c k : α} {code : α → Option α}

/-- Undo a symbol at an escape, if the next replacement does not begin inside it. -/
theorem replacePair_code {d e : α} {cs rest : List α} (coded : code c = some k)
    (unique : ∀ d, code d = some k → d = c) (codedD : code d = some e)
    (safe : e = esc → ∀ rest, escape esc code cs ≠ k :: rest)
    (undone : replacePair esc k c (escape esc code cs) =
      escape esc (Function.update code c none) rest) :
    replacePair esc k c (escape esc code (d :: cs)) =
      escape esc (Function.update code c none) (d :: rest) := by
  rw [escape_cons_some codedD]
  by_cases isC : d = c
  · subst isC
    rw [coded] at codedD
    cases codedD
    rw [replacePair_match, undone, escape_cons_none (Function.update_self ..)]
  · have other : e ≠ k := fun same => isC (unique d (same ▸ codedD))
    have kept : Function.update code c none d = some e := by
      rw [Function.update_of_ne isC, codedD]
    rw [escape_cons_some kept, replacePair_cons, replacePair_cons safe, undone]
    rintro - rest h
    exact other (List.cons.inj h).1

/-- Undo a symbol whose code is escaped itself, so that the code never stands alone. -/
theorem replacePair_escape_quote (coded : code c = some k) (quoted : code k ≠ none)
    (unique : ∀ d, code d = some k → d = c) (ne : k ≠ esc) (cs : List α) :
    replacePair esc k c (escape esc code cs) = escape esc (Function.update code c none) cs := by
  -- No escaped text begins with `k`, so an escape symbol at the end of an escape is safe.
  have head (cs rest : List α) : escape esc code cs ≠ k :: rest := by
    intro h
    exact (escape_head h).elim ne quoted
  induction cs with
  | nil => rfl
  | cons d cs ih =>
    cases codedD : code d with
    | some e => exact replacePair_code coded unique codedD (fun _ => head cs) ih
    | none =>
      have isC : d ≠ c := by
        rintro rfl
        rw [coded] at codedD
        cases codedD
      have kept : Function.update code c none d = none := by
        rw [Function.update_of_ne isC, codedD]
      rw [escape_cons_none codedD, escape_cons_none kept, replacePair_cons, ih]
      exact fun _ => head cs

theorem replacePair_escape_self (coded : code esc = some esc)
    (unique : ∀ d, code d = some esc → d = esc) (cs : List α) :
    replacePair esc esc esc (escape esc code cs) =
      escape esc (Function.update code esc none) cs := by
  induction cs with
  | nil => rfl
  | cons d cs ih =>
    by_cases isEsc : d = esc
    · subst isEsc
      rw [escape_cons_some coded, replacePair_match, ih,
        escape_cons_none (Function.update_self ..)]
    · cases codedD : code d with
      | some e =>
        have other : e ≠ esc := fun same => isEsc (unique d (same ▸ codedD))
        have kept : Function.update code esc none d = some e := by
          rw [Function.update_of_ne isEsc, codedD]
        rw [escape_cons_some codedD, escape_cons_some kept, replacePair_cons,
          replacePair_cons, ih]
        · exact fun same => absurd same other
        · rintro - rest h
          exact other (List.cons.inj h).1
      | none =>
        have kept : Function.update code esc none d = none := by
          rw [Function.update_of_ne isEsc, codedD]
        rw [escape_cons_none codedD, escape_cons_none kept, replacePair_cons, ih]
        exact fun same => absurd same isEsc

/-- Undo a symbol whose code also stands for itself, once the escape symbol is plain text:
the same replacement is made in the text that was escaped. -/
theorem replacePair_escape_letter (coded : code c = some k) (letter : code k = none)
    (plain : code esc = none) (unique : ∀ d, code d = some k → d = c)
    (codes : ∀ d, code d ≠ some esc) (cs : List α) :
    replacePair esc k c (escape esc code cs) =
      escape esc (Function.update code c none) (replacePair esc k c cs) := by
  have ne_esc : c ≠ esc := by
    rintro rfl
    rw [coded] at plain
    cases plain
  have k_ne_esc : k ≠ esc := fun same => codes c (same ▸ coded)
  have isPlain (d : α) (h : code d = none) : Function.update code c none d = none := by
    by_cases isC : d = c
    · subst isC
      exact Function.update_self ..
    · rw [Function.update_of_ne isC, h]
  -- The first symbol, when no replacement is made there in either text.
  have front (d : α) (cs : List α) (noMatch : d = esc → ∀ rest, cs ≠ k :: rest)
      (ih : replacePair esc k c (escape esc code cs) =
        escape esc (Function.update code c none) (replacePair esc k c cs)) :
      replacePair esc k c (escape esc code (d :: cs)) =
        escape esc (Function.update code c none) (replacePair esc k c (d :: cs)) := by
    rw [replacePair_cons noMatch]
    cases codedD : code d with
    | some e =>
      have safe : e = esc → ∀ rest, escape esc code cs ≠ k :: rest :=
        fun same => absurd (same ▸ codedD) (codes d)
      exact replacePair_code coded unique codedD safe ih
    | none =>
      rw [escape_cons_none codedD, escape_cons_none (isPlain d codedD), replacePair_cons, ih]
      intro isEsc rest h
      cases cs with
      | nil => cases h
      | cons x xs =>
        cases codedX : code x with
        | some e =>
          rw [escape_cons_some codedX] at h
          exact k_ne_esc (List.cons.inj h).1.symm
        | none =>
          rw [escape_cons_none codedX] at h
          exact noMatch isEsc xs (by rw [(List.cons.inj h).1])
  induction cs using replacePair.induct esc k with
  | case1 => rfl
  | case2 d => exact front d [] (fun _ rest h => by cases h) rfl
  | case3 d e cs found ih =>
    obtain ⟨rfl, rfl⟩ := found
    rw [escape_cons_none plain, escape_cons_none letter, replacePair_match, ih,
      replacePair_match, escape_cons_none (Function.update_self ..)]
  | case4 d e cs noMatch ih =>
    refine front d (e :: cs) ?_ ih
    intro isEsc rest h
    exact noMatch ⟨isEsc, (List.cons.inj h).1⟩

end Undo

end Escape
