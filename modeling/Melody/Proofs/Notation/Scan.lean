import Melody.Notation.Strict
import Melody.Proofs.Outcome
import Melody.Proofs.Text.Fields

/-!
# Words under the check

The check looks at characters and their neighbours, the reader at words. What the check lets pass has its
parentheses in three kinds of words only, and they open and close in turn.

## The architecture

* **`Place.judge_cases`**: what one character does to the open parenthesis.
* **`Passes`** is what a word does to it, whole: **`Place.passes_of_run`** takes the check over one word.
-/

namespace Melody.Notation

open Outcome

/-- A word without parentheses. -/
def IsFree (word : List Char) : Prop := '(' ∉ word ∧ ')' ∉ word

instance (word : List Char) : Decidable (IsFree word) := inferInstanceAs (Decidable (_ ∧ _))

/-- What a word does to the parenthesis that is open: nothing, or it opens one at its end, or it is the
closing of one. -/
inductive Passes : Option Nat → List Char → Option Nat → Prop
  | free {opened : Option Nat} {word : List Char} (h : IsFree word) : Passes opened word opened
  | opening {front : List Char} {offset : Nat} (h : IsFree front) :
      Passes none (front ++ ['(']) (some offset)
  | closing {offset : Nat} : Passes (some offset) [')'] none

theorem isFree_nil : IsFree [] := ⟨List.not_mem_nil, List.not_mem_nil⟩

theorem isFree_cons {c : Char} {word : List Char} (hopen : c ≠ '(') (hclose : c ≠ ')')
    (h : IsFree word) : IsFree (c :: word) :=
  ⟨List.not_mem_cons_of_ne_of_not_mem (Ne.symm hopen) h.1,
    List.not_mem_cons_of_ne_of_not_mem (Ne.symm hclose) h.2⟩

namespace Place

variable {p p' q : Place} {c : Char} {next : Option Char} {opened : Option Nat}
  {word rest : List Char}

/-! ## One character -/

/-- Which group is open behind a character: an opening parenthesis opens one, a closing one closes it, and no
other character matters. -/
theorem judge_cases (h : p.judge c next = .ok opened) :
    (c = '(' ∧ p.opened = none ∧ next = some ' ' ∧ opened = some p.offset) ∨
    (c = ')' ∧ (∃ offset, p.opened = some offset) ∧ p.before = some ' ' ∧ isGap next = true ∧
      opened = none) ∨
    (c ≠ '(' ∧ c ≠ ')' ∧ opened = p.opened) := by
  rw [judge] at h
  split at h
  · cases h
  split at h
  · next hopen =>
    split at h
    · cases h
    · next hnone =>
      obtain ⟨hplace, rfl⟩ := ite_eq_ok_iff.1 h
      rw [Bool.and_eq_true, beq_iff_eq] at hplace
      exact .inl ⟨hopen, Option.not_isSome_iff_eq_none.1 hnone, hplace.2, rfl⟩
  next hopen =>
  split at h
  · next hclose =>
    split at h
    · cases h
    · next hsome =>
      obtain ⟨hplace, rfl⟩ := ite_eq_ok_iff.1 h
      rw [Bool.and_eq_true, beq_iff_eq] at hplace
      refine .inr (.inl ⟨hclose, ?_, hplace.1, hplace.2, rfl⟩)
      exact Option.ne_none_iff_exists'.1 (mt Option.isNone_iff_eq_none.2 hsome)
  next hclose =>
  -- no other character opens or closes, whatever its own rule is
  refine .inr (.inr ⟨hopen, hclose, ?_⟩)
  split at h
  · exact (ite_eq_ok_iff.1 h).2.symm
  split at h
  · exact (ite_eq_ok_iff.1 h).2.symm
  split at h
  · exact (ite_eq_ok_iff.1 h).2.symm
  · exact (Except.ok.inj h).symm

/-- A step is a judgement and a move by the size of the character. -/
theorem step_eq_ok_iff :
    p.step c next = .ok p' ↔
      ∃ opened, p.judge c next = .ok opened ∧ p' = ⟨p.offset + c.utf8Size, some c, opened⟩ := by
  unfold step
  cases p.judge c next with
  | error fault => simp only [reduceCtorEq, false_and, exists_false]
  | ok opened => simp only [Except.ok.injEq, exists_eq_left', eq_comm]

theorem run_cons_eq_ok_iff :
    p.run (c :: rest) = .ok q ↔
      ∃ p' : Place, p.step c rest.head? = .ok p' ∧ p'.run rest = .ok q := by
  rw [run]
  exact bind_eq_ok_iff

/-- Blanks leave a parenthesis open or closed. -/
theorem run_blank (hc : Text.isBlank c = true) (h : p.run (c :: rest) = .ok q) :
    ∃ p' : Place, p'.run rest = .ok q ∧ p'.opened = p.opened := by
  obtain ⟨p', hstep, hrun⟩ := run_cons_eq_ok_iff.1 h
  obtain ⟨opened, hjudge, rfl⟩ := step_eq_ok_iff.1 hstep
  refine ⟨_, hrun, ?_⟩
  rcases judge_cases hjudge with ⟨rfl, -⟩ | ⟨rfl, -⟩ | ⟨-, -, hopened⟩
  · exact absurd hc (by decide)
  · exact absurd hc (by decide)
  · exact hopened

/-! ## One word -/

/-- A character in front of a blank is the last of its word. -/
theorem eq_nil_of_isGap (hword : ∀ c ∈ word, Text.isBlank c = false)
    (h : isGap (word ++ rest).head? = true) : word = [] := by
  cases word with
  | nil => rfl
  | cons c word =>
    have hspace : c = ' ' := by simpa [isGap] using h
    rw [List.forall_mem_cons, hspace] at hword
    exact absurd hword.1 (by decide)

/-- The check over the rest of a word. Only where a word begins it may be a closing parenthesis. -/
theorem passes_of_run (hword : ∀ c ∈ word, Text.isBlank c = false) (h : p.run (word ++ rest) = .ok q) :
    ∃ p' : Place, p'.run rest = .ok q ∧ Passes p.opened word p'.opened ∧
      (p.before ≠ some ' ' → word ≠ [')']) := by
  induction word generalizing p with
  | nil => exact ⟨p, h, .free isFree_nil, fun _ => nofun⟩
  | cons c word ih =>
    rw [List.forall_mem_cons] at hword
    obtain ⟨p₁, hstep, hrun⟩ := run_cons_eq_ok_iff.1 h
    obtain ⟨opened, hjudge, rfl⟩ := step_eq_ok_iff.1 hstep
    rcases judge_cases hjudge with ⟨rfl, hnone, hnext, rfl⟩ | ⟨rfl, ⟨offset, hsome⟩, hbefore, hnext, rfl⟩ |
        ⟨hopen, hclose, rfl⟩
    · -- an opening parenthesis stands before a space, which no word has in it
      obtain rfl := eq_nil_of_isGap hword.2 (congrArg isGap hnext)
      refine ⟨_, hrun, ?_, fun _ => by decide⟩
      rw [hnone]
      exact .opening isFree_nil
    · obtain rfl := eq_nil_of_isGap hword.2 hnext
      refine ⟨_, hrun, ?_, fun hne => absurd hbefore hne⟩
      rw [hsome]
      exact .closing
    · obtain ⟨p', hrest, hpasses, hnot⟩ := ih hword.2 hrun
      have hinside : (some c : Option Char) ≠ some ' ' := by
        intro hspace
        rw [Option.some.inj hspace] at hword
        exact absurd hword.1 (by decide)
      refine ⟨p', hrest, ?_, fun _ hsingle => hclose (List.cons.inj hsingle).1⟩
      -- with one more character in front the word stays of its kind
      generalize p'.opened = opened at hpasses
      generalize hopened : p.opened = before at hpasses
      cases hpasses with
      | free hfree => exact .free (isFree_cons hopen hclose hfree)
      | opening hfree => exact .opening (isFree_cons hopen hclose hfree)
      | closing => exact absurd rfl (hnot hinside)

end Place

end Melody.Notation
