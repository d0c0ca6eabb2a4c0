import Mathlib.Algebra.Group.Nat.Defs
import Melody.Decimal.Natural

/-!
# Digits read back

A whole number in decimal is a run of ASCII digits, and so every reader of digits takes all of it.

## The architecture

* **`isDigit_of_mem_digits`** and **`digits_ne_nil`**: what is written are digits, at least one.
* **`head?_digits_ne`**: a zero stands in front only if it stands alone.
* **`digits?_digits`** and **`span_digits`**: both readers give the number back, from a text of its own and
  from in front of another text.
* **`ofDigits_append_zeros`** and **`ofDigits_zeros_append`**: zeros that are filled in at either end.
-/

namespace Melody.Decimal

theorem isDigit_of_mem_digits {n : Nat} {c : Char} (h : c ∈ digits n) : isDigit c = true := by
  have hdigit : c.isDigit = true := Nat.isDigit_of_mem_toDigits (by decide) (by decide) h
  exact hdigit

theorem digits_ne_nil (n : Nat) : digits n ≠ [] := Nat.toDigits_ne_nil

/-- A number is read back from its digits. -/
theorem digits?_digits (n : Nat) : digits? (digits n) = some n := by
  have hnonempty : (digits n).isEmpty = false := by
    rw [List.isEmpty_eq_false_iff]
    exact digits_ne_nil n
  have hall : (digits n).all isDigit = true := by
    rw [List.all_eq_true]
    intro c hc
    exact isDigit_of_mem_digits hc
  rw [digits?, hnonempty, hall, ofDigits_digits]
  rfl

/-- The texts of a number, with or without zeros in front. -/
theorem digits?_eq_some_iff {text : List Char} {n : Nat} :
    digits? text = some n ↔ text ≠ [] ∧ (∀ c ∈ text, isDigit c = true) ∧ ofDigits text = n := by
  rw [digits?]
  split
  · next h =>
    refine iff_of_false nofun ?_
    rintro ⟨hne, hall, -⟩
    rw [Bool.or_eq_true, List.isEmpty_iff, Bool.not_eq_true', ← Bool.not_eq_true, List.all_eq_true] at h
    exact h.elim hne fun hnot => hnot hall
  · next h =>
    rw [Bool.or_eq_true, List.isEmpty_iff, Bool.not_eq_true', ← Bool.not_eq_true, List.all_eq_true, not_or,
      Decidable.not_not] at h
    rw [Option.some.injEq, and_iff_right h.1, and_iff_right h.2]

/-- A run of digits ends where something else begins. -/
theorem span_of_digits {ds rest : List Char} (hall : ∀ c ∈ ds, isDigit c = true)
    (h : ∀ c ∈ rest.head?, isDigit c = false) : span (ds ++ rest) = (ds, rest) := by
  rw [span, List.takeWhile_append_of_pos hall, List.dropWhile_append_of_pos hall]
  cases rest with
  | nil => rw [List.takeWhile_nil, List.dropWhile_nil, List.append_nil]
  | cons c rest =>
    have hc := h c rfl
    rw [List.takeWhile_cons_of_neg (by rw [hc]; exact Bool.false_ne_true),
      List.dropWhile_cons_of_neg (by rw [hc]; exact Bool.false_ne_true), List.append_nil]

/-- The digits of a number end where something else begins. -/
theorem span_digits (n : Nat) {rest : List Char} (h : ∀ c ∈ rest.head?, isDigit c = false) :
    span (digits n ++ rest) = (digits n, rest) :=
  span_of_digits (fun _ hc => isDigit_of_mem_digits hc) h

/-- What a run of digits leaves does not begin with one. -/
theorem span_eq_iff {text ds rest : List Char} :
    span text = (ds, rest) ↔ text = ds ++ rest ∧ (∀ c ∈ ds, isDigit c = true) ∧
      ∀ c ∈ rest.head?, isDigit c = false := by
  refine ⟨?_, fun ⟨htext, hall, hrest⟩ => htext ▸ span_of_digits hall hrest⟩
  intro h
  rw [span, Prod.mk.injEq] at h
  obtain ⟨rfl, rfl⟩ := h
  refine ⟨List.takeWhile_append_dropWhile.symm, fun c hc => List.all_eq_true.1 List.all_takeWhile c hc, ?_⟩
  intro c hc
  have hhead := List.head?_dropWhile_not isDigit text
  rw [Option.mem_def.1 hc] at hhead
  exact hhead

/-- A whole number above zero is not written with a zero in front. -/
theorem head?_digits_ne (n : Nat) (h : n ≠ 0) : (digits n).head? ≠ some '0' := by
  induction n using Nat.strongRecOn with
  | ind n ih =>
    rw [digits, Nat.toDigits_eq_if (by decide)]
    split
    · rw [List.head?_singleton, ne_eq, Option.some.injEq, Nat.digitChar_eq_zero]
      exact h
    · -- the first digit is that of the number without its last one
      next hle =>
      have hfront := ih (n / 10) (by omega) (by omega)
      rw [digits] at hfront
      cases hdigits : Nat.toDigits 10 (n / 10) with
      | nil => exact absurd hdigits Nat.toDigits_ne_nil
      | cons c rest =>
        rw [hdigits] at hfront
        exact hfront

/-! ## Filled with zeros -/

theorem ofDigits_append_zeros (ds : List Char) (n : Nat) :
    ofDigits (ds ++ List.replicate n '0') = 10 ^ n * ofDigits ds := by
  rw [ofDigits, Nat.ofDigitChars_append, Nat.ofDigitChars_replicate_zero]
  rfl

theorem ofDigits_zeros_append (n : Nat) (ds : List Char) :
    ofDigits (List.replicate n '0' ++ ds) = ofDigits ds := by
  rw [ofDigits, Nat.ofDigitChars_append, Nat.ofDigitChars_replicate_zero, Nat.mul_zero]
  rfl

theorem isDigit_of_mem_replicate {n : Nat} {c : Char} (h : c ∈ List.replicate n '0') :
    isDigit c = true := by
  rw [List.eq_of_mem_replicate h]
  rfl

end Melody.Decimal
