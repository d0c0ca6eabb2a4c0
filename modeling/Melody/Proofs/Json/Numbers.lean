import Melody.Json.Reading
import Melody.Proofs.Outcome
import Melody.Proofs.Text.Digits

/-!
# Numbers read back

A number in a document has no closing mark: it ends where its characters end. It is the same number wherever
it stands, as long as what follows does not go on with it, and an integer of 64 bits is read back from its
own text.

## The architecture

* **`Ends`** says that a text does not go on with a number, and **`Reader.Settled`** that a reader does not
  look at such a text. The parts of a number are settled, and so is **`readNumber`**.
* **`absorb_of_lt`** and **`readNumber_signed`**: the digits of an integer that fits are all kept.
-/

namespace Melody.Json

open Outcome

variable {α β : Type}

/-! ## Where a number ends -/

/-- The characters that a number goes on with. -/
def continuesNumber (c : Char) : Bool := Decimal.isDigit c || c == '.' || c == 'e' || c == 'E'

/-- A text that does not go on with a number in front of it. -/
def Ends (rest : List Char) : Prop := ∀ c ∈ rest.head?, continuesNumber c = false

theorem ends_nil : Ends [] := nofun

theorem ends_cons {c : Char} (hc : continuesNumber c = false) (rest : List Char) : Ends (c :: rest) := by
  intro d hd
  rw [← Option.some.inj hd]
  exact hc

/-- What is read does not change with what follows, if that does not go on with a number. -/
def Reader.Settled (read : Reader α) : Prop :=
  ∀ text a left rest, read text = .ok (a, left) → Ends rest → read (text ++ rest) = .ok (a, left ++ rest)

theorem Reader.settled_ok (a : α) : Reader.Settled fun text => .ok (a, text) := by
  intro text b left rest h _
  obtain ⟨rfl, rfl⟩ := Prod.mk.inj (Except.ok.inj h)
  rfl

theorem Reader.settled_error (fault : DocumentFault) :
    Reader.Settled (fun _ => .error fault : Reader α) := nofun

/-- Readers one behind the other: if neither looks past a number, both together do not. -/
theorem Reader.Settled.bind {first : Reader α}
    {second : α × List Char → Except DocumentFault (β × List Char)} (hfirst : first.Settled)
    (hsecond : ∀ a, Reader.Settled fun left => second (a, left)) :
    Reader.Settled fun text => first text >>= second := by
  intro text b left rest h hrest
  obtain ⟨⟨a, between⟩, ha, hb⟩ := bind_eq_ok_iff.1 h
  exact bind_eq_ok_iff.2 ⟨_, hfirst text a between rest ha hrest, hsecond a between b left rest hb hrest⟩

/-! ## Parts of a number -/

namespace Numeral

variable (atEnd : DocumentFault)

/-- Digits are taken as far as they go, and there must be one. -/
theorem digitRun_eq_ok_iff {text ds left : List Char} :
    digitRun atEnd text = .ok (ds, left) ↔ ds ≠ [] ∧ Decimal.span text = (ds, left) := by
  rw [digitRun]
  split
  · next h =>
    rw [h]
    exact iff_of_false nofun fun ⟨hds, hspan⟩ => hds (Prod.mk.inj hspan).1.symm
  · next h =>
    rw [h]
    exact iff_of_false nofun fun ⟨hds, hspan⟩ => hds (Prod.mk.inj hspan).1.symm
  · -- the cases before are the runs without a digit, which no reader accepts
    next ds' left' hnil hcons h =>
    rw [h, Except.ok.injEq]
    refine ⟨fun heq => ⟨?_, heq⟩, And.right⟩
    obtain ⟨rfl, rfl⟩ := Prod.mk.inj heq
    rintro rfl
    cases left' with
    | nil => exact hnil rfl rfl
    | cons c left' => exact hcons c left' rfl rfl

/-- What follows a number does not start with a digit, so the run of digits ends where it did. -/
theorem settled_digitRun : Reader.Settled (digitRun atEnd) := by
  intro text ds left rest h hrest
  rw [digitRun_eq_ok_iff, Decimal.span_eq_iff] at h
  obtain ⟨hds, rfl, hall, hleft⟩ := h
  rw [digitRun_eq_ok_iff, Decimal.span_eq_iff]
  refine ⟨hds, List.append_assoc _ _ _, hall, ?_⟩
  -- a run that stopped stays stopped; one that reached the end must not go on into `rest`
  cases left with
  | cons c left => exact hleft
  | nil =>
    intro c hc
    have hends := hrest c hc
    rw [continuesNumber, Bool.or_eq_false_iff, Bool.or_eq_false_iff, Bool.or_eq_false_iff] at hends
    exact hends.1.1.1

/-- A zero at the beginning is refused by the digits alone. -/
theorem settled_wholePart : Reader.Settled (wholePart atEnd) := by
  refine (settled_digitRun atEnd).bind fun ds => ?_
  by_cases hzero : ds.head? = some '0' ∧ 1 < ds.length
  · simp only [if_pos hzero]
    exact Reader.settled_error _
  · simp only [if_neg hzero]
    exact Reader.settled_ok ds

theorem fractionPart_of_ne {text : List Char} (h : text.head? ≠ some '.') :
    fractionPart atEnd text = .ok ((false, []), text) := by
  rw [fractionPart]
  rintro rest rfl
  exact h rfl

/-- Whether there is a fraction is seen at the next character, and a point does not follow a number. -/
theorem settled_fractionPart : Reader.Settled (fractionPart atEnd) := by
  intro text a left rest h hrest
  by_cases hpoint : text.head? = some '.'
  · obtain ⟨behind, rfl⟩ := List.head?_eq_some_iff.1 hpoint
    exact (settled_digitRun atEnd).bind (fun ds => Reader.settled_ok (true, ds)) behind a left rest h hrest
  · rw [fractionPart_of_ne atEnd hpoint] at h
    obtain ⟨rfl, rfl⟩ := Prod.mk.inj (Except.ok.inj h)
    apply fractionPart_of_ne
    -- a number that ends here without a point is not given one by what follows
    cases text with
    | nil =>
      intro hhead
      exact absurd (hrest '.' hhead) (by decide)
    | cons c behind => exact hpoint

/-- An exponent is read up to its last digit, with or without a sign. -/
theorem settled_signedExponent : Reader.Settled (signedExponent atEnd) := by
  have hsigned (value : List Char → Int) : Reader.Settled fun text =>
      digitRun atEnd text >>= fun digits => pure (value digits.1, digits.2) :=
    (settled_digitRun atEnd).bind fun ds => Reader.settled_ok (value ds)
  intro text a left rest h hrest
  unfold signedExponent at h
  split at h
  · next behind => exact hsigned (fun ds => -(Decimal.ofDigits ds : Int)) behind a left rest h hrest
  · next behind => exact hsigned (fun ds => (Decimal.ofDigits ds : Int)) behind a left rest h hrest
  · -- without a sign the text is the same, and it is not empty
    next hminus hplus =>
    cases text with
    | nil => cases h
    | cons c behind =>
      rw [List.cons_append, signedExponent]
      · exact hsigned (fun ds => (Decimal.ofDigits ds : Int)) (c :: behind) a left rest h hrest
      · rintro tail heq
        exact hminus behind (by rw [(List.cons.inj heq).1])
      · rintro tail heq
        exact hplus behind (by rw [(List.cons.inj heq).1])

/-- Whether there is an exponent is seen at the next character, and its mark does not follow a number. -/
theorem settled_exponentPart : Reader.Settled (exponentPart atEnd) := by
  intro text a left rest h hrest
  cases text with
  | nil =>
    obtain ⟨rfl, rfl⟩ := Prod.mk.inj (Except.ok.inj h)
    rw [List.nil_append]
    cases rest with
    | nil => rfl
    | cons c rest =>
      -- at the end of the number what follows must not start with the mark
      have hends := hrest c rfl
      rw [continuesNumber, Bool.or_eq_false_iff, Bool.or_eq_false_iff, beq_eq_false_iff_ne,
        beq_eq_false_iff_ne] at hends
      rw [exponentPart, if_neg (not_or.2 ⟨hends.1.2, hends.2⟩)]
  | cons c behind =>
    rw [exponentPart] at h
    rw [List.cons_append, exponentPart]
    by_cases hmark : c = 'e' ∨ c = 'E'
    · rw [if_pos hmark] at h ⊢
      exact (settled_signedExponent atEnd).bind (fun exponent => Reader.settled_ok (some exponent))
        behind a left rest h hrest
    · rw [if_neg hmark] at h ⊢
      obtain ⟨rfl, rfl⟩ := Prod.mk.inj (Except.ok.inj h)
      rfl

/-- The parts of a number are read one behind the other. -/
theorem settled_scan : Reader.Settled (scan atEnd) := by
  -- whether there is a minus sign is seen at the first character
  have hunsigned (negative : Bool) : Reader.Settled fun text =>
      wholePart atEnd text >>= fun whole => fractionPart atEnd whole.2 >>= fun fraction =>
        exponentPart atEnd fraction.2 >>= fun exponent =>
          pure ((⟨negative, whole.1, fraction.1.2, fraction.1.1, exponent.1⟩ : Numeral), exponent.2) := by
    refine (settled_wholePart atEnd).bind fun whole => ?_
    dsimp only
    refine (settled_fractionPart atEnd).bind fun fraction => ?_
    dsimp only
    refine (settled_exponentPart atEnd).bind fun exponent => ?_
    exact Reader.settled_ok (⟨negative, whole, fraction.2, fraction.1, exponent⟩ : Numeral)
  intro text n left rest h hrest
  cases text with
  | nil => cases h
  | cons c behind =>
    cases hminus : c == '-' with
    | true =>
      have hhead (tail : List Char) : ((c :: tail).head? == some '-') = true := hminus
      rw [scan, hhead] at h
      rw [List.cons_append, scan, hhead]
      exact hunsigned true behind n left rest h hrest
    | false =>
      have hhead (tail : List Char) : ((c :: tail).head? == some '-') = false := hminus
      rw [scan, hhead] at h
      rw [List.cons_append, scan, hhead]
      exact hunsigned false (c :: behind) n left rest h hrest

end Numeral

/-- A number is read alike whatever follows it, as long as that does not go on with the number. -/
theorem settled_readNumber : Reader.Settled readNumber := by
  refine (Numeral.settled_scan .ended).bind fun numeral => ?_
  show Reader.Settled fun left => numeral.value >>= fun n => pure (n, left)
  cases numeral.value with
  | error fault => exact Reader.settled_error fault
  | ok n => exact Reader.settled_ok n

/-! ## Integers -/

namespace Numeral

/-- Digits are all kept if their number fits. -/
theorem absorb_of_lt {significand : Nat} {ds : List Char}
    (h : Nat.ofDigitChars 10 ds significand < UInt64.size) :
    absorb significand ds = (Nat.ofDigitChars 10 ds significand, []) := by
  induction ds generalizing significand with
  | nil => rw [absorb, Nat.ofDigitChars_nil]
  | cons d ds ih =>
    have hmore : significand * 10 + Decimal.ofDigits [d] = 10 * significand + (d.toNat - '0'.toNat) := by
      rw [Decimal.ofDigits, Nat.ofDigitChars_cons, Nat.ofDigitChars_nil, Nat.mul_zero, Nat.zero_add,
        Nat.mul_comm]
    rw [Nat.ofDigitChars_cons] at h ⊢
    -- the digits so far are never more than all digits, so none of them overflows
    have hle (m : Nat) : m ≤ Nat.ofDigitChars 10 ds m := by
      rw [Nat.ofDigitChars_eq_ofDigitChars_zero]
      exact Nat.le_add_right_of_le (Nat.le_mul_of_pos_left m (Nat.pow_pos (by decide)))
    rw [absorb, hmore, if_pos (Nat.lt_of_le_of_lt (hle _) h)]
    exact ih h

/-- The digits of a number have no zero in front, except for zero itself. -/
theorem wholePart_digits (atEnd : DocumentFault) (n : Nat) :
    wholePart atEnd (Decimal.digits n) = .ok (Decimal.digits n, []) := by
  have hspan : Decimal.span (Decimal.digits n ++ []) = _ := Decimal.span_digits n nofun
  rw [List.append_nil] at hspan
  have hrun := (digitRun_eq_ok_iff atEnd).2 ⟨Decimal.digits_ne_nil n, hspan⟩
  rw [wholePart, hrun]
  show (if (Decimal.digits n).head? = some '0' ∧ 1 < (Decimal.digits n).length then _ else _) = _
  rw [if_neg]
  · rfl
  · -- a leading zero is only written for zero itself, and there it is the only digit
    rintro ⟨hhead, hlength⟩
    by_cases hzero : n = 0
    · rw [hzero] at hlength
      exact absurd hlength (by decide)
    · exact Decimal.head?_digits_ne n hzero hhead

/-- A whole number is read as a numeral without fraction and exponent. -/
theorem scan_signed (atEnd : DocumentFault) (i : Int) :
    scan atEnd (Decimal.signed i) =
      .ok (⟨decide (i < 0), Decimal.digits i.natAbs, [], false, none⟩, []) := by
  cases i with
  | ofNat n =>
    -- no digit is a minus sign, so nothing is taken off
    have hminus : ((Decimal.digits n).head? == some '-') = false := by
      rw [beq_eq_false_iff_ne]
      intro hhead
      exact absurd (Decimal.isDigit_of_mem_digits (List.mem_of_head? hhead)) (by decide)
    rw [Decimal.signed, scan, hminus]
    simp only [Bool.false_eq_true, if_false]
    rw [wholePart_digits]
    rfl
  | negSucc n =>
    rw [Decimal.signed, scan, decide_eq_true (Int.negSucc_lt_zero n)]
    simp only [List.head?_cons, beq_self_eq_true, if_true, List.tail_cons]
    rw [wholePart_digits]
    rfl

end Numeral

/-- An integer is read back from its own text. -/
theorem readNumber_signed {i : Int} (hlow : -0x8000000000000000 ≤ i) (hhigh : i < UInt64.size) :
    readNumber (Decimal.signed i) = .ok (.integer i, []) := by
  have hsize : i.natAbs < UInt64.size := by
    have : (UInt64.size : Int) = 18446744073709551616 := rfl
    omega
  have hdigits : Nat.ofDigitChars 10 (Decimal.digits i.natAbs) 0 = i.natAbs :=
    Decimal.ofDigits_digits i.natAbs
  have habsorb : Numeral.absorb 0 (Decimal.digits i.natAbs) = (i.natAbs, []) := by
    rw [Numeral.absorb_of_lt (by rw [hdigits]; exact hsize), hdigits]
  -- such a numeral is an integer as long as it fits one of the two integer types
  have hvalue : Numeral.value ⟨decide (i < 0), Decimal.digits i.natAbs, [], false, none⟩ =
      .ok (.integer i) := by
    rw [Numeral.value, habsorb]
    by_cases hneg : i < 0
    · rw [decide_eq_true hneg]
      simp only [Option.isSome_none, List.isEmpty_nil, Bool.not_true, Bool.or_self,
        Bool.false_eq_true, if_false]
      rw [if_pos (by omega), Int.ofNat_natAbs_of_nonpos (by omega), Int.neg_neg]
    · rw [decide_eq_false hneg]
      simp only [Option.isSome_none, List.isEmpty_nil, Bool.not_true, Bool.or_self,
        Bool.false_eq_true, if_false, Bool.not_false, if_true]
      rw [Int.natAbs_of_nonneg (by omega)]
  rw [readNumber, Numeral.scan_signed]
  show (Numeral.value _ >>= fun n => pure (n, [])) = _
  rw [hvalue]
  rfl

end Melody.Json
