import Melody.Proofs.Decimal.Shortest
import Melody.Proofs.Json.Codecs

/-!
# Floats read from their text

The text of a finite float is a number, and reading it gives a float, if perhaps not quite the same one. The
digits all fit the word that they are taken into, and what they are scaled to is in range
(`Dyadic.exists_ofParts_shortest`).

## The architecture

* **`Numeral.Spells`** says what a text is cut into, with a minus sign in front and without. What is put together
  from digits, a point and an exponent is cut into them (**`spells_pointed`**, **`spells_scientific`**).
* **`Numeral.value_eq_ok`**: the value of a numeral whose digits fit is its significand, scaled by its power.
* **`Reads`** is what follows for a text: **`reads_plain`** without an exponent, **`reads_scientific`** with one.
* **`unsignedText`** is the text of a finite float without its sign, and **`reads_unsignedText`** reads it.
* **`Codec.exists_rereadsAs`**: every finite float is read from its text.
-/

namespace Melody.Json

open Decimal Outcome

namespace Numeral

/-! ## Cutting -/

/-- The digits on both sides of the point as one number. -/
def significand (n : Numeral) : Nat := ofDigits (n.whole ++ n.fraction)

/-- The power of ten that the significand is scaled by. -/
def power (n : Numeral) : Int := n.exponent.getD 0 - n.fraction.length

/-- A text is cut into this number, and with a minus sign in front into its negative. -/
structure Spells (text : List Char) (n : Numeral) : Prop where
  unsigned : scan .ended text = .ok ({ n with negative := false }, [])
  signed : scan .ended ('-' :: text) = .ok ({ n with negative := true }, [])
  /-- There is a point or an exponent. -/
  real : (n.pointed || n.exponent.isSome) = true

variable {ds rest text behind after : List Char}

/-- Digits are taken up to the first character that is none. -/
theorem digitRun_append (atEnd : DocumentFault) (hne : ds ≠ []) (hall : ∀ c ∈ ds, isDigit c = true)
    (hrest : ∀ c ∈ rest.head?, isDigit c = false) : digitRun atEnd (ds ++ rest) = .ok (ds, rest) :=
  (digitRun_eq_ok_iff atEnd).2 ⟨hne, span_of_digits hall hrest⟩

/-- Digits in front of something else, with a zero in front only if it stands alone. -/
theorem wholePart_append (atEnd : DocumentFault) (hne : ds ≠ []) (hall : ∀ c ∈ ds, isDigit c = true)
    (hzero : ds.head? = some '0' → ds.length = 1) (hrest : ∀ c ∈ rest.head?, isDigit c = false) :
    wholePart atEnd (ds ++ rest) = .ok (ds, rest) := by
  rw [wholePart, digitRun_append atEnd hne hall hrest]
  show (if ds.head? = some '0' ∧ 1 < ds.length then _ else _) = _
  rw [if_neg]
  · rfl
  · rintro ⟨hhead, hlength⟩
    have hone := hzero hhead
    omega

theorem fractionPart_append (atEnd : DocumentFault) (hne : ds ≠ []) (hall : ∀ c ∈ ds, isDigit c = true)
    (hrest : ∀ c ∈ rest.head?, isDigit c = false) :
    fractionPart atEnd ('.' :: (ds ++ rest)) = .ok ((true, ds), rest) := by
  rw [fractionPart, digitRun_append atEnd hne hall hrest]
  rfl

/-- An exponent is written with its sign in either case, and read back with it. -/
theorem exponentPart_append (atEnd : DocumentFault) (point : Int) :
    exponentPart atEnd ((if point < 0 then ['e', '-'] else ['e', '+']) ++ digits point.natAbs) =
      .ok (some point, []) := by
  have hrun : digitRun atEnd (digits point.natAbs ++ []) = .ok (digits point.natAbs, []) :=
    digitRun_append atEnd (digits_ne_nil _) (fun _ hc => isDigit_of_mem_digits hc) nofun
  rw [List.append_nil] at hrun
  -- the sign is written in both cases, and the digits are those of the absolute value
  split
  · next hneg =>
    show (signedExponent atEnd ('-' :: digits point.natAbs) >>= _) = _
    rw [signedExponent, hrun]
    show Except.ok (some (-(ofDigits (digits point.natAbs) : Int)), []) = _
    rw [ofDigits_digits, Int.ofNat_natAbs_of_nonpos (by omega), Int.neg_neg]
  · next hpos =>
    show (signedExponent atEnd ('+' :: digits point.natAbs) >>= _) = _
    rw [signedExponent, hrun]
    show Except.ok (some (ofDigits (digits point.natAbs) : Int), []) = _
    rw [ofDigits_digits, Int.natAbs_of_nonneg (by omega)]

/-- A text that is cut into whole part, fraction and exponent spells the numeral of these parts, with and
without a sign in front. -/
theorem spells_of_parts {n : Numeral} (hhead : text.head? ≠ some '-')
    (hwhole : wholePart .ended text = .ok (n.whole, behind))
    (hfraction : fractionPart .ended behind = .ok ((n.pointed, n.fraction), after))
    (hexponent : exponentPart .ended after = .ok (n.exponent, []))
    (hreal : (n.pointed || n.exponent.isSome) = true) : Spells text n := by
  -- behind the sign both texts are cut alike
  have hparts (negative : Bool) :
      (wholePart .ended text >>= fun whole => fractionPart .ended whole.2 >>= fun fraction =>
        exponentPart .ended fraction.2 >>= fun exponent =>
          pure ((⟨negative, whole.1, fraction.1.2, fraction.1.1, exponent.1⟩ : Numeral), exponent.2)) =
        .ok ({ n with negative }, []) := by
    rw [hwhole]
    show (fractionPart .ended behind >>= _) = _
    rw [hfraction]
    show (exponentPart .ended after >>= _) = _
    rw [hexponent]
    rfl
  constructor
  · have hminus : (text.head? == some '-') = false := beq_eq_false_iff_ne.2 hhead
    rw [scan, hminus]
    exact hparts false
  · exact hparts true
  · exact hreal

/-! ## Values -/

/-- A number whose digits fit a word is not shortened, and it is what its significand is scaled to. -/
theorem value_eq_ok {n : Numeral} (hreal : (n.pointed || n.exponent.isSome) = true)
    (hfits : n.significand < UInt64.size) {x : Float}
    (hx : ofParts (UInt64.ofNat n.significand) n.power = some x) :
    n.value = .ok (.real (if n.negative then -x else x)) := by
  -- the digits of whole part and fraction make one number
  have hall : Nat.ofDigitChars 10 n.fraction (Nat.ofDigitChars 10 n.whole 0) = n.significand := by
    rw [significand, ofDigits, Nat.ofDigitChars_append]
  have hwhole : Nat.ofDigitChars 10 n.whole 0 < UInt64.size := by
    refine Nat.lt_of_le_of_lt ?_ hfits
    have hpow : 0 < 10 ^ n.fraction.length := Nat.pow_pos (by decide)
    rw [← hall, Nat.ofDigitChars_eq_ofDigitChars_zero (l := n.fraction)]
    exact Nat.le_add_right_of_le (Nat.le_mul_of_pos_left _ hpow)
  -- no digit is left out, so the power is that of the last digit
  have hpower : (([] : List Char).length : Int) - ((n.fraction.length - ([] : List Char).length : Nat) : Int) +
      n.exponent.getD 0 = n.power := by
    rw [power, List.length_nil, Nat.sub_zero]
    omega
  rw [value, absorb_of_lt hwhole]
  dsimp only
  rw [absorb_of_lt (by rw [hall]; exact hfits), hreal, Bool.true_or, if_pos rfl, hall]
  dsimp only
  rw [hpower, hx]

/-! ## The forms of a float -/

theorem head?_append_ne (hne : ds ≠ []) (hall : ∀ c ∈ ds, isDigit c = true) (rest : List Char) :
    (ds ++ rest).head? ≠ some '-' := by
  rw [List.head?_append_of_ne_nil _ hne]
  intro hhead
  exact absurd (hall '-' (List.mem_of_head? hhead)) (by decide)

/-- A text whose first character is no digit stops a run of digits. -/
theorem isDigit_head?_eq_false {c : Char} (h : text.head? = some c) (hc : isDigit c = false) :
    ∀ d ∈ text.head?, isDigit d = false := by
  intro d hd
  rw [h] at hd
  rw [← Option.some.inj hd]
  exact hc

/-- Digits, a point and digits. -/
theorem spells_pointed {ds fs : List Char} (hds : ds ≠ []) (hfs : fs ≠ [])
    (hdigits : ∀ c ∈ ds, isDigit c = true) (hfraction : ∀ c ∈ fs, isDigit c = true)
    (hzero : ds.head? = some '0' → ds.length = 1) :
    Spells (ds ++ '.' :: fs) ⟨false, ds, fs, true, none⟩ := by
  have hbehind : fractionPart .ended ('.' :: (fs ++ [])) = .ok ((true, fs), []) :=
    fractionPart_append .ended hfs hfraction nofun
  rw [List.append_nil] at hbehind
  exact spells_of_parts (head?_append_ne hds hdigits _)
    (wholePart_append .ended hds hdigits hzero (isDigit_head?_eq_false rfl rfl)) hbehind rfl rfl

section Scientific

variable {one : Char} {more power : List Char} {point : Int}

/-- One digit, with an exponent behind it. -/
theorem spells_lone (hone : isDigit one = true) (hmark : power.head? = some 'e')
    (hpower : exponentPart .ended power = .ok (some point, [])) :
    Spells (one :: power) ⟨false, [one], [], false, some point⟩ := by
  have hdigit : ∀ c ∈ [one], isDigit c = true := List.forall_mem_singleton.2 hone
  have hne := List.cons_ne_nil one []
  have hends := isDigit_head?_eq_false hmark rfl
  -- one digit and an exponent: there is no fraction, since the next character is the `e`
  have hnopoint : power.head? ≠ some '.' := by
    rw [hmark]
    decide
  exact spells_of_parts (head?_append_ne hne hdigit power)
    (wholePart_append .ended hne hdigit (fun _ => rfl) hends) (fractionPart_of_ne .ended hnopoint) hpower rfl

/-- One digit in front of the point, and an exponent behind the others. -/
theorem spells_marked (hone : isDigit one = true) (hmore : ∀ c ∈ more, isDigit c = true) (hne : more ≠ [])
    (hmark : power.head? = some 'e') (hpower : exponentPart .ended power = .ok (some point, [])) :
    Spells (one :: '.' :: (more ++ power)) ⟨false, [one], more, true, some point⟩ := by
  have hdigit : ∀ c ∈ [one], isDigit c = true := List.forall_mem_singleton.2 hone
  have hcons := List.cons_ne_nil one []
  have hends := isDigit_head?_eq_false hmark rfl
  have hpoint : ∀ c ∈ ('.' :: (more ++ power)).head?, isDigit c = false := isDigit_head?_eq_false rfl rfl
  exact spells_of_parts (head?_append_ne hcons hdigit ('.' :: (more ++ power)))
    (wholePart_append .ended hcons hdigit (fun _ => rfl) hpoint)
    (fractionPart_append .ended hne hmore hends) hpower rfl

end Scientific

/-- A number with an exponent has its digits around the point, and the exponent says where they belong. -/
theorem spells_scientific (d : Scientific) :
    ∃ n : Numeral, Spells (Layout.scientific d) n ∧ n.significand = d.significand ∧
      n.power = d.exponent := by
  have hdigit : ∀ c ∈ digits d.significand, isDigit c = true := fun c hc => isDigit_of_mem_digits hc
  have hvalue := ofDigits_digits d.significand
  have hpower := exponentPart_append .ended d.point
  have hmark : ((if d.point < 0 then ['e', '-'] else ['e', '+']) ++ digits d.point.natAbs).head? =
      some 'e' := by
    split
    · rfl
    · rfl
  have hpoint : d.point = d.exponent + ((digits d.significand).length - 1) := rfl
  unfold Layout.scientific
  dsimp only
  -- one digit is written without a point, more with one behind the first
  match hds : digits d.significand with
  | [] => exact absurd hds (digits_ne_nil _)
  | [one] =>
    rw [hds] at hdigit hvalue hpoint
    refine ⟨_, spells_lone (hdigit one List.mem_cons_self) hmark hpower, hvalue, ?_⟩
    show d.point - (0 : Nat) = d.exponent
    rw [hpoint]
    simp
  | one :: another :: more =>
    rw [hds] at hdigit hvalue hpoint
    rw [List.forall_mem_cons] at hdigit
    dsimp only
    rw [List.append_assoc, List.cons_append, List.cons_append]
    refine ⟨_, spells_marked hdigit.1 hdigit.2 (List.cons_ne_nil _ _) hmark hpower, hvalue, ?_⟩
    show d.point - ((another :: more).length : Nat) = d.exponent
    rw [hpoint, List.length_cons]
    omega

end Numeral

/-! ## Reading -/

/-- A number is read from the text, with and without a minus sign in front. -/
structure Reads (text : List Char) : Prop where
  unsigned : ∃ n, readNumber text = .ok (n, [])
  signed : ∃ n, readNumber ('-' :: text) = .ok (n, [])

theorem Numeral.Spells.reads {text : List Char} {n : Numeral} (h : n.Spells text)
    (hfits : n.significand < UInt64.size) {x : Float}
    (hx : ofParts (UInt64.ofNat n.significand) n.power = some x) : Reads text := by
  have hvalue (negative : Bool) :
      Numeral.value { n with negative } = .ok (.real (if negative then -x else x)) :=
    Numeral.value_eq_ok (n := { n with negative }) h.real hfits hx
  constructor
  · refine ⟨.real x, ?_⟩
    -- without a sign the value is that of the numeral
    rw [readNumber, h.unsigned]
    show (Numeral.value _ >>= _) = _
    rw [hvalue]
    rfl
  · refine ⟨.real (-x), ?_⟩
    -- with one it is the opposite
    rw [readNumber, h.signed]
    show (Numeral.value _ >>= _) = _
    rw [hvalue]
    rfl

/-- Digits behind a point and no exponent: the significand is divided, which is always possible. -/
theorem reads_pointed {ds fs : List Char} (hds : ds ≠ []) (hfs : fs ≠ [])
    (hdigits : ∀ c ∈ ds, isDigit c = true) (hfraction : ∀ c ∈ fs, isDigit c = true)
    (hzero : ds.head? = some '0' → ds.length = 1) (hfits : ofDigits (ds ++ fs) < UInt64.size) :
    Reads (ds ++ '.' :: fs) := by
  have hpower : (0 : Int) - (fs.length : Int) < 0 := by
    have hlength := List.length_pos_iff.2 hfs
    omega
  obtain ⟨x, hx⟩ := exists_scale_of_neg (UInt64.ofNat (ofDigits (ds ++ fs))).toFloat hpower
  exact (Numeral.spells_pointed hds hfs hdigits hfraction hzero).reads hfits hx

/-- The text with an exponent reads as a number, since its digits fit and the scaling does not overflow. -/
theorem reads_scientific {d : Scientific} (hlength : d.significand ≤ 10 ^ 17) {x : Float}
    (hx : ofParts (UInt64.ofNat d.significand) d.exponent = some x) : Reads (Layout.scientific d) := by
  obtain ⟨n, hspells, hsignificand, hpower⟩ := Numeral.spells_scientific d
  rw [← hsignificand, ← hpower] at hx
  refine hspells.reads ?_ hx
  rw [hsignificand]
  exact Nat.lt_of_le_of_lt hlength (by decide)

section Plain

variable {m : Nat}

/-- Zeros up to the point, and one behind it. -/
theorem reads_whole {zeros : Nat} (hpos : 0 < m) (hfits : 10 ^ 1 * (10 ^ zeros * m) < UInt64.size) :
    Reads (digits m ++ List.replicate zeros '0' ++ ['.', '0']) := by
  have hne := digits_ne_nil m
  apply reads_pointed (List.append_ne_nil_of_left_ne_nil hne _) (List.cons_ne_nil '0' [])
  · intro c hc
    rcases List.mem_append.1 hc with hc | hc
    · exact isDigit_of_mem_digits hc
    · exact isDigit_of_mem_replicate hc
  · intro c hc
    exact isDigit_of_mem_replicate (n := 1) hc
  · intro hhead
    rw [List.head?_append_of_ne_nil _ hne] at hhead
    exact absurd hhead (head?_digits_ne m (by omega))
  · -- the zeros behind the digits and behind the point multiply the number
    show ofDigits (digits m ++ List.replicate zeros '0' ++ List.replicate 1 '0') < _
    rw [ofDigits_append_zeros, ofDigits_append_zeros, ofDigits_digits]
    exact hfits

/-- The point among the digits. -/
theorem reads_split {places : Nat} (hpos : 0 < m) (hfits : m < UInt64.size) (hplaces : 0 < places)
    (hlt : places < (digits m).length) :
    Reads ((digits m).take ((digits m).length - places) ++
      '.' :: (digits m).drop ((digits m).length - places)) := by
  apply reads_pointed
  · rw [ne_eq, List.take_eq_nil_iff, not_or]
    exact ⟨by omega, digits_ne_nil m⟩
  · rw [ne_eq, List.drop_eq_nil_iff]
    omega
  · intro c hc
    exact isDigit_of_mem_digits (List.mem_of_mem_take hc)
  · intro c hc
    exact isDigit_of_mem_digits (List.mem_of_mem_drop hc)
  · intro hhead
    rw [List.head?_take, if_neg (by omega)] at hhead
    exact absurd hhead (head?_digits_ne m (by omega))
  · -- the digits around the point are those of the number
    rw [List.take_append_drop, ofDigits_digits]
    exact hfits

/-- The point in front of all digits, with zeros between. -/
theorem reads_small (zeros : Nat) (hfits : m < UInt64.size) :
    Reads (['0', '.'] ++ List.replicate zeros '0' ++ digits m) := by
  have hne : List.replicate zeros '0' ++ digits m ≠ [] :=
    List.append_ne_nil_of_right_ne_nil _ (digits_ne_nil m)
  apply reads_pointed (List.cons_ne_nil '0' []) hne
  · intro c hc
    exact isDigit_of_mem_replicate (n := 1) hc
  · intro c hc
    rcases List.mem_append.1 hc with hc | hc
    · exact isDigit_of_mem_replicate hc
    · exact isDigit_of_mem_digits hc
  · intro _
    rfl
  · -- zeros in front do not count
    show ofDigits (List.replicate (zeros + 1) '0' ++ digits m) < _
    rw [ofDigits_zeros_append, ofDigits_digits]
    exact hfits

end Plain

/-- A text without an exponent reads as a number: for each of its three layouts the digits fit a word. -/
theorem reads_plain {d : Scientific} (hpos : 0 < d.significand) (hlength : d.significand ≤ 10 ^ 17)
    (hpoint : d.point ≤ 15) : Reads (document.plain d) := by
  have hfits : d.significand < UInt64.size := Nat.lt_of_le_of_lt hlength (by decide)
  unfold Layout.plain
  dsimp only
  by_cases hwhole : 0 ≤ d.exponent
  · rw [if_pos hwhole, if_pos (show document.wholeWithPoint = true from rfl)]
    apply reads_whole hpos
    have hlt := lt_pow_length_digits d.significand
    have hplaces : d.exponent.toNat + (digits d.significand).length ≤ 16 := by
      rw [Scientific.point] at hpoint
      omega
    -- digits and zeros together are sixteen at most
    have hgrown : 10 ^ d.exponent.toNat * d.significand < 10 ^ 16 := by
      refine Nat.lt_of_lt_of_le (Nat.mul_lt_mul_of_pos_left hlt (Nat.pow_pos (by decide))) ?_
      rw [← Nat.pow_add]
      exact Nat.pow_le_pow_right (by decide) hplaces
    have hsize : UInt64.size = 18446744073709551616 := rfl
    omega
  · rw [if_neg hwhole]
    by_cases hplaces : (-d.exponent).toNat < (digits d.significand).length
    · rw [if_pos hplaces]
      exact reads_split hpos hfits (by omega) hplaces
    · rw [if_neg hplaces]
      exact reads_small _ hfits

/-- The text of a finite float without its sign. -/
def unsignedText (d : Decimal.Dyadic) : List Char :=
  if d.mantissa == 0 then document.plain ⟨0, 0⟩
  else if document.positional (d.shortest .toEven).point then document.plain (d.shortest .toEven)
  else Layout.scientific (d.shortest .toEven)

/-- The text of a finite number is a sign and the text of its size. -/
theorem render_of_ofFloat? {x : Float} {d : Decimal.Dyadic} (h : Decimal.Dyadic.ofFloat? x = some d) :
    document.render x = if d.negative then '-' :: unsignedText d else unsignedText d := by
  rw [Layout.render, h]
  rfl

/-- The text of the size of a finite number reads as a number, whichever layout it has. -/
theorem reads_unsignedText {d : Decimal.Dyadic} (hshort : d.mantissa < 2 ^ 53) (hexponent : d.exponent ≤ 971) :
    Reads (unsignedText d) := by
  unfold unsignedText
  by_cases hzero : d.mantissa = 0
  · rw [if_pos (beq_iff_eq.2 hzero)]
    exact ⟨⟨.real 0, by decide +kernel⟩, ⟨.real (-0), by decide +kernel⟩⟩
  · have hpos : 0 < d.mantissa := Nat.pos_of_ne_zero hzero
    have hbounds := Decimal.Dyadic.shortest_bounds .toEven hpos hshort
    obtain ⟨x, hx⟩ := Decimal.Dyadic.exists_ofParts_shortest hpos hshort hexponent
    rw [if_neg (by rw [beq_iff_eq]; exact hzero)]
    -- the layout with an exponent is for numbers that would need many zeros
    split
    · next hpositional =>
      have hpoint : (d.shortest .toEven).point ≤ 15 := by
        have hboth : (-5 ≤ (d.shortest .toEven).point && (d.shortest .toEven).point ≤ 15) = true :=
          hpositional
        rw [Bool.and_eq_true, decide_eq_true_eq, decide_eq_true_eq] at hboth
        exact hboth.2
      exact reads_plain hbounds.pos hbounds.length hpoint
    · exact reads_scientific hbounds.length hx

/-- **Every finite float is read** from its text, though perhaps as another one. -/
theorem Codec.exists_rereadsAs {x : Float} (h : x.isFinite = true) : ∃ y, RereadsAs x y := by
  rw [← isSome_ofFloat?] at h
  obtain ⟨d, hd⟩ := Option.isSome_iff_exists.1 h
  obtain ⟨hshort, hexponent⟩ := bounds_of_ofFloat? hd
  have hreads := reads_unsignedText hshort hexponent
  obtain ⟨n, hn⟩ : ∃ n, readNumber (document.render x) = .ok (n, []) := by
    -- what is written is the text of the absolute value, behind a sign or not
    rw [render_of_ofFloat? hd]
    split
    · exact hreads.signed
    · exact hreads.unsigned
  refine ⟨n.toFloat, ?_⟩
  rw [RereadsAs, hn]
  rfl

end Melody.Json
