import Melody.Decimal.Scaling
import Melody.Proofs.Float.Amount

/-!
# Significands and powers of ten

A significand of sixty-four bits and a power of ten up to the largest are floats, each rounded once, and so is
their product, rounded once more. Three roundings can carry a number past the largest float, but only from close
by: three units below the top of the range nothing is lost.

## The architecture

* **`isAmount_ofNat`** and **`isAmount_powerOfTen`**: the floats of the significand and of the power.
* **`exists_scale_of_le`** and **`exists_scale_of_neg`**: what is small enough is scaled to a float, and so is
  everything that is divided.
-/

namespace Melody.Decimal

open Float.Model UnpackedFloat

/-! ## The floats of a significand and of a power -/

/-- The digits of a number text, read as a whole number, are an amount, and a rounded one from the mantissa's
size on. -/
theorem isAmount_significand (n : UInt64) : IsAmount n.toFloat (roundUnits n.toNat * unitsOfOne) := by
  apply isAmount_ofParts (holds_ofNat n.toNat)
  have hn : n.toNat < 2 ^ 64 := n.toNat_lt
  have htop : 2 ^ 12 ≤ topUnit := Nat.pow_le_pow_right Nat.two_pos (by rw [topBits_eq]; decide)
  have hle := Nat.mul_le_mul_left (2 ^ 53 - 1) htop
  omega

/-- Powers that are floats exactly are taken from a table. -/
theorem ofFloat?_powerOfTen_of_le : ∀ e ≤ 22, (Dyadic.ofFloat? (powerOfTen e)).any (fun d =>
    !d.negative && decide (-1074 ≤ d.exponent) && d.ratio.1 == 10 ^ e * d.ratio.2) = true := by
  decide +kernel

/-- The powers of ten in the table up to twenty-two are exact. -/
theorem isAmount_powerOfTen_of_le {e : Nat} (h : e ≤ 22) :
    IsAmount (powerOfTen e) (roundUnits (10 ^ e) * unitsOfOne) := by
  have hexact := ofFloat?_powerOfTen_of_le e h
  rw [Option.any_eq_true] at hexact
  obtain ⟨d, hd, hvalue⟩ := hexact
  rw [Bool.and_eq_true, Bool.and_eq_true, Bool.not_eq_true', decide_eq_true_eq, beq_iff_eq] at hvalue
  obtain ⟨⟨hsign, hleast⟩, hratio⟩ := hvalue
  -- the factor of five fits the mantissa and that of two goes into the exponent
  have hself : roundUnits (10 ^ e) = 10 ^ e := by
    have hfive : 5 ^ e < 2 ^ 53 := Nat.lt_of_le_of_lt (Nat.pow_le_pow_right (by decide) h) (by decide)
    have hshort := roundUnits_of_short e hfive
    rwa [← Nat.mul_pow] at hshort
  -- the table holds a fraction with the value of the power, which is now counted in units
  have hunits : d.mantissa * 2 ^ (d.exponent + 1074).toNat = roundUnits (10 ^ e) * unitsOfOne := by
    have hbits := unitBits_eq
    have hden : 0 < 2 ^ (-d.exponent).toNat := Nat.two_pow_pos _
    apply Nat.eq_of_mul_eq_mul_right hden
    calc d.mantissa * 2 ^ (d.exponent + 1074).toNat * 2 ^ (-d.exponent).toNat
        = d.ratio.1 * unitsOfOne := by
          rw [Dyadic.ratio, Nat.pow_eq, Nat.mul_assoc, Nat.mul_assoc, unitsOfOne, ← Nat.pow_add, ← Nat.pow_add]
          congr 2
          omega
      _ = roundUnits (10 ^ e) * unitsOfOne * 2 ^ (-d.exponent).toNat := by
          rw [hratio, hself]
          exact Nat.mul_right_comm ..
  rw [← hunits]
  refine isAmount_of_ofFloat? hd ?_
  rw [hsign]
  intro hfalse
  exact absurd hfalse Bool.false_ne_true

/-- A larger power is a product of whole numbers, rounded once. -/
theorem holds_ofScientific {e : Nat} (h : e ≤ 308) :
    Holds (roundUnits (10 ^ e) * unitsOfOne) (UnpackedFloat.ofScientific .binary64 1 e) := by
  have hbits := unitBits_eq
  -- for a power that is not negative the library multiplies and rounds once
  have hproduct : UnpackedFloat.ofScientific .binary64 1 e =
      roundWithAccuracy .binary64 .positive (2 ^ 53 * 10 ^ e) (-53) .exact := by
    have hexponents : (2 : Int) ^ Format.binary64.exponentBits = 2048 := rfl
    unfold UnpackedFloat.ofScientific
    rw [dif_neg (by decide), if_neg (by omega), if_neg (by omega), if_pos (by omega)]
    rfl
  have hpos : 0 < 2 ^ 53 * 10 ^ e := Nat.mul_pos (Nat.two_pow_pos _) (Nat.pow_pos (by decide))
  have hunits : HasUnits (2 ^ 53 * 10 ^ e) (-53) (10 ^ e * unitsOfOne) := by
    refine ⟨unitBits, 53, by omega, ?_⟩
    rw [Nat.mul_assoc, Nat.mul_comm, unitsOfOne]
  -- the product is wide enough that no bit below a unit is kept
  have hfull : 2 ^ 52 ≤ 2 ^ 53 * 10 ^ e :=
    Nat.le_trans (by decide) (Nat.le_mul_of_pos_right _ (Nat.pow_pos (by decide)))
  rw [hproduct, unitsOfOne, ← roundUnits_mul_pow, ← unitsOfOne]
  exact holds_roundWithAccuracy hpos hunits (le_of_full hpos hunits (.inl hfull))

/-- Every power of ten a float can hold is an amount, rounded once. -/
theorem isAmount_powerOfTen {e : Nat} (h : e ≤ 308) :
    IsAmount (powerOfTen e) (roundUnits (10 ^ e) * unitsOfOne) := by
  by_cases hsmall : e ≤ 22
  · exact isAmount_powerOfTen_of_le hsmall
  · -- the only number computed: the largest power of ten lies below the largest float
    have hle : 10 ^ e ≤ (2 ^ 53 - 1) * topUnit := by
      refine Nat.le_trans (Nat.pow_le_pow_right (by decide) h) ?_
      rw [topUnit, topBits_eq]
      decide +kernel
    have hparts := isAmount_ofParts (holds_ofScientific h) hle
    rw [powerOfTen, Float.ofScientific, dif_neg (by omega)]
    exact hparts

/-! ## Products and quotients -/

theorem isInf_of_isAmount {x : Float} {u : Nat} (h : IsAmount x u) : x.isInf = false := by
  show x.toModel.unpack.isInf = false
  unfold IsAmount at h
  generalize x.toModel.unpack = f at h
  cases h with
  | zero s hu => rfl
  | finite hm hcanonical hu => rfl

/-- Three roundings stay below the top of the range if they start three units below. -/
theorem product_le {m n : Nat} (h : m * n ≤ (2 ^ 53 - 3) * topUnit) :
    roundUnits m * roundUnits n ≤ (2 ^ 53 - 1) * topUnit := by
  have hm := roundUnits_mul_le m
  have hn := roundUnits_mul_le n
  -- each factor grows by at most one part in 2^53, so the product by a little over two
  have hboth := Nat.mul_le_mul hm hn
  have hgrown := Nat.mul_le_mul_right ((2 ^ 53 + 1) * (2 ^ 53 + 1)) h
  rw [Nat.mul_mul_mul_comm, Nat.mul_mul_mul_comm m] at hboth
  generalize roundUnits m * roundUnits n = rounded at *
  generalize m * n = exact at *
  generalize topUnit = unit at *
  omega

/-- A number text whose value is well below the largest float is read, though its digits, the power and the
product are rounded one after the other. -/
theorem exists_scale_of_le (n : UInt64) {e : Nat} (he : e ≤ 308)
    (h : n.toNat * 10 ^ e ≤ (2 ^ 53 - 3) * topUnit) : ∃ x, scale n.toFloat e = some x := by
  have hpower := isAmount_powerOfTen he
  have hproduct := holds_mul (isAmount_significand n) hpower
  -- three roundings, which the margin of the bound leaves room for
  have hunits : roundUnits n.toNat * (roundUnits (10 ^ e) * unitsOfOne) ≤
      (2 ^ 53 - 1) * (topUnit * unitsOfOne) := by
    rw [← Nat.mul_assoc, ← Nat.mul_assoc]
    exact Nat.mul_le_mul_right _ (product_le h)
  have hamount : IsAmount (n.toFloat * powerOfTen e) _ :=
    isAmount_pack hproduct (ofFloat?_pack_ne_none hproduct (roundUnits_lt hunits))
  rw [scale, Int.natAbs_natCast, if_pos he, if_pos (Int.natCast_nonneg e)]
  dsimp only
  rw [isInf_of_isAmount hamount, if_neg Bool.false_ne_true]
  exact ⟨_, rfl⟩

/-- A quotient is never too large, in however many steps it is taken. -/
theorem exists_scale_of_neg (x : Float) {e : Int} (he : e < 0) : ∃ y, scale x e = some y := by
  fun_induction scale x e with
  | case1 x e hstep hnonneg product hinf => omega
  | case2 x e hstep hnonneg product hinf => omega
  | case3 x e hstep hneg => exact ⟨_, rfl⟩
  | case4 x e hstep hzero => exact ⟨_, rfl⟩
  | case5 x e hstep hzero hnonneg => omega
  | case6 x e hstep hzero hneg ih => exact ih (by omega)

end Melody.Decimal
