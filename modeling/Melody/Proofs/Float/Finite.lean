import Melody.Proofs.Float.Scaling

/-!
# Floats that are read are finite

A decimal that is too large for a float is refused, and one that is scaled down cannot grow too large. So every
float that is made of a significand and a power of ten is finite.

## The architecture

* **`Bounded`** are the parts of a float whose exponent is small enough: packed they are finite
  (**`isFinite_pack`**), and a finite float has such parts (**`bounded_unpack`**).
* **`bounded_roundWithAccuracy`**: how far rounding can raise an exponent, whatever was lost before.
* **`isFinite_div`** and **`isFinite_of_holds`**: a quotient by two or more is finite, and a product is unless
  it is infinite.
* **`isFinite_of_ofParts`** puts this together.
-/

namespace Melody.Decimal

open Float.Model UnpackedFloat

/-! ## Parts -/

/-- The parts of a number that are not too large to be packed. -/
inductive Bounded : UnpackedFloat → Prop
  | zero (s : Sign) : Bounded (.zero s)
  | finite {s : Sign} {m : Nat} {e : Int} (hm : 0 < m) (he : e ≤ 971) : Bounded (.finite s m e hm)

variable {f g : UnpackedFloat} {x y : Float}

/-- A float is finite unless its exponent field is full. -/
theorem isFinite_iff (x : Float) :
    x.isFinite = true ↔ exponentField x.toModel.toBits.toBitVec ≠ 2047 := by
  rw [← isSome_ofFloat?, ofFloat?_eq_fieldValue?, fieldValue?]
  split
  · next h => exact iff_of_false Bool.false_ne_true (not_not.2 h)
  · next h =>
    refine iff_of_true ?_ h
    split
    · rfl
    · rfl

theorem isFinite_pack (h : Bounded f) : (Float.ofModel (.pack f)).isFinite = true := by
  cases h with
  | zero s =>
    cases s with
    | negative => decide
    | positive => decide
  | @finite s m e hm he =>
    rw [isFinite_iff]
    show exponentField (UnpackedFloat.pack .binary64 (.finite s m e hm)) ≠ 2047
    have hbias : (Format.binary64.exponentBias : Int) + Format.binary64.mantissaBitsWithoutImplicit = 1075 := rfl
    have hbits : 2 ^ Format.binary64.exponentBits = 2048 := rfl
    unfold UnpackedFloat.pack
    dsimp only
    -- the exponent field of a bounded number is below the full one
    rw [Int.add_assoc, hbias, hbits, if_neg (by omega)]
    split
    · rw [exponentField_packComponents]
      show (BitVec.ofNat 11 (e + 1075).toNat).toNat ≠ 2047
      rw [BitVec.toNat_ofNat, Nat.mod_eq_of_lt (by omega)]
      omega
    · rw [exponentField_packComponents]
      decide

theorem bounded_unpack (h : x.isFinite = true) : Bounded x.toModel.unpack := by
  have h : x.toModel.unpack.isFinite = true := h
  generalize hx : x.toModel.unpack = f at h
  cases f with
  | infinity s => cases h
  | notANumber => cases h
  | zero s => exact .zero s
  | finite s m e hm => exact .finite hm (canonical_of_unpack hx).2

/-- The sign has its own bit, so turning it leaves a number finite. -/
theorem isFinite_neg (h : x.isFinite = true) : (-x).isFinite = true := by
  have hparts := bounded_unpack h
  show (Float.ofModel (.pack x.toModel.unpack.neg)).isFinite = true
  generalize x.toModel.unpack = f at hparts
  apply isFinite_pack
  cases hparts with
  | zero s => exact .zero _
  | finite hm he => exact .finite _ he

/-- An amount is finite, since it is made of a number of units. -/
theorem isFinite_of_isAmount {u : Nat} (h : IsAmount x u) : x.isFinite = true := by
  show x.toModel.unpack.isFinite = true
  unfold IsAmount at h
  generalize x.toModel.unpack = f at h
  cases h with
  | zero s hu => rfl
  | finite hm hcanonical hu => rfl

/-! ## Rounding -/

/-- A shift drops bits of the mantissa, whatever is remembered of those it drops. Induction over the shift,
one bit at a time. -/
theorem mantissa_shiftRight (em : ExtendedMantissa) (n : Nat) :
    (em >>> n).mantissa = em.mantissa / 2 ^ n := by
  show (n.repeat ExtendedMantissa.shiftRightOne em).mantissa = _
  induction n with
  | zero => rw [Nat.pow_zero, Nat.div_one]; rfl
  | succ n ih =>
    show (n.repeat ExtendedMantissa.shiftRightOne em).mantissa / 2 = _
    rw [ih, Nat.div_div_eq_div_mul, Nat.pow_succ]

/-- How exact a mantissa is stands beside it and does not change it. -/
theorem mantissa_ofMantissaAndAccuracy (m : Nat) (accuracy : Accuracy) :
    (ExtendedMantissa.ofMantissaAndAccuracy m accuracy).mantissa = m := by
  unfold ExtendedMantissa.ofMantissaAndAccuracy
  split
  · rfl
  · rfl
  · rfl
  · rfl

theorem roundedMantissa_le (em : ExtendedMantissa) : em.roundedMantissa ≤ em.mantissa + 1 := by
  show Accuracy.roundToNearestEven em.mantissa em.accuracy ≤ _
  unfold Accuracy.roundToNearestEven
  split
  · omega
  · omega
  · omega
  · omega

/-- What is left of a mantissa, rounded, has at most one bit more than was left. -/
theorem log2_rounded_le {m k r : Nat} (h : r ≤ m / 2 ^ k + 1) : r.log2 + k ≤ m.log2 + 1 ∨ r.log2 = 0 := by
  -- as long as bits are left, one more at most is needed for the rounded number; otherwise it is zero or one
  by_cases hk : k ≤ m.log2 + 1
  · left
    have hm : m < 2 ^ (m.log2 + 1 - k) * 2 ^ k := by
      rw [← Nat.pow_add, Nat.sub_add_cancel hk]
      exact Nat.lt_log2_self
    have hleft : m / 2 ^ k < 2 ^ (m.log2 + 1 - k) := (Nat.div_lt_iff_lt_mul (Nat.two_pow_pos k)).2 hm
    have hr : r.log2 ≤ m.log2 + 1 - k := by
      rcases Nat.eq_zero_or_pos r with rfl | hpos
      · exact Nat.zero_le _
      · refine Nat.le_of_lt_succ ((Nat.log2_lt (Nat.ne_of_gt hpos)).2 ?_)
        rw [Nat.pow_succ]
        omega
    omega
  · right
    have hm : m < 2 ^ k := Nat.lt_of_lt_of_le Nat.lt_log2_self (Nat.pow_le_pow_right Nat.two_pos (by omega))
    rw [Nat.div_eq_of_lt hm] at h
    rcases Nat.le_one_iff_eq_zero_or_eq_one.1 h with rfl | rfl
    · rfl
    · rfl

theorem targetExponent_eq (m : Nat) (e : Int) :
    Format.binary64.targetExponent (totalExponent m e) = max ((m.log2 : Int) + 1 + e - 53) (-1074) := rfl

/-- Rounding leaves no more than fifty-three bits, and raises the exponent by one more if they overflow. -/
theorem bounded_roundWithAccuracy {s : Sign} {m : Nat} {e : Int} {accuracy : Accuracy}
    (he : e ≤ 970) (hm : (m.log2 : Int) + e ≤ 1022) :
    Bounded (roundWithAccuracy .binary64 s m e accuracy) := by
  unfold roundWithAccuracy shiftToTargetExponent shiftToExponent
  dsimp only
  rw [targetExponent_eq]
  generalize hk : (max ((m.log2 : Int) + 1 + e - 53) (-1074) - e).toNat = k
  have hrounded := roundedMantissa_le (ExtendedMantissa.ofMantissaAndAccuracy m accuracy >>> k)
  rw [mantissa_shiftRight, mantissa_ofMantissaAndAccuracy] at hrounded
  generalize (ExtendedMantissa.ofMantissaAndAccuracy m accuracy >>> k).roundedMantissa = r at hrounded ⊢
  -- the number of bits that are left bounds the exponent, since rounding adds one bit at most
  have hlog := log2_rounded_le hrounded
  rw [targetExponent_eq]
  split
  · exact .zero s
  · refine .finite _ ?_
    omega

/-! ## Quotients and products -/

/-- The bits of a quotient and of its divisor are not more than those of what is divided. -/
theorem log2_div_add_le {a b : Nat} (hb : 0 < b) (hquotient : 0 < a / b) :
    (a / b).log2 + b.log2 ≤ a.log2 := by
  have hle := Nat.mul_le_mul (Nat.log2_self_le (Nat.ne_of_gt hquotient)) (Nat.log2_self_le (Nat.ne_of_gt hb))
  rw [← Nat.pow_add] at hle
  have ha : 2 ^ ((a / b).log2 + b.log2) ≤ a := Nat.le_trans hle (Nat.div_mul_le_self a b)
  exact (Nat.le_log2 (Nat.ne_of_gt (Nat.lt_of_lt_of_le (Nat.two_pow_pos _) ha))).2 ha

/-- A quotient by two or more is not too large. -/
theorem bounded_div {s s' : Sign} {m m' : Nat} {e e' : Int} {hm : 0 < m} {hm' : 0 < m'}
    (h : (m.log2 : Int) + e ≤ 1023) (h' : 1 ≤ (m'.log2 : Int) + e') :
    Bounded (UnpackedFloat.div .binary64 (.finite s m e hm) (.finite s' m' e' hm')) := by
  have htarget : Format.binary64.targetExponent (totalExponent m e - totalExponent m' e') =
      max (((m.log2 : Int) + 1 + e) - ((m'.log2 : Int) + 1 + e') - 53) (-1074) := rfl
  unfold UnpackedFloat.div divCore
  dsimp only
  rw [htarget]
  generalize ht : min (e - e') (max (((m.log2 : Int) + 1 + e) - ((m'.log2 : Int) + 1 + e') - 53) (-1074)) = t
  generalize hk : (e - e' - t).toNat = k
  -- the mantissa is widened first, so that the quotient has the bits of a full mantissa
  rw [Nat.shiftLeft_eq]
  apply bounded_roundWithAccuracy
  · omega
  · rcases Nat.eq_zero_or_pos (m * 2 ^ k / m') with hzero | hpos
    · rw [hzero, Nat.log2_zero]
      omega
    · have hlog := log2_div_add_le hm' hpos
      rw [log2_mul_pow hm] at hlog
      omega

/-- A float of two or more, by its parts. -/
def IsTwoOrMore (y : Float) : Prop :=
  ∃ s m e hm, y.toModel.unpack = .finite s m e hm ∧ 1 ≤ (m.log2 : Int) + e

theorem isFinite_div (hx : x.isFinite = true) (hy : IsTwoOrMore y) : (x / y).isFinite = true := by
  obtain ⟨s', m', e', hm', hparts, hlarge⟩ := hy
  show (Float.ofModel (.pack (UnpackedFloat.div .binary64 x.toModel.unpack y.toModel.unpack))).isFinite = true
  have hx : x.toModel.unpack.isFinite = true := hx
  rw [hparts]
  generalize hunpack : x.toModel.unpack = f at hx
  cases f with
  | infinity s => cases hx
  | notANumber => cases hx
  | zero s => exact isFinite_pack (.zero _)
  | finite s m e hm =>
    obtain ⟨hcanonical, hexponent⟩ := canonical_of_unpack hunpack
    -- a full mantissa and the largest exponent: a division by two or more lowers it by one
    have hlog : m.log2 < 53 := (Nat.log2_lt (Nat.ne_of_gt hm)).2 hcanonical.short
    exact isFinite_pack (bounded_div (by omega) hlarge)

/-- A power of ten is ten at least. -/
theorem isTwoOrMore_powerOfTen {n : Nat} (hpos : 0 < n) (hn : n ≤ 308) : IsTwoOrMore (powerOfTen n) := by
  have hpower := isAmount_powerOfTen hn
  have hten : 10 ≤ roundUnits (10 ^ n) := by
    have hmono := roundUnits_mono (Nat.le_self_pow (Nat.ne_of_gt hpos) 10)
    rwa [roundUnits_eq_self (by decide : 10 < 2 ^ 53)] at hmono
  unfold IsAmount at hpower
  generalize hunpack : (powerOfTen n).toModel.unpack = f at hpower
  have hunits := unitsOfOne_pos
  cases hpower with
  | zero s hu =>
    have hne := Nat.mul_ne_zero (show roundUnits (10 ^ n) ≠ 0 by omega) (Nat.ne_of_gt hunits)
    exact absurd hu hne
  | @finite m e hm hcanonical hu =>
    refine ⟨.positive, m, e, hm, hunpack, ?_⟩
    -- the units are counted by their highest bit
    have hlog : (roundUnits (10 ^ n)).log2 + unitBits = m.log2 + (e + 1074).toNat := by
      rw [← log2_mul_pow (by omega), ← log2_mul_pow hm, ← hu, unitsOfOne]
    have hbits := unitBits_eq
    have hleast := hcanonical.least
    have hthree : 3 ≤ (roundUnits (10 ^ n)).log2 := (Nat.le_log2 (by omega)).2 (by omega)
    omega

/-- What is packed of an amount is finite or infinite. -/
theorem isFinite_of_holds {u : Nat} (h : Holds u f) (hinf : (Float.ofModel (.pack f)).isInf = false) :
    (Float.ofModel (.pack f)).isFinite = true := by
  cases h with
  | zero s hu => exact isFinite_pack (.zero s)
  | @finite m e hm hcanonical hu =>
    by_cases hlarge : 971 < e
    · -- an exponent above the range is packed as infinity, which was ruled out
      have hpack : Float.Model.pack (.finite .positive m e hm) = .pack (.infinity .positive) := by
        have hbits := pack_canonical hcanonical .positive
        rw [if_pos hlarge] at hbits
        simp only [Float.Model.pack, hbits]
        rfl
      rw [hpack] at hinf
      exact absurd hinf (by decide)
    · exact isFinite_pack (.finite hm (Int.not_lt.1 hlarge))

/-! ## Decimals -/

/-- What is divided, in however many steps, stays finite. -/
theorem isFinite_of_scale_neg {exponent : Int} (hx : x.isFinite = true) (hneg : exponent < 0)
    (h : scale x exponent = some y) : y.isFinite = true := by
  -- a negative exponent only ever divides, and dividing by two or more keeps a float finite
  fun_induction scale x exponent with
  | case1 x exponent hstep hnonneg => omega
  | case2 x exponent hstep hnonneg => omega
  | case3 x exponent hstep =>
    obtain rfl := Option.some.inj h
    exact isFinite_div hx (isTwoOrMore_powerOfTen (by omega) hstep)
  | case4 x exponent hstep hzero =>
    obtain rfl := Option.some.inj h
    exact hx
  | case5 x exponent hstep hzero hnonneg => omega
  | case6 x exponent hstep hzero hnonneg ih =>
    exact ih (isFinite_div hx (isTwoOrMore_powerOfTen (by decide) (by decide))) (by omega) h

/-- What is multiplied is asked whether it has become infinite. -/
theorem isFinite_of_scale_nonneg {significand : UInt64} {exponent : Int} (hnonneg : 0 ≤ exponent)
    (h : scale significand.toFloat exponent = some y) : y.isFinite = true := by
  have hamount := isAmount_significand significand
  rw [scale] at h
  split at h
  · next hstep =>
    dsimp only at h
    split at h
    · cases h
    · next hinf =>
      obtain rfl := Option.some.inj h
      -- one product with a power of ten, checked against infinity
      have hproduct := holds_mul hamount (isAmount_powerOfTen hstep)
      exact isFinite_of_holds hproduct (eq_false_of_ne_true hinf)
  · split at h
    · obtain rfl := Option.some.inj h
      exact isFinite_of_isAmount hamount
    · cases h

/-- **Every float that is made of a significand and a power of ten is finite.** -/
theorem isFinite_of_ofParts {significand : UInt64} {exponent : Int}
    (h : ofParts significand exponent = some x) : x.isFinite = true := by
  rcases Int.lt_or_le exponent 0 with hneg | hnonneg
  · exact isFinite_of_scale_neg (isFinite_of_isAmount (isAmount_significand significand)) hneg h
  · exact isFinite_of_scale_nonneg hnonneg h

end Melody.Decimal
