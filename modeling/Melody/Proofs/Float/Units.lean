import Melody.Proofs.Float.Bits
import Melody.Proofs.Float.Rounding

/-!
# Floats in units of the least one

A float that is not negative is a whole number of units, the unit being the least float of all. In units an
operation on floats is the operation on whole numbers, followed by one rounding to fifty-three bits.

## The architecture

* **`roundedMantissa_shiftedOut`**: bits that are shifted out one by one round like a division.
* **`HasUnits`** gives a mantissa and an exponent their number of units, **`Holds`** the parts of a finished
  float. **`holds_round`**: rounding the first yields the second, with the number rounded.
* **`holds_add`** and **`holds_mul`**: a sum, and a product with a whole number.
-/

namespace Melody.Decimal

open Float.Model UnpackedFloat

/-! ## Shifting bits out -/

/-- What is left of a number after some of its low bits are shifted out: the quotient, whether the rest is a
half at least, and whether it is neither nothing nor a half. -/
def shiftedOut (m n : Nat) : ExtendedMantissa :=
  ⟨m / 2 ^ n, decide (2 ^ n ≤ 2 * (m % 2 ^ n)), decide (2 * (m % 2 ^ n) % 2 ^ n ≠ 0)⟩

@[simp] theorem mantissa_shiftedOut (m n : Nat) : (shiftedOut m n).mantissa = m / 2 ^ n := rfl

/-- One more bit is shifted out. This is the step of the induction over a shift. -/
theorem shiftRightOne_shiftedOut (m n : Nat) :
    (shiftedOut m n).shiftRightOne = shiftedOut m (n + 1) := by
  have hpos : 0 < 2 ^ n := Nat.two_pow_pos n
  have hrem : m % 2 ^ n < 2 ^ n := Nat.mod_lt m hpos
  have hbit : m / 2 ^ n % 2 < 2 := Nat.mod_lt _ (by decide)
  unfold shiftedOut ExtendedMantissa.shiftRightOne
  simp only [ExtendedMantissa.mk.injEq]
  rw [Nat.mod_pow_succ, Nat.pow_succ, Nat.div_div_eq_div_mul]
  generalize m / 2 ^ n % 2 = b at *
  generalize m % 2 ^ n = r at *
  generalize 2 ^ n = p at *
  refine ⟨rfl, ?_, ?_⟩
  · -- the half bit is the last bit that went out
    rcases Nat.eq_zero_or_pos b with rfl | hb
    · simp
      omega
    · obtain rfl : b = 1 := by omega
      simp
      omega
  · -- a bit is lost for good when the rest was not nothing
    have htwice : 2 * (r + p * b) % (p * 2) = 2 * r := by
      rw [Nat.mul_add, ← Nat.mul_assoc, Nat.mul_comm 2 p, Nat.add_mul_mod_self_left,
        Nat.mod_eq_of_lt (by omega)]
    rw [htwice, ← Bool.decide_or, decide_eq_decide]
    by_cases hhalf : p ≤ 2 * r
    · simp [hhalf]
      omega
    · rw [Nat.mod_eq_of_lt (by omega)]
      simp [hhalf]

/-- The library shifts one bit after the other; what is left can be said at once. -/
theorem shiftRight_shiftedOut (m n : Nat) :
    (⟨m, false, false⟩ : ExtendedMantissa) >>> n = shiftedOut m n := by
  show n.repeat ExtendedMantissa.shiftRightOne ⟨m, false, false⟩ = _
  induction n with
  | zero => simp [Nat.repeat, shiftedOut, Nat.mod_one]
  | succ n ih => rw [Nat.repeat, ih, shiftRightOne_shiftedOut]

/-- Rounding by what is left is division with the half to the even neighbour. -/
theorem roundedMantissa_shiftedOut (m n : Nat) :
    (shiftedOut m n).roundedMantissa = roundDiv .toEven m (2 ^ n) := by
  have hpos : 0 < 2 ^ n := Nat.two_pow_pos n
  have hrem : m % 2 ^ n < 2 ^ n := Nat.mod_lt m hpos
  unfold shiftedOut roundDiv
  generalize m / 2 ^ n = q at *
  generalize m % 2 ^ n = r at *
  generalize 2 ^ n = p at *
  dsimp only
  -- the two bits that are remembered tell whether the rest is below, at or above one half
  rcases Nat.lt_trichotomy (2 * r) p with hlt | heq | hgt
  · rw [decide_eq_false (by omega), Nat.mod_eq_of_lt hlt, if_pos hlt]
    by_cases hzero : 2 * r ≠ 0
    · rw [decide_eq_true hzero]
      rfl
    · rw [decide_eq_false hzero]
      rfl
  · rw [decide_eq_true (by omega), heq, Nat.mod_self, if_neg (by omega), if_neg (by omega)]
    rfl
  · have hover : 2 * r % p ≠ 0 := by
      rw [show 2 * r = p + (2 * r - p) from by omega, Nat.add_mod_left, Nat.mod_eq_of_lt (by omega)]
      omega
    rw [decide_eq_true (by omega), decide_eq_true hover, if_neg (by omega), if_pos hgt]
    rfl

/-! ## Units -/

/-- The exponent of the least float without its sign, not to be unfolded: powers with it are large. -/
@[irreducible] def unitBits : Nat := 1074

/-- The number of unit bits is irreducible, so that arithmetic does not unfold the power; this opens it. -/
theorem unitBits_eq : unitBits = 1074 := by rw [unitBits]

/-- The units of the number one. -/
def unitsOfOne : Nat := 2 ^ unitBits

theorem unitsOfOne_pos : 0 < unitsOfOne := Nat.two_pow_pos unitBits

/-- The parts of a float that is not negative and holds a whole number of units, each of them the least
float. -/
inductive Holds (u : Nat) : UnpackedFloat → Prop
  | zero (s : Sign) (hu : u = 0) : Holds u (.zero s)
  | finite {m : Nat} {e : Int} (h : 0 < m) (hcanonical : Canonical m e)
      (hu : u = m * 2 ^ (e + 1074).toNat) : Holds u (.finite .positive m e h)

/-- A mantissa and an exponent stand for a number of units. Either power of two may be the one that is
needed. -/
def HasUnits (m : Nat) (e : Int) (u : Nat) : Prop :=
  ∃ a b : Nat, e + 1074 = (a : Int) - b ∧ m * 2 ^ a = u * 2 ^ b

/-- The exponent that a float of this many units has. -/
theorem targetExponent_of_hasUnits {m : Nat} {e : Int} {u : Nat} (hm : 0 < m) (h : HasUnits m e u) :
    Format.binary64.targetExponent (totalExponent m e) = (lostBits u : Int) - 1074 := by
  obtain ⟨a, b, he, hunits⟩ := h
  have hu : 0 < u := by
    rcases Nat.eq_zero_or_pos u with rfl | hu
    · rw [Nat.zero_mul] at hunits
      exact absurd hunits (Nat.mul_ne_zero (by omega) (Nat.ne_of_gt (Nat.two_pow_pos a)))
    · exact hu
  -- the same number in two spellings has as many bits above its point
  have hlog : m.log2 + a = u.log2 + b := by
    rw [← log2_mul_pow hm, ← log2_mul_pow hu, hunits]
  show max ((m.log2 : Int) + 1 + e - 53) (-1074) = _
  unfold lostBits
  omega

/-- What the library shifts out, given the exponent it aims at. -/
theorem shiftToTargetExponent_exact (m : Nat) (e : Int) {t : Int}
    (ht : Format.binary64.targetExponent (totalExponent m e) = t) :
    shiftToTargetExponent .binary64 m e .exact = (shiftedOut m (t - e).toNat, e + (t - e).toNat) := by
  unfold shiftToTargetExponent shiftToExponent
  rw [ht]
  exact congrArg (·, e + ((t - e).toNat : Int)) (shiftRight_shiftedOut m (t - e).toNat)

/-- Rounding a mantissa at its exponent is rounding the units. -/
theorem roundDiv_of_hasUnits {m : Nat} {e : Int} {u : Nat} (h : HasUnits m e u)
    (he : e ≤ (lostBits u : Int) - 1074) :
    roundDiv .toEven m (2 ^ ((lostBits u : Int) - 1074 - e).toNat) =
      roundDiv .toEven u (2 ^ lostBits u) := by
  obtain ⟨a, b, hab, hunits⟩ := h
  have hshift : ((lostBits u : Int) - 1074 - e).toNat + a = lostBits u + b := by omega
  rw [← roundDiv_scale .toEven m _ (Nat.two_pow_pos a), ← Nat.pow_add, hshift, hunits, Nat.pow_add,
    roundDiv_scale .toEven u _ (Nat.two_pow_pos b)]

/-- Rounding a mantissa whose exponent is not too large rounds the number of units. -/
theorem holds_roundWithAccuracy {m : Nat} {e : Int} {u : Nat} (hm : 0 < m) (h : HasUnits m e u)
    (he : e ≤ (lostBits u : Int) - 1074) :
    Holds (roundUnits u) (roundWithAccuracy .binary64 .positive m e .exact) := by
  unfold roundWithAccuracy
  rw [shiftToTargetExponent_exact m e (targetExponent_of_hasUnits hm h)]
  dsimp only
  rw [roundedMantissa_shiftedOut, roundDiv_of_hasUnits h he,
    show e + (((lostBits u : Int) - 1074 - e).toNat : Int) = lostBits u - 1074 from by omega]
  have hle := roundUnits_le_pow u
  have hge := @pow_le_roundUnits u
  unfold roundUnits at *
  generalize roundDiv .toEven u (2 ^ lostBits u) = r at *
  generalize lostBits u = k at *
  rw [Nat.pow_add] at hle
  have hr : r ≤ 2 ^ 53 := Nat.le_of_mul_le_mul_right hle (Nat.two_pow_pos k)
  -- rounding drops bits of a full mantissa only, and leaves it full
  have hfull : 2 ^ 52 ≤ r ∨ k = 0 := by
    rcases Nat.eq_zero_or_pos k with hk | hk
    · exact .inr hk
    · rw [Nat.pow_add] at hge
      exact .inl (Nat.le_of_mul_le_mul_right (hge hk) (Nat.two_pow_pos k))
  -- the library rounds twice, and the second time finds nothing to round
  rcases Nat.eq_zero_or_pos r with rfl | hpos
  · rw [shiftToTargetExponent_exact 0 _ rfl, Nat.zero_mul]
    simp only [mantissa_shiftedOut, Nat.zero_div]
    exact .zero .positive rfl
  · have hunits : HasUnits r (k - 1074) (r * 2 ^ k) := ⟨k, 0, by omega, by simp⟩
    have htarget := targetExponent_of_hasUnits hpos hunits
    rw [shiftToTargetExponent_exact _ _ htarget]
    rcases Nat.lt_or_eq_of_le hr with hlt | rfl
    · -- fifty-three bits are enough: nothing is shifted
      have hbits : lostBits (r * 2 ^ k) ≤ k := by
        have hlog : r.log2 < 53 := (Nat.log2_lt (by omega)).2 hlt
        unfold lostBits
        rw [log2_mul_pow hpos]
        omega
      rw [show ((lostBits (r * 2 ^ k) : Int) - 1074 - (k - 1074)).toNat = 0 from by omega]
      simp only [mantissa_shiftedOut, Nat.pow_zero, Nat.div_one]
      rw [dif_neg (by omega)]
      refine .finite _ ⟨hpos, hlt, by omega, ?_⟩ ?_
      · rcases hfull with hfull | hfull
        · exact .inl hfull
        · exact .inr (by omega)
      · congr 2
        omega
    · -- rounding has filled a fifty-fourth bit: one more zero is shifted out
      have hbits : lostBits (2 ^ 53 * 2 ^ k) = k + 1 := by
        unfold lostBits
        rw [log2_mul_pow hpos, Nat.log2_two_pow]
        omega
      rw [hbits, show (((k + 1 : Nat) : Int) - 1074 - (k - 1074)).toNat = 1 from by omega]
      have hhalf : 2 ^ 53 / 2 ^ 1 = 2 ^ 52 := by decide
      simp only [mantissa_shiftedOut, hhalf]
      rw [dif_neg (by decide)]
      refine .finite _ ⟨by decide, by decide, by omega, .inl (by decide)⟩ ?_
      rw [show ((k : Int) - 1074 + (1 : Nat) + 1074).toNat = k + 1 from by omega, Nat.pow_succ]
      show 2 ^ 53 * 2 ^ k = 2 ^ 52 * (2 ^ k * 2)
      omega

/-- Rounding rounds the number of units. -/
theorem holds_round {m : Nat} {e : Int} {u : Nat} (hm : 0 < m) (h : HasUnits m e u) :
    Holds (roundUnits u) (UnpackedFloat.round .binary64 .positive m e) := by
  unfold UnpackedFloat.round decreaseExponent
  rw [targetExponent_of_hasUnits hm h]
  dsimp only
  rw [Nat.shiftLeft_eq]
  obtain ⟨a, b, hab, hunits⟩ := h
  -- `s` is the room the target exponent asks for; shifting by it leaves the units alone
  generalize hs : (e - (lostBits u - 1074)).toNat = s
  refine holds_roundWithAccuracy (Nat.mul_pos hm (Nat.two_pow_pos s)) ⟨a, b + s, by omega, ?_⟩
    (by omega)
  rw [Nat.mul_right_comm, hunits, Nat.mul_assoc, Nat.pow_add]

/-! ## Sums and products -/

theorem roundUnits_of_holds {u : Nat} {f : UnpackedFloat} (h : Holds u f) : roundUnits u = u := by
  cases h with
  | zero s hu => rw [hu, roundUnits_zero]
  | finite hm hcanonical hu => rw [hu, roundUnits_of_short _ hcanonical.short]

/-- The sum of two amounts is the sum of their units, rounded. -/
theorem holds_add {u v : Nat} {f g : UnpackedFloat} (hf : Holds u f) (hg : Holds v g) :
    Holds (roundUnits (u + v)) (UnpackedFloat.add .binary64 f g) := by
  have hv := roundUnits_of_holds hg
  have hu := roundUnits_of_holds hf
  cases hf with
  | zero s hzero =>
    subst hzero
    rw [Nat.zero_add, hv]
    cases hg with
    | zero s' hzero' =>
      subst hzero'
      unfold UnpackedFloat.add
      dsimp only
      split
      · exact .zero s rfl
      · exact .zero .positive rfl
    | finite hm' hcanonical' hunits' => exact .finite hm' hcanonical' hunits'
  | @finite m e hm hcanonical hunits =>
    cases hg with
    | zero s' hzero' =>
      subst hzero'
      rw [Nat.add_zero, hu]
      exact .finite hm hcanonical hunits
    | @finite m' e' hm' hcanonical' hunits' =>
      -- both mantissas are moved to the smaller exponent and added there
      have hleast := hcanonical.least
      have hleast' := hcanonical'.least
      have hmoved : (m <<< (e - min e e').toNat + m' <<< (e' - min e e').toNat) *
          2 ^ (min e e' + 1074).toNat = u + v := by
        rw [hunits, hunits', Nat.shiftLeft_eq, Nat.shiftLeft_eq, Nat.add_mul, Nat.mul_assoc,
          Nat.mul_assoc, ← Nat.pow_add, ← Nat.pow_add]
        congr 3
        · omega
        · omega
      have hpos : 0 < m <<< (e - min e e').toNat + m' <<< (e' - min e e').toNat := by
        rw [Nat.shiftLeft_eq]
        exact Nat.add_pos_left (Nat.mul_pos hm (Nat.two_pow_pos _)) _
      unfold UnpackedFloat.add decreaseExponent UnpackedFloat.normalize
      dsimp only [Sign.apply]
      rw [← Int.natCast_add]
      generalize m <<< (e - min e e').toNat + m' <<< (e' - min e e').toNat = total at *
      have hcompare : compare (total : Int) 0 = .gt := by
        rw [Int.compare_eq_gt]
        omega
      rw [hcompare]
      refine holds_round (by omega) ⟨(min e e' + 1074).toNat, 0, by omega, ?_⟩
      rw [Int.toNat_natCast, hmoved, Nat.pow_zero, Nat.mul_one]

/-- A mantissa of fifty-three bits, or one with too small an exponent, is not to be moved left. -/
theorem le_of_full {m : Nat} {e : Int} {u : Nat} (hm : 0 < m) (h : HasUnits m e u)
    (hfull : 2 ^ 52 ≤ m ∨ e ≤ -1074) : e ≤ (lostBits u : Int) - 1074 := by
  rw [← targetExponent_of_hasUnits hm h]
  show e ≤ max ((m.log2 : Int) + 1 + e - 53) (-1074)
  rcases hfull with hfull | hfull
  · have hlog : 52 ≤ m.log2 := (Nat.le_log2 (by omega)).2 hfull
    omega
  · omega

/-- A whole number times an amount is as many times its units, rounded. -/
theorem holds_mul {n u : Nat} {f g : UnpackedFloat} (hf : Holds (n * unitsOfOne) f) (hg : Holds u g) :
    Holds (roundUnits (n * u)) (UnpackedFloat.mul .binary64 f g) := by
  cases hf with
  | zero s hzero =>
    obtain rfl : n = 0 := (Nat.mul_eq_zero.1 hzero).resolve_right (Nat.ne_of_gt unitsOfOne_pos)
    rw [Nat.zero_mul, roundUnits_zero]
    cases hg with
    | zero s' hzero' => exact .zero _ rfl
    | finite hm' hcanonical' hunits' => exact .zero _ rfl
  | @finite m e hm hcanonical hunits =>
    cases hg with
    | zero s' hzero' =>
      subst hzero'
      exact .zero _ (by simp)
    | @finite m' e' hm' hcanonical' hunits' =>
      have hleast := hcanonical.least
      have hleast' := hcanonical'.least
      -- mantissas are multiplied and exponents added, which multiplies the units
      have hproduct : HasUnits (m * m') (e + e') (n * u) := by
        have hbits := unitBits_eq
        refine ⟨(e + 1074).toNat + (e' + 1074).toNat, unitBits, by omega, ?_⟩
        calc m * m' * 2 ^ ((e + 1074).toNat + (e' + 1074).toNat)
            = m * 2 ^ (e + 1074).toNat * (m' * 2 ^ (e' + 1074).toNat) := by
              rw [Nat.pow_add]
              exact Nat.mul_mul_mul_comm ..
          _ = n * unitsOfOne * u := by rw [← hunits, ← hunits']
          _ = n * u * 2 ^ unitBits := Nat.mul_right_comm ..
      refine holds_roundWithAccuracy (Nat.mul_pos hm hm') hproduct
        (le_of_full (Nat.mul_pos hm hm') hproduct ?_)
      -- the product has at least the bits of a full mantissa, unless both factors are below the normal
      -- numbers
      rcases hcanonical.full with hfull | hfull
      · exact .inl (Nat.le_trans hfull (Nat.le_mul_of_pos_right m hm'))
      · rcases hcanonical'.full with hfull' | hfull'
        · exact .inl (Nat.le_trans hfull' (Nat.le_mul_of_pos_left m' hm))
        · exact .inr (by omega)

end Melody.Decimal
