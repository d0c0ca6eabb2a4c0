import Mathlib.Algebra.Group.Nat.Defs
import Melody.Decimal.Dyadic

/-!
# Rounding whole numbers

`roundDiv` takes a quotient to a whole number next to it and keeps the order. A whole number that is rounded
to fifty-three bits (`roundUnits`) is what a float keeps of it, in units of the least float.

## The architecture

* **`roundDiv_bounds`** and **`roundDiv_mono`**: the rounded quotient is the quotient or one more, and a
  larger number has no smaller one. **`roundDiv_scale`**: only the ratio counts.
* **`roundUnits_mono`**: rounding keeps the order, also where the two numbers lose unequally many bits. The
  power of two between them is in the way, and neither is rounded across it.
* **`roundUnits_of_short`**: a number of at most fifty-three bits, shifted, is not changed.
* **`roundUnits_mul_pow`**: rounding does not depend on the unit. **`roundUnits_mul_le`**: it makes a number
  larger by one part in `2 ^ 53` at most.
-/

namespace Melody.Decimal

/-! ## Rounded quotients -/

/-- Either of the whole numbers next to the quotient, however a tie is broken. -/
theorem roundDiv_bounds (tie : Tie) (num den : Nat) :
    num / den ≤ roundDiv tie num den ∧ roundDiv tie num den ≤ num / den + 1 := by
  -- a tie to even adds the parity of the quotient, which is 0 or 1
  have hparity : num / den % 2 ≤ 1 := by omega
  unfold roundDiv
  dsimp only
  split
  · omega
  · split
    · omega
    · cases tie with
      | toEven => dsimp only; omega
      | up => dsimp only; omega

/-- Rounding goes up by half the denominator at most. -/
theorem two_mul_roundDiv_le (tie : Tie) (num : Nat) {den : Nat} (hden : 0 < den) :
    2 * (roundDiv tie num den * den) ≤ 2 * num + den := by
  have hnum := Nat.div_add_mod num den
  have hparity : num / den % 2 ≤ 1 := by omega
  have hup : (num / den + 1) * den = den * (num / den) + den := by
    rw [Nat.add_mul, Nat.one_mul, Nat.mul_comm]
  have hsame : num / den * den = den * (num / den) := Nat.mul_comm _ _
  -- up goes only what is half the way at least
  have hstep (h : den ≤ 2 * (num % den)) {r : Nat} (hr : r ≤ num / den + 1) :
      2 * (r * den) ≤ 2 * num + den := by
    have hle := Nat.mul_le_mul_right den hr
    omega
  unfold roundDiv
  dsimp only
  split
  · omega
  · next hlt =>
    split
    · exact hstep (by omega) (Nat.le_refl _)
    · cases tie with
      | toEven => exact hstep (by omega) (by dsimp only; omega)
      | up => exact hstep (by omega) (Nat.le_refl _)

/-- A larger number is not rounded to a smaller one. -/
theorem roundDiv_mono (tie : Tie) (den : Nat) {m n : Nat} (h : m ≤ n) :
    roundDiv tie m den ≤ roundDiv tie n den := by
  have hquotient : m / den ≤ n / den := Nat.div_le_div_right h
  rcases Nat.lt_or_eq_of_le hquotient with hlt | heq
  · -- the whole parts differ, and rounding goes up by one at most
    have hm := (roundDiv_bounds tie m den).2
    have hn := (roundDiv_bounds tie n den).1
    omega
  · -- the whole parts are equal, so the larger number has the larger remainder
    have hrem : m % den ≤ n % den := by
      have hm := Nat.div_add_mod m den
      have hn := Nat.div_add_mod n den
      rw [heq] at hm
      omega
    have hparity : n / den % 2 ≤ 1 := by omega
    unfold roundDiv
    rw [heq]
    generalize n / den = q at *
    generalize m % den = r at *
    generalize n % den = r' at *
    cases tie with
    | toEven => grind
    | up => grind

/-- Only the fraction counts, and not the form it is given in. -/
theorem roundDiv_scale (tie : Tie) (num den : Nat) {c : Nat} (hc : 0 < c) :
    roundDiv tie (num * c) (den * c) = roundDiv tie num den := by
  -- the comparisons of twice the remainder with the divisor scale, and so do quotient and remainder
  have hlt (a b : Nat) : 2 * (a * c) < b * c ↔ 2 * a < b := by
    rw [← Nat.mul_assoc]
    exact Nat.mul_lt_mul_right hc
  have hgt (a b : Nat) : b * c < 2 * (a * c) ↔ b < 2 * a := by
    rw [← Nat.mul_assoc]
    exact Nat.mul_lt_mul_right hc
  unfold roundDiv
  rw [Nat.mul_div_mul_right num den hc, Nat.mul_mod_mul_right]
  simp only [hlt, hgt]

theorem roundDiv_mul (tie : Tie) {den : Nat} (hden : 0 < den) (n : Nat) :
    roundDiv tie (n * den) den = n := by
  unfold roundDiv
  rw [Nat.mul_div_cancel n hden, Nat.mul_mod_left]
  exact if_pos hden

/-! ## Fifty-three bits -/

/-- The number of low bits that a number of units loses. -/
def lostBits (u : Nat) : Nat := u.log2 - 52

/-- A number of units rounded to fifty-three bits, a half to the even neighbour. -/
def roundUnits (u : Nat) : Nat := roundDiv .toEven u (2 ^ lostBits u) * 2 ^ lostBits u

@[simp] theorem roundUnits_zero : roundUnits 0 = 0 := by decide

theorem lostBits_mono {u v : Nat} (h : u ≤ v) : lostBits u ≤ lostBits v := by
  unfold lostBits
  rcases Nat.eq_zero_or_pos u with rfl | hu
  · simp
  · have hlog : u.log2 ≤ v.log2 :=
      (Nat.le_log2 (by omega)).2 (Nat.le_trans (Nat.log2_self_le (by omega)) h)
    omega

/-- The lost bits are counted so that the others fit the mantissa. -/
theorem lt_pow_lostBits (u : Nat) : u < 2 ^ (53 + lostBits u) := by
  have hself : u < 2 ^ (u.log2 + 1) := Nat.lt_log2_self
  have hbits : u.log2 + 1 ≤ 53 + lostBits u := by
    unfold lostBits
    omega
  exact Nat.lt_of_lt_of_le hself (Nat.pow_le_pow_right (by omega) hbits)

/-- No bit is lost needlessly: where one is, the mantissa is full. -/
theorem pow_lostBits_le {u : Nat} (h : 0 < lostBits u) : 2 ^ (52 + lostBits u) ≤ u := by
  have hlog : u.log2 = 52 + lostBits u := by
    unfold lostBits at h ⊢
    omega
  have hne : u ≠ 0 := by
    rintro rfl
    simp [lostBits] at h
  rw [← hlog]
  exact Nat.log2_self_le hne

/-- A rounded number does not pass the next power of two. -/
theorem roundUnits_le_pow (u : Nat) : roundUnits u ≤ 2 ^ (53 + lostBits u) := by
  have hquotient : u / 2 ^ lostBits u < 2 ^ 53 := by
    rw [Nat.div_lt_iff_lt_mul (Nat.two_pow_pos _), ← Nat.pow_add]
    exact lt_pow_lostBits u
  have hrounded := (roundDiv_bounds .toEven u (2 ^ lostBits u)).2
  unfold roundUnits
  rw [Nat.pow_add]
  exact Nat.mul_le_mul_right _ (by omega)

/-- A number that loses bits is not rounded below its own power of two. -/
theorem pow_le_roundUnits {u : Nat} (h : 0 < lostBits u) : 2 ^ (52 + lostBits u) ≤ roundUnits u := by
  have hquotient : 2 ^ 52 ≤ u / 2 ^ lostBits u := by
    rw [Nat.le_div_iff_mul_le (Nat.two_pow_pos _), ← Nat.pow_add]
    exact pow_lostBits_le h
  have hrounded := (roundDiv_bounds .toEven u (2 ^ lostBits u)).1
  unfold roundUnits
  rw [Nat.pow_add]
  exact Nat.mul_le_mul_right _ (by omega)

/-- Rounding to the mantissa keeps the order, also where the exponent changes. -/
theorem roundUnits_mono {u v : Nat} (h : u ≤ v) : roundUnits u ≤ roundUnits v := by
  rcases Nat.lt_or_eq_of_le (lostBits_mono h) with hlt | heq
  · -- a power of two lies between the two, and neither is rounded across it
    calc roundUnits u ≤ 2 ^ (53 + lostBits u) := roundUnits_le_pow u
      _ ≤ 2 ^ (52 + lostBits v) := Nat.pow_le_pow_right (by omega) (by omega)
      _ ≤ roundUnits v := pow_le_roundUnits (by omega)
  · unfold roundUnits
    rw [heq]
    exact Nat.mul_le_mul_right _ (roundDiv_mono .toEven _ h)

/-- A number of at most fifty-three bits, shifted, keeps its value. -/
theorem roundUnits_of_short {m : Nat} (k : Nat) (h : m < 2 ^ 53) :
    roundUnits (m * 2 ^ k) = m * 2 ^ k := by
  rcases Nat.eq_zero_or_pos m with rfl | hm
  · simp
  · have hlog : (m * 2 ^ k).log2 < 53 + k := by
      have hpos : m * 2 ^ k ≠ 0 := Nat.mul_ne_zero (by omega) (Nat.ne_of_gt (Nat.two_pow_pos k))
      rw [Nat.log2_lt hpos, Nat.pow_add]
      exact Nat.mul_lt_mul_of_pos_right h (Nat.two_pow_pos k)
    have hk : lostBits (m * 2 ^ k) ≤ k := by
      unfold lostBits
      omega
    unfold roundUnits
    generalize lostBits (m * 2 ^ k) = j at hk ⊢
    -- the lost bits are among the `k` low ones, which are zero
    rw [show m * 2 ^ k = m * 2 ^ (k - j) * 2 ^ j from by
      rw [Nat.mul_assoc, ← Nat.pow_add, Nat.sub_add_cancel hk],
      roundDiv_mul _ (Nat.two_pow_pos j)]

theorem roundUnits_eq_self {m : Nat} (h : m < 2 ^ 53) : roundUnits m = m := by
  have hshort := roundUnits_of_short 0 h
  rwa [Nat.pow_zero, Nat.mul_one] at hshort

/-! ## The unit -/

theorem log2_mul_pow {m : Nat} (hm : 0 < m) (a : Nat) : (m * 2 ^ a).log2 = m.log2 + a := by
  induction a with
  | zero => simp
  | succ a ih =>
    have hne : m * 2 ^ a ≠ 0 := Nat.mul_ne_zero (by omega) (Nat.ne_of_gt (Nat.two_pow_pos a))
    rw [Nat.pow_succ, ← Nat.mul_assoc, Nat.mul_comm _ 2, Nat.log2_two_mul hne, ih, Nat.add_assoc]

/-- Rounding looks at the leading bits only, so a power of two may be taken out of it. -/
theorem roundUnits_mul_pow (m k : Nat) : roundUnits (m * 2 ^ k) = roundUnits m * 2 ^ k := by
  by_cases hshort : m < 2 ^ 53
  · rw [roundUnits_of_short k hshort, roundUnits_eq_self hshort]
  · -- with a full mantissa all of the new bits are lost again
    have hlog : 53 ≤ m.log2 := (Nat.le_log2 (by omega)).2 (Nat.le_of_not_lt hshort)
    have hbits : lostBits (m * 2 ^ k) = lostBits m + k := by
      unfold lostBits
      rw [log2_mul_pow (by omega)]
      omega
    rw [roundUnits, roundUnits, hbits, Nat.pow_add, roundDiv_scale _ _ _ (Nat.two_pow_pos k), Nat.mul_assoc]

/-- Rounding adds one part in `2 ^ 53` at most. -/
theorem roundUnits_mul_le (u : Nat) : roundUnits u * 2 ^ 53 ≤ u * (2 ^ 53 + 1) := by
  rcases Nat.eq_zero_or_pos (lostBits u) with hzero | hpos
  · have hshort := lt_pow_lostBits u
    rw [hzero] at hshort
    rw [roundUnits_eq_self hshort]
    exact Nat.mul_le_mul_left u (Nat.le_succ _)
  · -- half of the last bit that is kept is no more than that
    have hround := two_mul_roundDiv_le .toEven u (Nat.two_pow_pos (lostBits u))
    have hpart := pow_lostBits_le hpos
    rw [← roundUnits] at hround
    rw [Nat.pow_add] at hpart
    omega

end Melody.Decimal
