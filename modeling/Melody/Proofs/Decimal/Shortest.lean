import Mathlib.Algebra.Order.Field.Power
import Mathlib.Data.Rat.Cast.Order
import Mathlib.Tactic.FieldSimp
import Mathlib.Tactic.Linarith
import Mathlib.Tactic.Positivity
import Mathlib.Tactic.Ring
import Melody.Decimal.Shortest
import Melody.Proofs.Float.Scaling

/-!
# How large the shortest decimal is

The shortest decimal of a float lies in the interval of the float, so it is at most half a unit of the mantissa
too large, and it has at most seventeen digits. Both are said of exact values, as rational numbers.

## The architecture

* **`Scientific.toRat`** and **`Dyadic.size`** are the values of a decimal and of a float without its sign.
* **`leadingPower_bounds`**: the power of ten of the first digit is where it should be.
* **`toRat_le_of_names`**: a decimal that names a float does not pass the upper end of its interval. The decimal
  of seventeen digits, which is taken when none was found to name the float, does not either
  (**`longest_le`**).
* **`shortest_bounds`** puts this together. Zeros at the end are moved to the exponent, which leaves the bounds
  as they are (**`Bounds.trimZeros`**).
* **`exists_ofParts_shortest`**: the roundings of reading might carry so large a number out of range, but they do
  not (**`Bounds.exists_ofParts`**). The last three floats at the top of the range are looked at one by one
  (**`exists_ofParts_of_last`**).
-/

namespace Melody.Decimal

/-! ## Values as rational numbers -/

/-- A power of either sign is a fraction of powers of which one is one. -/
theorem zpow_eq_div {a : ℚ} (ha : a ≠ 0) (p : ℤ) : a ^ p = a ^ p.toNat / a ^ (-p).toNat := by
  conv_lhs => rw [show p = (p.toNat : ℤ) - ((-p).toNat : ℤ) from by omega]
  rw [zpow_sub₀ ha, zpow_natCast, zpow_natCast]

def Scientific.toRat (d : Scientific) : ℚ := d.significand * 10 ^ d.exponent

namespace Dyadic

/-- The value without its sign. -/
def size (d : Dyadic) : ℚ := d.mantissa * 2 ^ d.exponent

/-- The upper end of the interval of a float, half a unit above it. -/
def top (d : Dyadic) : ℚ := (d.mantissa + 1 / 2) * 2 ^ d.exponent

/-- The fraction of whole numbers that the search works on is the size of the number. -/
theorem ratio_eq_size (d : Dyadic) : (d.ratio.1 : ℚ) / d.ratio.2 = d.size := by
  rw [size, zpow_eq_div two_ne_zero, ← mul_div_assoc]
  simp [ratio, Nat.pow_eq]

theorem ratio_pos (d : Dyadic) : 0 < d.ratio.2 := Nat.two_pow_pos _

end Dyadic

/-! ## The first digit -/

theorem lt_pow_length_digits (n : Nat) : n < 10 ^ (digits n).length :=
  (Nat.length_toDigits_le_iff (by decide) Nat.length_toDigits_pos).1 (Nat.le_refl _)

/-- A number has no more digits than it needs: the power of ten of its first digit is not above it. -/
theorem pow_length_digits_le {n : Nat} (h : 0 < n) : 10 ^ ((digits n).length - 1) ≤ n := by
  rcases Nat.eq_zero_or_pos ((digits n).length - 1) with hone | hmore
  · rw [hone]
    exact h
  · -- one digit less is not enough for the number
    by_contra hlt
    have hle := (Nat.length_toDigits_le_iff (by decide) hmore).2 (Nat.lt_of_not_le hlt)
    rw [← digits] at hle
    omega

/-- The search starts at the place of the first digit: the leading power is the power of ten between which and
the next one the fraction lies. -/
theorem leadingPower_bounds {num den : Nat} (hnum : 0 < num) (hden : 0 < den) :
    (10 : ℚ) ^ leadingPower num den ≤ num / den ∧ (num : ℚ) / den < 10 ^ (leadingPower num den + 1) := by
  have hden' : (0 : ℚ) < den := by exact_mod_cast hden
  have hnum' : (0 : ℚ) < num := by exact_mod_cast hnum
  rw [leadingPower]
  split
  · next hle =>
    -- one or more: the first digit is that of the whole part
    have hwhole : 0 < num / den := Nat.div_pos hle hden
    have hlow := pow_length_digits_le hwhole
    have hhigh := lt_pow_length_digits (num / den)
    have hlength : 0 < (digits (num / den)).length := Nat.length_toDigits_pos
    rw [Nat.le_div_iff_mul_le hden] at hlow
    rw [Nat.div_lt_iff_lt_mul hden] at hhigh
    rw [le_div_iff₀ hden', div_lt_iff₀ hden']
    rw [show ((digits (num / den)).length : ℤ) - 1 = ((digits (num / den)).length - 1 : Nat) from by omega,
      show (((digits (num / den)).length - 1 : Nat) : ℤ) + 1 = ((digits (num / den)).length : Nat) from by
        omega, zpow_natCast, zpow_natCast]
    exact ⟨by exact_mod_cast hlow, by exact_mod_cast hhigh⟩
  · next hlt =>
    -- below one: the whole part of the inverse says how many zeros come first
    have hwhole : 0 < den / num := Nat.div_pos (by omega) hnum
    have hlow := pow_length_digits_le hwhole
    have hhigh := lt_pow_length_digits (den / num)
    have hlength : 0 < (digits (den / num)).length := Nat.length_toDigits_pos
    rw [Nat.le_div_iff_mul_le hnum] at hlow
    rw [Nat.div_lt_iff_lt_mul hnum] at hhigh
    obtain ⟨k, hk⟩ : ∃ k, (digits (den / num)).length = k + 1 :=
      Nat.exists_eq_succ_of_ne_zero (Nat.ne_of_gt hlength)
    rw [hk, Nat.add_sub_cancel] at hlow
    rw [hk] at hhigh
    have hten : (0 : ℚ) < 10 ^ k := by positivity
    -- the fraction, lifted by `k` zeros, is one or less, and lifted by one more it is above one
    have hlow' : (10 : ℚ) ^ k * num ≤ den := by exact_mod_cast hlow
    have hhigh' : (den : ℚ) < 10 ^ (k + 1) * num := by exact_mod_cast hhigh
    dsimp only
    rw [hk, Nat.add_sub_cancel]
    split
    · next hone =>
      -- exactly a power of ten, which is its own lower bound
      have hone' : (den : ℚ) ≤ num * 10 ^ k := by exact_mod_cast hone
      rw [show (1 : ℤ) - ((k + 1 : Nat) : ℤ) = -(k : ℤ) from by omega]
      rw [zpow_add₀ (by norm_num), zpow_neg, zpow_natCast, le_div_iff₀ hden', div_lt_iff₀ hden',
        inv_mul_le_iff₀ hten, zpow_one, mul_assoc, lt_inv_mul_iff₀ hten]
      constructor
      · linarith
      · linarith
    · next hmore =>
      have hmore' : (num : ℚ) * 10 ^ k < den := by exact_mod_cast Nat.lt_of_not_le hmore
      have hten' : (0 : ℚ) < 10 ^ (k + 1) := by positivity
      rw [show -((k + 1 : Nat) : ℤ) + 1 = -(k : ℤ) from by omega]
      rw [zpow_neg, zpow_neg, zpow_natCast, zpow_natCast, le_div_iff₀ hden', div_lt_iff₀ hden',
        inv_mul_le_iff₀ hten', lt_inv_mul_iff₀ hten]
      constructor
      · linarith
      · linarith

/-! ## Zeros at the end -/

namespace Scientific

/-- A digit zero at the end is moved into the exponent, which leaves the value. Induction over the digits that
are dropped. -/
theorem toRat_trimZeros (d : Scientific) : d.trimZeros.toRat = d.toRat := by
  fun_induction trimZeros d with
  | case1 d h ih =>
    have hten : (d.significand : ℚ) = (d.significand / 10 : Nat) * 10 := by
      exact_mod_cast (Nat.div_mul_cancel (Nat.dvd_of_mod_eq_zero h.2)).symm
    rw [ih, toRat, toRat, hten, zpow_add₀ (by norm_num), zpow_one]
    ring
  | case2 d h => rfl

/-- What is dropped are zeros, so a number other than zero keeps its other digits. -/
theorem significand_trimZeros_pos {d : Scientific} (h : 0 < d.significand) : 0 < d.trimZeros.significand := by
  fun_induction trimZeros d with
  | case1 d hzero ih => exact ih (Nat.div_pos (Nat.le_of_dvd h (Nat.dvd_of_mod_eq_zero hzero.2)) (by decide))
  | case2 d hzero => exact h

theorem significand_trimZeros_le (d : Scientific) : d.trimZeros.significand ≤ d.significand := by
  fun_induction trimZeros d with
  | case1 d h ih => exact Nat.le_trans ih (Nat.div_le_self _ _)
  | case2 d h => exact Nat.le_refl _

end Scientific

/-! ## Candidates -/

namespace Dyadic

variable {d : Dyadic}

/-- Zero names no float but zero. -/
theorem pos_of_names {power : ℤ} {point : Nat} (hpos : 0 < d.mantissa) (h : d.names power point = true) :
    0 < point := by
  have hunit : 0 < Nat.pow 2 (d.exponent - 2).toNat * Nat.pow 10 (-power).toNat :=
    Nat.mul_pos (Nat.two_pow_pos _) (Nat.pow_pos (by decide))
  -- the lower end of the interval is above zero, and so is every point in it
  have hlow : 0 < d.interval.1 := by
    rw [interval]
    dsimp only
    split
    · omega
    · omega
  have hproduct := Nat.mul_pos hlow hunit
  by_contra hzero
  obtain rfl : point = 0 := by omega
  rw [names] at h
  dsimp only at h
  simp only [Nat.zero_mul] at h
  split at h
  · rw [Bool.and_eq_true, decide_eq_true_eq] at h
    omega
  · rw [Bool.and_eq_true, decide_eq_true_eq] at h
    omega

/-- A decimal that names a float is not above its interval. -/
theorem toRat_le_of_names {power : ℤ} {point : Nat} (h : d.names power point = true) :
    Scientific.toRat ⟨point, power⟩ ≤ d.top := by
  -- the test compares whole numbers; it leaves out the ends of the interval for an odd mantissa
  have hle : point * (Nat.pow 2 (2 - d.exponent).toNat * Nat.pow 10 power.toNat) ≤
      (4 * d.mantissa + 2) * (Nat.pow 2 (d.exponent - 2).toNat * Nat.pow 10 (-power).toNat) := by
    rw [names] at h
    dsimp only [interval] at h
    split at h
    · rw [Bool.and_eq_true, decide_eq_true_eq, decide_eq_true_eq] at h
      exact h.2
    · rw [Bool.and_eq_true, decide_eq_true_eq, decide_eq_true_eq] at h
      exact Nat.le_of_lt h.2
  have hle' : (point : ℚ) * (2 ^ (2 - d.exponent).toNat * 10 ^ power.toNat) ≤
      (4 * d.mantissa + 2) * (2 ^ (d.exponent - 2).toNat * 10 ^ (-power).toNat) := by
    exact_mod_cast hle
  -- and in fractions the right side is the upper end
  have htop : d.top = (4 * d.mantissa + 2) * 2 ^ (d.exponent - 2) := by
    rw [top, zpow_sub₀ two_ne_zero]
    ring
  rw [htop, Scientific.toRat, zpow_eq_div (by norm_num) power, zpow_eq_div two_ne_zero (d.exponent - 2),
    show -(d.exponent - 2) = 2 - d.exponent from by omega, ← mul_div_assoc, ← mul_div_assoc,
    div_le_div_iff₀ (by positivity) (by positivity)]
  linarith

variable (d) in
/-- The value as a fraction on the grid of a power of ten. -/
def scaled (power : ℤ) : Nat × Nat :=
  (d.ratio.1 * Nat.pow 10 (-power).toNat, d.ratio.2 * Nat.pow 10 power.toNat)

theorem scaled_pos (power : ℤ) : 0 < (d.scaled power).2 :=
  Nat.mul_pos (Nat.two_pow_pos _) (Nat.pow_pos (by decide))

/-- The candidates at a power of ten are the whole numbers next to this quotient. -/
theorem scaled_eq (power : ℤ) : ((d.scaled power).1 : ℚ) / (d.scaled power).2 = d.size / 10 ^ power := by
  have hpos : (d.ratio.2 : ℚ) ≠ 0 := by exact_mod_cast Nat.ne_of_gt (Nat.two_pow_pos _)
  rw [← ratio_eq_size, zpow_eq_div (by norm_num) power, scaled]
  push_cast [Nat.pow_eq]
  field_simp

/-- The whole part on the grid, and the nearest grid point. -/
theorem grid_lt {power : ℤ} {more : Nat} (hsize : d.size < 10 ^ (power + more)) :
    (d.scaled power).1 / (d.scaled power).2 < 10 ^ more := by
  have hpos : (0 : ℚ) < (d.scaled power).2 := by exact_mod_cast scaled_pos power
  have hlt : ((d.scaled power).1 : ℚ) / (d.scaled power).2 < 10 ^ more := by
    rw [scaled_eq, div_lt_iff₀ (by positivity), mul_comm, ← zpow_natCast, ← zpow_add₀ (by norm_num)]
    exact hsize
  rw [div_lt_iff₀ hpos] at hlt
  rw [Nat.div_lt_iff_lt_mul (scaled_pos power)]
  exact_mod_cast hlt

/-- Rounding does not need a further digit, except for the power of ten itself. -/
theorem nearest_le (tie : Tie) {power : ℤ} {more : Nat} (hsize : d.size < 10 ^ (power + more)) :
    roundDiv tie (d.scaled power).1 (d.scaled power).2 ≤ 10 ^ more := by
  have hbounds := (roundDiv_bounds tie (d.scaled power).1 (d.scaled power).2).2
  have hgrid := grid_lt hsize
  omega

/-- A number that is not below the grid is not rounded to zero. -/
theorem nearest_pos (tie : Tie) {power : ℤ} (hsize : 10 ^ power ≤ d.size) :
    0 < roundDiv tie (d.scaled power).1 (d.scaled power).2 := by
  have hpos : (0 : ℚ) < (d.scaled power).2 := by exact_mod_cast scaled_pos power
  have hone : 1 ≤ ((d.scaled power).1 : ℚ) / (d.scaled power).2 := by
    rw [scaled_eq, le_div_iff₀ (by positivity), one_mul]
    exact hsize
  rw [le_div_iff₀ hpos, one_mul] at hone
  have hwhole : 0 < (d.scaled power).1 / (d.scaled power).2 :=
    Nat.div_pos (by exact_mod_cast hone) (scaled_pos power)
  exact Nat.lt_of_lt_of_le hwhole (roundDiv_bounds tie _ _).1

/-- Whichever of the two candidates it is, it names the float, and it is next to the value. -/
theorem exists_of_candidate {tie : Tie} {power : ℤ} {s : Scientific}
    (h : d.candidate tie power = some s) :
    ∃ point, s = ⟨point, power⟩ ∧ d.names power point = true ∧
      point ≤ (d.scaled power).1 / (d.scaled power).2 + 1 := by
  -- the two candidates are tried one after the other, and for either the bound is the same
  have hcases {low nearest other : Nat} (hnearest : nearest ≤ low + 1) (hother : other ≤ low + 1)
      (hsome : (if d.names power nearest then some (Scientific.mk nearest power)
        else if d.names power other then some ⟨other, power⟩ else none) = some s) :
      ∃ point, s = ⟨point, power⟩ ∧ d.names power point = true ∧ point ≤ low + 1 := by
    split at hsome
    · next hnames => exact ⟨nearest, (Option.some.inj hsome).symm, hnames, hnearest⟩
    · split at hsome
      · next hnames => exact ⟨other, (Option.some.inj hsome).symm, hnames, hother⟩
      · cases hsome
  refine hcases (roundDiv_bounds tie _ _).2 ?_ h
  split
  · exact Nat.le_refl _
  · exact Nat.le_succ _

/-- What is asked of the shortest decimal of a float. -/
structure Bounds (d : Dyadic) (s : Scientific) : Prop where
  value : s.toRat ≤ d.top
  pos : 0 < s.significand
  length : s.significand ≤ 10 ^ 17

/-- The bounds outlive the removal of zeros: the value stays, and the digits only get fewer. -/
theorem Bounds.trimZeros {s : Scientific} (h : d.Bounds s) : d.Bounds s.trimZeros where
  value := by
    rw [Scientific.toRat_trimZeros]
    exact h.value
  pos := Scientific.significand_trimZeros_pos h.pos
  length := Nat.le_trans s.significand_trimZeros_le h.length

/-- Whatever the search finds on a grid of seventeen digits or fewer keeps the bounds. -/
theorem bounds_of_candidate {tie : Tie} {power : ℤ} {more : Nat} {s : Scientific} (hpos : 0 < d.mantissa)
    (hsize : d.size < 10 ^ (power + more)) (hmore : more ≤ 17) (h : d.candidate tie power = some s) :
    d.Bounds s := by
  obtain ⟨point, rfl, hnames, hle⟩ := exists_of_candidate h
  have hgrid := Nat.lt_of_lt_of_le (grid_lt hsize) (Nat.pow_le_pow_right (by decide) hmore)
  exact ⟨toRat_le_of_names hnames, pos_of_names hpos hnames, Nat.le_trans hle hgrid⟩

/-- Seventeen digits are so fine a grid that the nearest point lies in the interval. -/
theorem longest_le (tie : Tie) {power : ℤ} (hshort : d.mantissa < 2 ^ 53)
    (hsize : 10 ^ (power + 16) ≤ d.size) :
    Scientific.toRat ⟨roundDiv tie (d.scaled power).1 (d.scaled power).2, power⟩ ≤ d.top := by
  have hpos : (0 : ℚ) < (d.scaled power).2 := by exact_mod_cast scaled_pos power
  have hpower : (0 : ℚ) < 10 ^ power := by positivity
  have hunit : (0 : ℚ) < 2 ^ d.exponent := by positivity
  have hround : 2 * ((roundDiv tie (d.scaled power).1 (d.scaled power).2 : ℚ) * (d.scaled power).2) ≤
      2 * (d.scaled power).1 + (d.scaled power).2 := by
    exact_mod_cast two_mul_roundDiv_le tie (d.scaled power).1 (scaled_pos power)
  have hnum : ((d.scaled power).1 : ℚ) = d.size / 10 ^ power * (d.scaled power).2 := by
    rw [← scaled_eq, div_mul_cancel₀ _ (ne_of_gt hpos)]
  -- the error is half of a grid, and that is less than half of a unit
  have hpoint : (roundDiv tie (d.scaled power).1 (d.scaled power).2 : ℚ) ≤
      d.size / 10 ^ power + 1 / 2 := by
    rw [hnum] at hround
    refine le_of_mul_le_mul_right ?_ hpos
    linarith
  -- seventeen digits are finer than the fifty-three bits of the mantissa
  have hgrid : (10 : ℚ) ^ power ≤ 2 ^ d.exponent := by
    have hmantissa : (d.mantissa : ℚ) ≤ 10 ^ (16 : ℤ) := by
      have hle : d.mantissa ≤ 10 ^ 16 := Nat.le_of_lt (Nat.lt_trans hshort (by norm_num))
      exact_mod_cast hle
    rw [zpow_add₀ (by norm_num), size] at hsize
    have hunits := mul_le_mul_of_nonneg_right hmantissa (le_of_lt hunit)
    have hsixteen : (0 : ℚ) < 10 ^ (16 : ℤ) := by positivity
    refine le_of_mul_le_mul_left ?_ hsixteen
    linarith
  calc (roundDiv tie (d.scaled power).1 (d.scaled power).2 : ℚ) * 10 ^ power
      ≤ (d.size / 10 ^ power + 1 / 2) * 10 ^ power := mul_le_mul_of_nonneg_right hpoint (le_of_lt hpower)
    _ = d.size + 1 / 2 * 10 ^ power := by rw [add_mul, div_mul_cancel₀ _ (ne_of_gt hpower)]
    _ ≤ d.size + 1 / 2 * 2 ^ d.exponent := by linarith
    _ = d.top := by rw [size, top, add_mul]

variable (d) in
/-- What the zeros at the end are taken from: a candidate, or the nearest decimal of seventeen digits. -/
theorem shortest_eq (tie : Tie) : d.shortest tie =
    (((List.range 17).findSome? fun (more : Nat) =>
      d.candidate tie (leadingPower d.ratio.1 d.ratio.2 - (more : Int))).getD
        ⟨roundDiv tie (d.scaled (leadingPower d.ratio.1 d.ratio.2 - 16)).1
          (d.scaled (leadingPower d.ratio.1 d.ratio.2 - 16)).2,
          leadingPower d.ratio.1 d.ratio.2 - 16⟩).trimZeros := by
  rw [scaled, Int.neg_sub]
  rfl

/-- **The shortest decimal** is at most half a unit too large and has at most seventeen digits. -/
theorem shortest_bounds (tie : Tie) (hpos : 0 < d.mantissa) (hshort : d.mantissa < 2 ^ 53) :
    d.Bounds (d.shortest tie) := by
  have hnum : 0 < d.ratio.1 := Nat.mul_pos hpos (Nat.two_pow_pos _)
  obtain ⟨hlow, hhigh⟩ := leadingPower_bounds hnum d.ratio_pos
  rw [ratio_eq_size] at hlow hhigh
  rw [shortest_eq]
  generalize leadingPower d.ratio.1 d.ratio.2 = first at *
  have hdigits (more : Nat) : d.size < 10 ^ (first - (more : ℤ) + ((more + 1 : Nat) : ℤ)) := by
    rw [show first - (more : ℤ) + ((more + 1 : Nat) : ℤ) = first + 1 from by omega]
    exact hhigh
  apply Bounds.trimZeros
  cases hsome : (List.range 17).findSome? fun (more : Nat) => d.candidate tie (first - (more : Int)) with
  -- no candidate of seventeen digits or fewer names the number, so it is rounded to seventeen
  | none =>
    have hfine : (10 : ℚ) ^ (first - 16) ≤ d.size :=
      le_trans (zpow_le_zpow_right₀ (by norm_num) (by omega)) hlow
    rw [← Int.sub_add_cancel first 16] at hlow
    exact ⟨longest_le tie hshort hlow, nearest_pos tie hfine, nearest_le tie (hdigits 16)⟩
  -- the first length at which there is a candidate
  | some s =>
    obtain ⟨more, hmore, hcandidate⟩ := List.exists_of_findSome?_eq_some hsome
    have hmore := List.mem_range.1 hmore
    exact bounds_of_candidate hpos (hdigits more) (by omega) hcandidate

/-! ## Taken for a float again -/

/-- Half a unit more than a float is not too large, unless it is one of the last three. -/
theorem top_le (hshort : d.mantissa < 2 ^ 53) (hexponent : d.exponent ≤ topBits)
    (hbelow : d.exponent = topBits → d.mantissa ≤ 2 ^ 53 - 4) : d.top ≤ (2 ^ 53 - 3) * topUnit := by
  have htop : (topUnit : ℚ) = 2 ^ (topBits : ℤ) := by
    rw [topUnit, Nat.cast_pow, zpow_natCast]
    rfl
  rw [htop, top]
  -- the largest exponent leaves no room, so there the mantissa must stay below its three last values
  by_cases hlast : d.exponent = topBits
  · have hmantissa : (d.mantissa : ℚ) ≤ 2 ^ 53 - 4 := by
      have hle := hbelow hlast
      norm_num at hle ⊢
      exact_mod_cast hle
    rw [hlast]
    refine mul_le_mul_of_nonneg_right ?_ (by positivity)
    linarith
  · -- with a smaller exponent there is half of the range left
    have hmantissa : (d.mantissa : ℚ) ≤ 2 ^ 53 := by exact_mod_cast Nat.le_of_lt hshort
    have hpow : 2 * (2 : ℚ) ^ d.exponent ≤ 2 ^ (topBits : ℤ) := by
      rw [mul_comm, ← zpow_add_one₀ two_ne_zero]
      exact zpow_le_zpow_right₀ (by norm_num) (by omega)
    have hunit : (0 : ℚ) < 2 ^ d.exponent := by positivity
    generalize (2 : ℚ) ^ d.exponent = unit at *
    generalize (2 : ℚ) ^ (topBits : ℤ) = whole at *
    have hle := mul_le_mul_of_nonneg_right hmantissa (le_of_lt hunit)
    linarith

/-- What has so small a value has a power of ten that is a float. -/
theorem exponent_le {s : Scientific} (hpos : 0 < s.significand) {e : Nat}
    (h : s.significand * 10 ^ e ≤ (2 ^ 53 - 3) * topUnit) : e ≤ 308 := by
  by_contra hlarge
  have hlarge : 309 ≤ e := by omega
  refine absurd h (Nat.not_le_of_lt ?_)
  calc (2 ^ 53 - 3) * topUnit < 10 ^ 309 := by
        rw [topUnit, topBits_eq]
        decide +kernel
    _ ≤ 10 ^ e := Nat.pow_le_pow_right (by decide) hlarge
    _ ≤ s.significand * 10 ^ e := Nat.le_mul_of_pos_left _ hpos

/-- A decimal within the bounds of such a float is taken for a float. -/
theorem Bounds.exists_ofParts {s : Scientific} (h : d.Bounds s) (htop : d.top ≤ (2 ^ 53 - 3) * topUnit) :
    ∃ x, ofParts (UInt64.ofNat s.significand) s.exponent = some x := by
  -- a division by a power of ten never overflows, and so only a product has to be bounded
  by_cases hneg : s.exponent < 0
  · exact exists_scale_of_neg _ hneg
  · have hfits : (UInt64.ofNat s.significand).toNat = s.significand :=
      UInt64.toNat_ofNat_of_lt' (Nat.lt_of_le_of_lt h.length (by decide))
    obtain ⟨e, he⟩ := Int.eq_ofNat_of_zero_le (Int.not_lt.1 hneg)
    have hvalue := le_trans h.value htop
    have hcast : (2 ^ 53 - 3 : ℚ) * topUnit = ((2 ^ 53 - 3) * topUnit : Nat) := by
      rw [Nat.cast_mul]
      norm_num
    rw [Scientific.toRat, he, zpow_natCast, hcast] at hvalue
    have hle : s.significand * 10 ^ e ≤ (2 ^ 53 - 3) * topUnit := by exact_mod_cast hvalue
    rw [ofParts, he]
    exact exists_scale_of_le _ (exponent_le h.pos hle) (by rw [hfits]; exact hle)

/-- The three largest numbers are above the general bound; their texts are read by computation. -/
theorem exists_ofParts_of_last (negative : Bool) : ∀ below < 3,
    (ofParts (UInt64.ofNat (shortest ⟨negative, 2 ^ 53 - 1 - below, 971⟩ .toEven).significand)
      (shortest ⟨negative, 2 ^ 53 - 1 - below, 971⟩ .toEven).exponent).isSome = true := by
  revert negative
  decide +kernel

/-- **The digits of a float** are taken for a float again. -/
theorem exists_ofParts_shortest (hpos : 0 < d.mantissa) (hshort : d.mantissa < 2 ^ 53)
    (hexponent : d.exponent ≤ 971) :
    ∃ x, ofParts (UInt64.ofNat (d.shortest .toEven).significand) (d.shortest .toEven).exponent = some x := by
  -- only the last three mantissas of the top exponent are too near infinity for the bound on the shortest
  -- form, and those are run through one by one
  by_cases hbelow : d.exponent = 971 → d.mantissa ≤ 2 ^ 53 - 4
  · refine (shortest_bounds .toEven hpos hshort).exists_ofParts (top_le hshort ?_ ?_)
    · rw [topBits_eq]
      exact hexponent
    · rw [topBits_eq]
      exact hbelow
  · rw [Classical.not_imp] at hbelow
    have hlast := exists_ofParts_of_last d.negative (2 ^ 53 - 1 - d.mantissa) (by omega)
    rw [show 2 ^ 53 - 1 - (2 ^ 53 - 1 - d.mantissa) = d.mantissa from by omega, ← hbelow.1] at hlast
    exact Option.isSome_iff_exists.1 hlast

end Dyadic

end Melody.Decimal
