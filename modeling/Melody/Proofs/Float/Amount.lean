import Melody.Proofs.Float.Units

/-!
# Amounts

An amount is a float that is finite and not negative, such as a length or a place in time. It is known by its
number of units, and what is done to it is monotone in that number.

## The architecture

* **`isAmount_pack`**: parts that are packed and come out finite are an amount. There is room for every
  number up to the largest float (**`ofFloat?_pack_ne_none`**, **`isAmount_ofParts`**).
* **`IsAmount.add`**, **`IsAmount.toFloat_mul`** and **`IsAmount.nearestInt?`** give the units of a sum, of a
  product with a whole number, and the nearest whole number.
* **`IsAmount.le_add`**: a sum is not less than its first part, however it is rounded.
-/

namespace Melody.Decimal

open Float.Model UnpackedFloat

/-! ## Amounts -/

/-- A float that holds a whole number of units. -/
def IsAmount (x : Float) (u : Nat) : Prop := Holds u x.toModel.unpack

/-- A float holds the units that its exact value has. -/
theorem isAmount_of_ofFloat? {x : Float} {d : Dyadic} (h : Dyadic.ofFloat? x = some d)
    (hsign : d.negative = true → d.mantissa = 0) :
    IsAmount x (d.mantissa * 2 ^ (d.exponent + 1074).toNat) := by
  rw [ofFloat?_eq] at h
  unfold IsAmount
  generalize hx : x.toModel.unpack = f at h
  cases f with
  | infinity s => cases h
  | notANumber => cases h
  | zero s =>
    obtain rfl := Option.some.inj h
    exact .zero s (by simp)
  | finite s m e hm =>
    obtain rfl := Option.some.inj h
    -- with a sign below zero there would be a mantissa other than zero
    cases s with
    | negative => exact absurd (hsign rfl) (Nat.ne_of_gt hm)
    | positive => exact .finite hm (canonical_of_unpack hx).1 rfl

/-- An amount survives being packed, unless the bits have no room for it. -/
theorem isAmount_pack {u : Nat} {f : UnpackedFloat} (h : Holds u f)
    (hfinite : Dyadic.ofFloat? (.ofModel (.pack f)) ≠ none) : IsAmount (.ofModel (.pack f)) u := by
  cases h with
  | zero s hu =>
    subst hu
    cases s with
    | negative => exact .zero .negative rfl
    | positive => exact .zero .positive rfl
  | finite hm hcanonical hu =>
    rw [ofFloat?_pack hcanonical] at hfinite
    -- packing keeps the parts as long as the exponent is not too large, which finiteness says
    have hvalue := ofFloat?_pack hcanonical .positive
    split at hfinite
    · exact absurd rfl hfinite
    · next hsmall =>
      rw [if_neg hsmall] at hvalue
      rw [hu]
      exact isAmount_of_ofFloat? hvalue (by simp [isNegative])

/-! ## Whole numbers -/

/-- The exponent of the largest float, not to be unfolded either. -/
@[irreducible] def topBits : Nat := 971

theorem topBits_eq : topBits = 971 := by rw [topBits]

/-- The unit of the mantissa of the largest float. -/
def topUnit : Nat := 2 ^ topBits

theorem topUnit_pos : 0 < topUnit := Nat.two_pow_pos topBits

/-- There is room for every number of units below the power of two behind the largest float. -/
theorem ofFloat?_pack_ne_none {u : Nat} {f : UnpackedFloat} (h : Holds u f)
    (hu : u < 2 ^ 53 * (topUnit * unitsOfOne)) : Dyadic.ofFloat? (.ofModel (.pack f)) ≠ none := by
  cases h with
  | zero s hzero =>
    cases s with
    | negative => decide
    | positive => decide
  | @finite m e hm hcanonical hunits =>
    rw [ofFloat?_pack hcanonical]
    split
    · next hlarge =>
      have hcase := hcanonical.full
      have hfull : 2 ^ 52 ≤ m := by omega
      have hbits := unitBits_eq
      have htop := topBits_eq
      -- an exponent above the range, with a full mantissa, would make too many units
      have hpow : 2 * (topUnit * unitsOfOne) ≤ 2 ^ (e + 1074).toNat := by
        rw [topUnit, unitsOfOne, ← Nat.pow_add, ← Nat.pow_succ']
        exact Nat.pow_le_pow_right Nat.two_pos (by omega)
      have hle := Nat.mul_le_mul hfull hpow
      generalize topUnit * unitsOfOne = unit at *
      omega
    · simp

/-- The largest float, in units. -/
theorem roundUnits_lt {u : Nat} (h : u ≤ (2 ^ 53 - 1) * (topUnit * unitsOfOne)) :
    roundUnits u < 2 ^ 53 * (topUnit * unitsOfOne) := by
  have hunits : 0 < topUnit * unitsOfOne := Nat.mul_pos topUnit_pos unitsOfOne_pos
  -- the largest number has 53 bits, so it rounds to itself, and rounding is monotone
  have hlargest : roundUnits ((2 ^ 53 - 1) * (topUnit * unitsOfOne)) =
      (2 ^ 53 - 1) * (topUnit * unitsOfOne) := by
    rw [topUnit, unitsOfOne, ← Nat.pow_add]
    exact roundUnits_of_short _ (by decide)
  have hle := roundUnits_mono h
  rw [hlargest] at hle
  generalize topUnit * unitsOfOne = unit at *
  omega

/-- A whole number is rounded to the mantissa as a number of units is, one being `2 ^ unitBits` units. -/
theorem holds_ofNat (n : Nat) :
    Holds (roundUnits n * unitsOfOne) (UnpackedFloat.ofNat .binary64 n) := by
  unfold UnpackedFloat.ofNat UnpackedFloat.ofInt UnpackedFloat.normalize
  rcases Nat.eq_zero_or_pos n with rfl | hpos
  · rw [roundUnits_zero, Nat.zero_mul]
    exact .zero .positive rfl
  · have hcompare : compare (n : Int) 0 = .gt := by
      rw [Int.compare_eq_gt]
      omega
    have hbits := unitBits_eq
    -- `n` with exponent 0 is `n` shifted by the unit's bits, and rounding commutes with that shift
    have hunits : HasUnits n 0 (n * 2 ^ unitBits) :=
      ⟨unitBits, 0, by omega, by rw [Nat.pow_zero, Nat.mul_one]⟩
    have hround := holds_round hpos hunits
    rw [roundUnits_mul_pow] at hround
    rw [hcompare]
    exact hround

/-- A number up to the largest float is a float, rounded. -/
theorem isAmount_ofParts {n : Nat} {f : UnpackedFloat} (hf : Holds (roundUnits n * unitsOfOne) f)
    (hn : n ≤ (2 ^ 53 - 1) * topUnit) : IsAmount (.ofModel (.pack f)) (roundUnits n * unitsOfOne) := by
  refine isAmount_pack hf (ofFloat?_pack_ne_none hf ?_)
  rw [unitsOfOne, ← roundUnits_mul_pow, ← unitsOfOne]
  apply roundUnits_lt
  rw [← Nat.mul_assoc]
  exact Nat.mul_le_mul_right _ hn

/-- A whole number of sixteen bits is a float exactly. -/
theorem isAmount_toFloat (n : UInt16) : IsAmount n.toFloat (n.toNat * unitsOfOne) := by
  have hn : n.toNat < 2 ^ 16 := n.toNat_lt
  have htop := topUnit_pos
  have hamount := isAmount_ofParts (holds_ofNat n.toNat) (by omega)
  rw [roundUnits_eq_self (by omega)] at hamount
  exact hamount

/-! ## Arithmetic on amounts -/

variable {x y : Float} {u v : Nat}

theorem isAmount_zero : IsAmount 0 0 := .zero .positive rfl

/-- A finite float that does not compare as negative is an amount. -/
theorem exists_isAmount (hfinite : x.isFinite = true) (h : 0 ≤ x) : ∃ u, IsAmount x u := by
  have hle : UnpackedFloat.le (.zero .positive) x.toModel.unpack = true := of_decide_eq_true h
  have hfin : x.toModel.unpack.isFinite = true := hfinite
  unfold IsAmount
  -- the comparison with zero is made on the parts of the number
  generalize hparts : x.toModel.unpack = f at hle hfin
  cases f with
  | infinity s => cases hfin
  | notANumber => cases hfin
  | zero s => exact ⟨0, .zero s rfl⟩
  | finite s m e hm =>
    -- a number below zero would not compare so
    cases s with
    | negative => cases hle
    | positive => exact ⟨_, .finite hm (canonical_of_unpack hparts).1 rfl⟩

/-- Sums are rounded in units: this is the whole of float addition that the timeline depends on. -/
theorem IsAmount.add (hx : IsAmount x u) (hy : IsAmount y v)
    (hfinite : Dyadic.ofFloat? (x + y) ≠ none) : IsAmount (x + y) (roundUnits (u + v)) :=
  isAmount_pack (holds_add hx hy) hfinite

/-- Adding an amount takes nothing away. -/
theorem IsAmount.le_add (hx : IsAmount x u) (v : Nat) : u ≤ roundUnits (u + v) := by
  have hexact : roundUnits u = u := roundUnits_of_holds hx
  calc u = roundUnits u := hexact.symm
    _ ≤ roundUnits (u + v) := roundUnits_mono (Nat.le_add_right u v)

/-- A product with a whole number, if it is finite, is an amount. -/
theorem IsAmount.toFloat_mul (n : UInt16) (hx : IsAmount x u)
    (hfinite : Dyadic.ofFloat? (n.toFloat * x) ≠ none) :
    IsAmount (n.toFloat * x) (roundUnits (n.toNat * u)) :=
  isAmount_pack (holds_mul (isAmount_toFloat n) hx) hfinite

theorem ofFloat?_pack_infinity (s : Sign) :
    Dyadic.ofFloat? (.ofModel (.pack (.infinity s))) = none := by
  cases s with
  | negative => decide
  | positive => decide

theorem ofFloat?_pack_notANumber : Dyadic.ofFloat? (.ofModel (.pack .notANumber)) = none := by decide

/-- If a product is finite, so is its second factor. -/
theorem ofFloat?_ne_none_of_mul (h : Dyadic.ofFloat? (x * y) ≠ none) : Dyadic.ofFloat? y ≠ none := by
  intro hy
  apply h
  -- infinities and what is no number stay so, whatever the first factor is
  rw [ofFloat?_eq] at hy
  show Dyadic.ofFloat? (.ofModel (.pack
    (UnpackedFloat.mul .binary64 x.toModel.unpack y.toModel.unpack))) = none
  generalize x.toModel.unpack = f
  generalize y.toModel.unpack = g at hy
  cases g with
  | zero s => cases hy
  | finite s m e hm => cases hy
  | infinity s =>
    cases f with
    | infinity s' => exact ofFloat?_pack_infinity _
    | notANumber => exact ofFloat?_pack_notANumber
    | zero s' => exact ofFloat?_pack_notANumber
    | finite s' m e hm => exact ofFloat?_pack_infinity _
  | notANumber =>
    cases f with
    | infinity s' => exact ofFloat?_pack_notANumber
    | notANumber => exact ofFloat?_pack_notANumber
    | zero s' => exact ofFloat?_pack_notANumber
    | finite s' m e hm => exact ofFloat?_pack_notANumber

/-- The tick of an amount is its number of units divided by those of one, with halves going up. -/
theorem IsAmount.nearestInt? (hx : IsAmount x u) :
    nearestInt? x = some (roundDiv .up u unitsOfOne : Int) := by
  have hone := unitsOfOne_pos
  unfold Decimal.nearestInt? Dyadic.ratio
  rw [ofFloat?_eq]
  unfold IsAmount at hx
  generalize x.toModel.unpack = f at hx
  cases hx with
  | zero s hu =>
    have hnothing (den : Nat) (h : 0 < den) : roundDiv .up 0 den = 0 := by
      simpa using roundDiv_mul .up h 0
    rw [hu, hnothing _ hone]
    simp only [ofUnpacked?, Option.map_some, Nat.zero_mul]
    rw [hnothing (Nat.pow 2 _) (Nat.two_pow_pos _)]
    simp
  | @finite m e hm hcanonical hu =>
    -- the fraction is that of the units when both of its sides are multiplied
    have hleast := hcanonical.least
    have hbits := unitBits_eq
    have hnum : m * 2 ^ e.toNat * 2 ^ (unitBits - (-e).toNat) = u := by
      rw [hu, Nat.mul_assoc, ← Nat.pow_add]
      congr 2
      omega
    have hden : 2 ^ (-e).toNat * 2 ^ (unitBits - (-e).toNat) = unitsOfOne := by
      rw [unitsOfOne, ← Nat.pow_add]
      congr 1
      omega
    simp only [ofUnpacked?, Option.map_some, isNegative]
    rw [if_neg (by decide), ← hnum, ← hden, roundDiv_scale _ _ _ (Nat.two_pow_pos _)]
    rfl

end Melody.Decimal
