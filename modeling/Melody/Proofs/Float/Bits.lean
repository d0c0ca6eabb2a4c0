import Mathlib
import Melody.Binary64
import Melody.Decimal.Dyadic

/-!
# The bits of a float

A float is its bits: a sign, eleven bits of exponent and fifty-two of fraction. `Dyadic.ofFloat?` reads its
value off the bits by division; the operations on floats take the bits apart by position. Here the two meet.

## The architecture

* **`standsFor_unpack`**: what a bit pattern stands for, by its fields, which the three `toNat_unpack` lemmas
  read as arithmetic on whole numbers.
* **`ofFloat?_eq`**: the exact value of a float is that of its parts (`ofUnpacked?`).
* **`Canonical`** are the mantissas and exponents that a finite float has (`canonical_of_unpack`), and
  **`ofFloat?_pack`** reads them back unless the exponent is too large.
* **`Binary64.value_ofFloat`** and **`Binary64.ofFloat_value`**: bits of a float, and the float of bits.
-/

namespace Melody.Decimal

open Float.Model UnpackedFloat

/-! ## Fields as numbers -/

theorem toNat_unpackMantissa (b : BitVec 64) :
    (@unpackMantissa .binary64 b).toNat = b.toNat % 2 ^ 52 := by
  unfold unpackMantissa
  simp [BitVec.extractLsb]

theorem toNat_unpackExponent (b : BitVec 64) :
    (@unpackExponent .binary64 b).toNat = b.toNat / 2 ^ 52 % 2 ^ 11 := by
  unfold unpackExponent
  simp [BitVec.extractLsb, Nat.shiftRight_eq_div_pow]

theorem toNat_unpackSign (b : BitVec 64) : (@unpackSign .binary64 b).toNat = b.toNat / 2 ^ 63 := by
  have hb := b.isLt
  unfold unpackSign
  simp only [BitVec.extractLsb, BitVec.toNat_cast, BitVec.extractLsb'_toNat,
    Nat.shiftRight_eq_div_pow]
  omega

/-- The leading one that is not written stands for `2 ^ 52`. -/
theorem toNat_one_append (m : BitVec 52) : (1#1 ++ m).toNat = 2 ^ 52 + m.toNat := by
  rw [BitVec.toNat_append, ← Nat.shiftLeft_add_eq_or_of_lt m.isLt]
  simp [Nat.shiftLeft_eq]

/-! ## Values -/

def isNegative : Sign → Bool
  | .negative => true
  | .positive => false

/-- The exact value of the parts of a float. -/
def ofUnpacked? : UnpackedFloat → Option Dyadic
  | .finite s m e _ => some ⟨isNegative s, m, e⟩
  | .zero s => some ⟨isNegative s, 0, -1074⟩
  | _ => none

theorem isNegative_ofBitVec (b : BitVec 1) : isNegative (Sign.ofBitVec b) = (b.toNat == 1) := by
  have hb := b.isLt
  unfold Sign.ofBitVec
  split
  · next h => rw [h]; rfl
  · next h =>
    have hne : b.toNat ≠ 0 := fun h0 => h (by rw [← BitVec.toNat_inj, h0]; rfl)
    rw [show b.toNat = 1 from by omega]
    rfl

def exponentField (b : BitVec 64) : Nat := b.toNat / 2 ^ 52 % 2 ^ 11

def fractionField (b : BitVec 64) : Nat := b.toNat % 2 ^ 52

def signField (b : BitVec 64) : Sign := Sign.ofBitVec (@unpackSign .binary64 b)

/-- What a bit pattern stands for, by its fields. -/
inductive StandsFor (b : BitVec 64) : UnpackedFloat → Prop
  | infinity (he : exponentField b = 2047) (hm : fractionField b = 0) :
      StandsFor b (.infinity (signField b))
  | notANumber (he : exponentField b = 2047) (hm : fractionField b ≠ 0) : StandsFor b .notANumber
  | zero (he : exponentField b = 0) (hm : fractionField b = 0) : StandsFor b (.zero (signField b))
  | subnormal (he : exponentField b = 0) (hm : 0 < fractionField b) :
      StandsFor b (.finite (signField b) (fractionField b) (-1074) hm)
  | normal (he : 0 < exponentField b) (he' : exponentField b < 2047)
      (hm : 0 < 2 ^ 52 + fractionField b) :
      StandsFor b (.finite (signField b) (2 ^ 52 + fractionField b) (exponentField b - 1075) hm)

theorem fractionField_lt (b : BitVec 64) : fractionField b < 2 ^ 52 := Nat.mod_lt _ (by decide)

theorem exponentField_lt (b : BitVec 64) : exponentField b < 2 ^ 11 := Nat.mod_lt _ (by decide)

/-- The standard library's unpacking follows the format: each pattern of bits stands for what its fields say.
This is the only proof that opens that definition. -/
theorem standsFor_unpack (b : BitVec 64) : StandsFor b (UnpackedFloat.unpack .binary64 b) := by
  have hm : (@unpackMantissa .binary64 b).toNat = fractionField b := toNat_unpackMantissa b
  have he : (@unpackExponent .binary64 b).toNat = exponentField b := toNat_unpackExponent b
  have he' := exponentField_lt b
  have hbias : ((Format.binary64.exponentBias : Nat) : Int) = 1023 := rfl
  have hbits : ((Format.binary64.mantissaBitsWithoutImplicit : Nat) : Int) = 52 := rfl
  unfold UnpackedFloat.unpack
  dsimp only
  split
  · next hinf =>
    -- the largest exponent: no number
    rw [← BitVec.toNat_inj, he] at hinf
    split
    · next hzero =>
      rw [← BitVec.toNat_inj, hm] at hzero
      exact .infinity hinf hzero
    · next hzero =>
      rw [← BitVec.toNat_inj, hm] at hzero
      exact .notANumber hinf hzero
  · next hinf =>
    rw [← BitVec.toNat_inj, he] at hinf
    have hinf' : exponentField b ≠ 2047 := hinf
    split
    · next hsub =>
      -- the least exponent: the fraction alone is the mantissa
      rw [← BitVec.toNat_inj, he] at hsub
      have hsub' : exponentField b = 0 := hsub
      split
      · next hzero =>
        rw [← BitVec.toNat_inj, hm] at hzero
        exact .zero hsub hzero
      · next hzero =>
        rw [← BitVec.toNat_inj, hm] at hzero
        have hpos : fractionField b ≠ 0 := hzero
        simp only [hm, he, hbias, hbits, hsub']
        exact .subnormal hsub' (by omega)
    · next hsub =>
      rw [← BitVec.toNat_inj, he] at hsub
      have hsub' : exponentField b ≠ 0 := hsub
      -- any other exponent: a one stands in front of the fraction
      have hone : (1#1 ++ @unpackMantissa .binary64 b).toNat = 2 ^ 52 + fractionField b := by
        rw [← hm]
        exact toNat_one_append _
      simp only [hone, he, hbias, hbits]
      exact .normal (by omega) (by omega) (by omega)

/-- The value of a bit pattern, by its fields. -/
def fieldValue? (b : BitVec 64) : Option Dyadic :=
  if exponentField b = 2047 then none
  else if exponentField b = 0 then some ⟨isNegative (signField b), fractionField b, -1074⟩
  else some ⟨isNegative (signField b), 2 ^ 52 + fractionField b, exponentField b - 1075⟩

/-- The value of a float, read off the fields of its bits. -/
theorem ofFloat?_eq_fieldValue? (x : Float) :
    Dyadic.ofFloat? x = fieldValue? x.toModel.toBits.toBitVec := by
  unfold fieldValue? signField
  rw [isNegative_ofBitVec, toNat_unpackSign]
  simp only [← beq_iff_eq (α := Nat)]
  rfl

/-- The value of a float, read off the unpacked form on which the arithmetic of floats is defined. -/
theorem ofFloat?_eq (x : Float) : Dyadic.ofFloat? x = ofUnpacked? x.toModel.unpack := by
  rw [ofFloat?_eq_fieldValue?]
  unfold Float.Model.unpack fieldValue?
  generalize x.toModel.toBits.toBitVec = b
  have h := standsFor_unpack b
  generalize UnpackedFloat.unpack .binary64 b = u at h
  -- one case for each meaning of the exponent field
  cases h with
  | infinity he hm => simp [he, ofUnpacked?]
  | notANumber he hm => simp [he, ofUnpacked?]
  | zero he hm => simp [he, hm, ofUnpacked?]
  | subnormal he hm => simp [he, ofUnpacked?]
  | normal he he' hm =>
    have hne : exponentField b ≠ 0 := by omega
    have hne' : exponentField b ≠ 2047 := by omega
    simp [hne, hne', ofUnpacked?]

theorem isSome_ofFloat? (x : Float) : (Dyadic.ofFloat? x).isSome = x.isFinite := by
  rw [ofFloat?_eq]
  show _ = x.toModel.unpack.isFinite
  cases x.toModel.unpack with
  | infinity s => rfl
  | notANumber => rfl
  | zero s => rfl
  | finite s m e hm => rfl

/-! ## Canonical forms -/

/-- Mantissa and exponent of a finite float other than zero: of fifty-three bits, or with the least
exponent. -/
structure Canonical (m : Nat) (e : Int) : Prop where
  pos : 0 < m
  short : m < 2 ^ 53
  least : -1074 ≤ e
  full : 2 ^ 52 ≤ m ∨ e = -1074

/-- The parts of a finite float other than zero are canonical, and its exponent is not too large. -/
theorem canonical_of_unpack {x : Float} {s : Sign} {m : Nat} {e : Int} {h : 0 < m}
    (hx : x.toModel.unpack = .finite s m e h) : Canonical m e ∧ e ≤ 971 := by
  unfold Float.Model.unpack at hx
  generalize x.toModel.toBits.toBitVec = b at hx
  have hb := standsFor_unpack b
  have hlt := fractionField_lt b
  rw [hx] at hb
  cases hb with
  | subnormal he hm => exact ⟨⟨hm, by omega, by omega, .inr rfl⟩, by omega⟩
  | normal he he' hm => exact ⟨⟨hm, by omega, by omega, .inl (by omega)⟩, by omega⟩

/-- The mantissa of a finite float has fifty-three bits, and its exponent is not too large. -/
theorem bounds_of_ofFloat? {x : Float} {d : Dyadic} (h : Dyadic.ofFloat? x = some d) :
    d.mantissa < 2 ^ 53 ∧ d.exponent ≤ 971 := by
  rw [ofFloat?_eq] at h
  generalize hx : x.toModel.unpack = f at h
  cases f with
  | infinity s => cases h
  | notANumber => cases h
  | zero s =>
    obtain rfl := Option.some.inj h
    show 0 < 2 ^ 53 ∧ (-1074 : Int) ≤ 971
    decide
  | finite s m e hm =>
    obtain rfl := Option.some.inj h
    -- an unpacked number is in canonical form, which holds both bounds
    obtain ⟨hcanonical, hexponent⟩ := canonical_of_unpack hx
    exact ⟨hcanonical.short, hexponent⟩

/-- A mantissa with its leading one has fifty-three bits. -/
theorem log2_eq_of_full {m : Nat} (h : 2 ^ 52 ≤ m) (h' : m < 2 ^ 53) : m.log2 = 52 := by
  have hlow : 52 ≤ m.log2 := (Nat.le_log2 (by omega)).2 h
  have hhigh : m.log2 < 53 := (Nat.log2_lt (by omega)).2 h'
  omega

theorem exponentField_packComponents (s : Sign) (e : BitVec 11) (m : BitVec 52) :
    exponentField (packComponents .binary64 s e m) = e.toNat := by
  rw [exponentField, ← toNat_unpackExponent, unpackExponent_packComponents]

theorem fractionField_packComponents (s : Sign) (e : BitVec 11) (m : BitVec 52) :
    fractionField (packComponents .binary64 s e m) = m.toNat := by
  rw [fractionField, ← toNat_unpackMantissa, unpackMantissa_packComponents]

theorem signField_packComponents (s : Sign) (e : BitVec 11) (m : BitVec 52) :
    signField (packComponents .binary64 s e m) = s := by
  rw [signField, unpackSign_packComponents, Sign.ofBitVec_toBitVec]

/-- The bits of a canonical form. Too large an exponent makes an infinity. -/
theorem pack_canonical {m : Nat} {e : Int} (h : Canonical m e) (s : Sign) :
    UnpackedFloat.pack .binary64 (.finite s m e h.pos) =
      if 971 < e then packedInfinity .binary64 s
      else if 2 ^ 52 ≤ m then
        packComponents .binary64 s (BitVec.ofNat 11 (e + 1075).toNat) (BitVec.ofNat 52 m)
      else packComponents .binary64 s 0#11 (BitVec.ofNat 52 m) := by
  have hbias : ((Format.binary64.exponentBias : Nat) : Int) = 1023 := rfl
  have hbits : ((Format.binary64.mantissaBitsWithoutImplicit : Nat) : Int) = 52 := rfl
  have hmantissa : Format.binary64.mantissaBits = 53 := rfl
  have hexponent : 2 ^ Format.binary64.exponentBits = 2048 := rfl
  have hleast := h.least
  have hfull := h.full
  unfold UnpackedFloat.pack
  simp only [hbias, hbits, hmantissa, hexponent, show e + 1023 + 52 = e + 1075 from by omega]
  by_cases hlarge : 971 < e
  · rw [if_pos (by omega), if_pos hlarge]
  · rw [if_neg (by omega), if_neg hlarge]
    -- the library asks for the number of bits and not for the size of the mantissa
    by_cases hm : 2 ^ 52 ≤ m
    · rw [if_pos hm, if_pos (by rw [log2_eq_of_full hm h.short])]
    · -- fewer bits than fifty-three, and so the least exponent
      have hlog : m.log2 < 52 := (Nat.log2_lt (Nat.ne_of_gt h.pos)).2 (by omega)
      rw [if_neg hm, if_neg (by omega)]

/-- The exact value of a canonical form that is packed: none if its exponent is too large. -/
theorem ofFloat?_pack {m : Nat} {e : Int} (h : Canonical m e) (s : Sign) :
    Dyadic.ofFloat? (.ofModel (.pack (.finite s m e h.pos))) =
      if 971 < e then none else some ⟨isNegative s, m, e⟩ := by
  have hshort := h.short
  have hleast := h.least
  have hfull := h.full
  rw [ofFloat?_eq_fieldValue?]
  show fieldValue? (UnpackedFloat.pack .binary64 (.finite s m e h.pos)) = _
  rw [pack_canonical h s]
  unfold fieldValue?
  by_cases hlarge : 971 < e
  · rw [if_pos hlarge, if_pos hlarge, packedInfinity, exponentField_packComponents]
    rfl
  · rw [if_neg hlarge, if_neg hlarge]
    by_cases hm : 2 ^ 52 ≤ m
    · -- a normal number: the leading one is taken off and put back, and the exponent is not cut
      have he : (BitVec.ofNat 11 (e + 1075).toNat).toNat = (e + 1075).toNat := by
        rw [BitVec.toNat_ofNat, Nat.mod_eq_of_lt (by omega)]
      have hfraction : (BitVec.ofNat 52 m).toNat = m - 2 ^ 52 := by
        rw [BitVec.toNat_ofNat]
        omega
      rw [if_pos hm, exponentField_packComponents, fractionField_packComponents,
        signField_packComponents, he, hfraction]
      rw [if_neg (by omega), if_neg (by omega)]
      simp only [Option.some.injEq, Dyadic.mk.injEq, true_and]
      omega
    · -- a subnormal number: the fraction is the mantissa
      have hfraction : (BitVec.ofNat 52 m).toNat = m := by
        rw [BitVec.toNat_ofNat, Nat.mod_eq_of_lt (by omega)]
      rw [if_neg hm, exponentField_packComponents, fractionField_packComponents,
        signField_packComponents, hfraction]
      rw [show (0#11).toNat = 0 from rfl, if_neg (by omega), if_pos rfl]
      simp only [Option.some.injEq, Dyadic.mk.injEq, true_and]
      omega

end Melody.Decimal

namespace Melody.Binary64

open Float.Model UnpackedFloat

/-- Nothing of a float is lost in its bits. -/
@[simp] theorem value_ofFloat (x : Float) : (ofFloat x).value = x := Float.ofBits_toBits x

/-- Nor is anything lost of finite bits in their float. Other bits than these may stand for no number. -/
theorem ofFloat_value {x : Binary64} (h : x.value.isFinite = true) : ofFloat x.value = x := by
  have hbits : x.value.toModel.toBits.toBitVec =
      if @isNaNBits .binary64 x.bits.toBitVec then packedNaN .binary64 else x.bits.toBitVec :=
    @pack_unpack .binary64 x.bits.toBitVec (by decide)
  -- unpacking and packing only forgets the payload of a NaN, and a finite float is none
  by_cases hnan : @isNaNBits .binary64 x.bits.toBitVec = true
  · rw [if_pos hnan] at hbits
    have hfinite : (UnpackedFloat.unpack .binary64 x.value.toModel.toBits.toBitVec).isFinite = true := h
    rw [hbits, unpack_packedNaN] at hfinite
    cases hfinite
  · rw [if_neg hnan] at hbits
    have heq : x.value.toModel.toBits = x.bits := UInt64.toBitVec_inj.1 hbits
    show Binary64.mk x.value.toModel.toBits = x
    rw [heq]

end Melody.Binary64
