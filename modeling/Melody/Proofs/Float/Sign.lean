import Melody.Proofs.Float.Bits

/-!
# Floats without a minus sign

Floats that compare as equal are the same float, but for the two zeros. Where no minus sign is about, there
is only one zero, and comparing is as good as equality. Sums and quotients bring no minus sign in.

## The architecture

* **`Unsigned`** are the parts of a float without a minus sign, **`IsUnsigned`** is said of the float. Packing
  keeps it (**`isUnsigned_pack`**), as it keeps every sign (**`signField_pack`**).
* **`IsUnsigned.add`**, **`IsUnsigned.div`** and **`isUnsigned_toFloat`**: what has no minus sign.
* **`eq_of_beq_of_isUnsigned`**: comparing two floats without a minus sign.
-/

namespace Melody.Decimal

open Float.Model UnpackedFloat

/-! ## Parts -/

/-- The parts of a float that carry no minus sign. What is no number carries none. -/
inductive Unsigned : UnpackedFloat → Prop
  | infinity : Unsigned (.infinity .positive)
  | notANumber : Unsigned .notANumber
  | zero : Unsigned (.zero .positive)
  | finite (m : Nat) (e : Int) (h : 0 < m) : Unsigned (.finite .positive m e h)

variable {spec : Format} {f g : UnpackedFloat} {x y : Float}

theorem unsigned_roundWithAccuracy (spec : Format) (m : Nat) (e : Int) (accuracy : Accuracy) :
    Unsigned (roundWithAccuracy spec .positive m e accuracy) := by
  unfold roundWithAccuracy
  dsimp only
  split
  · exact .zero
  · exact .finite _ _ _

/-- A whole number that is not negative has the positive sign. -/
theorem unsigned_normalize (spec : Format) {m : Int} (hm : 0 ≤ m) (e : Int) :
    Unsigned (UnpackedFloat.normalize spec m e .positive) := by
  unfold UnpackedFloat.normalize
  split
  · next h =>
    have hneg := Int.compare_eq_lt.1 h
    omega
  · exact .zero
  · exact unsigned_roundWithAccuracy _ _ _ _

/-- Sums have no sign either. The cases are those of the addition. -/
theorem Unsigned.add (hf : Unsigned f) (hg : Unsigned g) : Unsigned (UnpackedFloat.add spec f g) := by
  cases hf with
  | infinity =>
    cases hg with
    | infinity => exact .infinity
    | notANumber => exact .notANumber
    | zero => exact .infinity
    | finite m e h => exact .infinity
  | notANumber => exact .notANumber
  | zero =>
    cases hg with
    | infinity => exact .infinity
    | notANumber => exact .notANumber
    | zero => exact .zero
    | finite m e h => exact .finite m e h
  | finite m e h =>
    cases hg with
    | infinity => exact .infinity
    | notANumber => exact .notANumber
    | zero => exact .finite m e h
    | finite m' e' h' =>
      -- two numbers are added as whole numbers at the smaller exponent
      unfold UnpackedFloat.add
      dsimp only [Sign.apply]
      exact unsigned_normalize spec (by omega) _

/-- Nor have quotients. The cases are those of the division. -/
theorem Unsigned.div (hf : Unsigned f) (hg : Unsigned g) : Unsigned (UnpackedFloat.div spec f g) := by
  -- nine of the ten cases name their result; only the quotient of two finite ones is rounded
  cases hf with
  | infinity =>
    cases hg with
    | infinity => exact .notANumber
    | notANumber => exact .notANumber
    | zero => exact .infinity
    | finite m e h => exact .infinity
  | notANumber => exact .notANumber
  | zero =>
    cases hg with
    | infinity => exact .zero
    | notANumber => exact .notANumber
    | zero => exact .notANumber
    | finite m e h => exact .zero
  | finite m e h =>
    cases hg with
    | infinity => exact .zero
    | notANumber => exact .notANumber
    | zero => exact .infinity
    | finite m' e' h' => exact unsigned_roundWithAccuracy _ _ _ _

/-- Parts without a minus sign that compare as equal are equal, since there is one zero among them. -/
theorem Unsigned.eq_of_beq (hf : Unsigned f) (hg : Unsigned g) (h : f.beq g = true) : f = g := by
  have hcompare : f.compare g = some .eq := LawfulBEq.eq_of_beq h
  cases hf with
  | infinity =>
    cases hg with
    | infinity => rfl
    | notANumber => cases hcompare
    | zero => cases hcompare
    | finite m e h => cases hcompare
  | notANumber => cases hcompare
  | zero =>
    cases hg with
    | infinity => cases hcompare
    | notANumber => cases hcompare
    | zero => rfl
    | finite m e h => cases hcompare
  | finite m e h =>
    cases hg with
    | infinity => cases hcompare
    | notANumber => cases hcompare
    | zero => cases hcompare
    | finite m' e' h' =>
      -- numbers in canonical form are compared by exponent and then by mantissa
      obtain ⟨he, hm⟩ := Ordering.then_eq_eq.1 (Option.some.inj hcompare)
      obtain rfl := Int.compare_eq_eq.1 he
      obtain rfl := Nat.compare_eq_eq.1 hm
      rfl

/-! ## Floats -/

/-- A float without a minus sign. -/
def IsUnsigned (x : Float) : Prop := Unsigned x.toModel.unpack

/-- Packing writes the sign into its bit. -/
theorem signField_pack (h : Unsigned f) : signField (UnpackedFloat.pack .binary64 f) = .positive := by
  cases h with
  | infinity => exact signField_packComponents _ _ _
  | notANumber => exact signField_packComponents _ _ _
  | zero => exact signField_packComponents _ _ _
  | finite m e h =>
    -- a finite one is packed as a subnormal, as a normal number or as infinity, by its exponent
    unfold UnpackedFloat.pack
    dsimp only
    split
    · exact signField_packComponents _ _ _
    · split
      · exact signField_packComponents _ _ _
      · exact signField_packComponents _ _ _

/-- Unpacking reads it there. -/
theorem unsigned_unpack {b : BitVec 64} (h : signField b = .positive) :
    Unsigned (UnpackedFloat.unpack .binary64 b) := by
  have hb := standsFor_unpack b
  generalize UnpackedFloat.unpack .binary64 b = f at hb
  cases hb with
  | infinity _ _ => rw [h]; exact .infinity
  | notANumber _ _ => exact .notANumber
  | zero _ _ => rw [h]; exact .zero
  | subnormal _ hm => rw [h]; exact .finite _ _ _
  | normal _ _ hm => rw [h]; exact .finite _ _ _

/-- What is computed from unsigned parts is an unsigned float. -/
theorem isUnsigned_pack (h : Unsigned f) : IsUnsigned (.ofModel (.pack f)) :=
  unsigned_unpack (signField_pack h)

theorem IsUnsigned.add (hx : IsUnsigned x) (hy : IsUnsigned y) : IsUnsigned (x + y) :=
  isUnsigned_pack (Unsigned.add hx hy)

theorem IsUnsigned.div (hx : IsUnsigned x) (hy : IsUnsigned y) : IsUnsigned (x / y) :=
  isUnsigned_pack (Unsigned.div hx hy)

theorem isUnsigned_toFloat (n : UInt32) : IsUnsigned n.toFloat :=
  isUnsigned_pack (unsigned_normalize _ (Int.natCast_nonneg n.toNat) 0)

/-- A float is known by its parts. -/
theorem eq_of_unpack_eq (h : x.toModel.unpack = y.toModel.unpack) : x = y := by
  have hbits (z : Float) : Float.ofModel (.pack z.toModel.unpack) = z := Float.ofBits_toBits z
  rw [← hbits x, h, hbits y]

/-- Without a negative zero and without what is no number equal to itself, equal floats are the same float. -/
theorem eq_of_beq_of_isUnsigned (hx : IsUnsigned x) (hy : IsUnsigned y) (h : (x == y) = true) : x = y :=
  eq_of_unpack_eq (Unsigned.eq_of_beq hx hy h)

end Melody.Decimal
