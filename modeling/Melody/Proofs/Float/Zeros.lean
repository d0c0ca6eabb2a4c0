import Melody.Proofs.Float.Amount
import Melody.Proofs.Float.Sign

/-!
# The two zeros

Nothing has two floats, one with a minus sign. They compare as equal, and a sum of amounts that is started from
one of them is the sum that is started from the other, up to the sign of a sum that is zero itself.

## The architecture

* **`Alike`** are floats that are equal or both zero. Amounts that compare as equal are alike
  (**`alike_of_beq`**).
* **`Alike.add`**: an amount that is added to floats that are alike makes sums that are alike. To add an amount
  to nothing gives the amount (**`add_of_isZero`**).
-/

namespace Melody.Decimal

open Float.Model UnpackedFloat

variable {x y l : Float} {u v : Nat}

/-- One of the two zeros. -/
def IsZero (x : Float) : Prop := ∃ s, x.toModel.unpack = .zero s

theorem isZero_zero : IsZero 0 := ⟨.positive, rfl⟩

/-- The zero with a minus sign, at which a sum of floats starts. -/
theorem isZero_neg_zero : IsZero (-0) := ⟨.negative, rfl⟩

/-- The zeros are the amounts of no units. -/
theorem isAmount_zero_iff : IsAmount x 0 ↔ IsZero x := by
  unfold IsAmount IsZero
  constructor
  · intro h
    generalize x.toModel.unpack = f at h
    cases h with
    | zero s _ => exact ⟨s, rfl⟩
    | finite hm _ hu => exact absurd hu.symm (Nat.mul_ne_zero (by omega) (Nat.ne_of_gt (Nat.two_pow_pos _)))
  · rintro ⟨s, hs⟩
    rw [hs]
    exact .zero s rfl

/-- Nothing and an amount make the amount, or again nothing. -/
theorem add_of_isZero (hx : IsZero x) (hl : IsAmount l u) : x + l = l ∨ IsZero (x + l) ∧ IsZero l := by
  obtain ⟨s, hs⟩ := hx
  have hsum : x + l = .ofModel (.pack (UnpackedFloat.add .binary64 (.zero s) l.toModel.unpack)) := by
    rw [← hs]
    rfl
  unfold IsAmount at hl
  generalize hparts : l.toModel.unpack = f at hl hsum
  cases hl with
  | zero s' _ =>
    -- the sum is a zero of the common sign, or the one without a minus sign
    refine .inr ⟨?_, s', hparts⟩
    rw [hsum]
    cases s with
    | positive =>
      cases s' with
      | positive => exact ⟨.positive, rfl⟩
      | negative => exact ⟨.positive, rfl⟩
    | negative =>
      cases s' with
      | positive => exact ⟨.positive, rfl⟩
      | negative => exact ⟨.negative, rfl⟩
  | finite hm hcanonical hu =>
    -- the sum is made of the parts of the amount, which have not changed
    have hpacked : Float.ofModel (.pack l.toModel.unpack) = l := Float.ofBits_toBits l
    rw [hparts] at hpacked
    rw [hsum]
    exact .inl hpacked

/-! ## Floats that are alike -/

/-- Floats that are equal, or zeros of whatever sign. -/
def Alike (x y : Float) : Prop := x = y ∨ IsZero x ∧ IsZero y

theorem alike_neg_zero : Alike (-0) 0 := .inr ⟨isZero_neg_zero, isZero_zero⟩

/-- Floats that are alike hold the same units. -/
theorem Alike.isAmount (h : Alike x y) (hy : IsAmount y u) : IsAmount x u := by
  obtain rfl | ⟨hx, s, hs⟩ := h
  · exact hy
  · unfold IsAmount at hy
    rw [hs] at hy
    cases hy with
    | zero _ hu =>
      rw [hu]
      exact isAmount_zero_iff.2 hx

/-- What is added to floats that are alike plays no part in whether they are. -/
theorem Alike.add (h : Alike x y) (hl : IsAmount l u) : Alike (x + l) (y + l) := by
  obtain rfl | ⟨hx, hy⟩ := h
  · exact .inl rfl
  · obtain hxl | ⟨hxl, hzero⟩ := add_of_isZero hx hl
    · obtain hyl | ⟨hyl, hzero⟩ := add_of_isZero hy hl
      · exact .inl (hxl.trans hyl.symm)
      · exact .inr ⟨hxl.symm ▸ hzero, hyl⟩
    · obtain hyl | ⟨hyl, -⟩ := add_of_isZero hy hl
      · exact .inr ⟨hxl, hyl.symm ▸ hzero⟩
      · exact .inr ⟨hxl, hyl⟩

/-- Amounts that compare as equal are alike. -/
theorem alike_of_beq (hx : IsAmount x u) (hy : IsAmount y v) (h : (x == y) = true) : Alike x y := by
  have hbeq : x.toModel.unpack.beq y.toModel.unpack = true := h
  unfold IsAmount at hx hy
  generalize hf : x.toModel.unpack = f at hx hbeq
  generalize hg : y.toModel.unpack = g at hy hbeq
  cases hx with
  | zero s _ =>
    cases hy with
    | zero s' _ => exact .inr ⟨⟨s, hf⟩, s', hg⟩
    | finite hm _ _ => cases (LawfulBEq.eq_of_beq hbeq : _ = some Ordering.eq)
  | finite hm _ _ =>
    cases hy with
    | zero s' _ => cases (LawfulBEq.eq_of_beq hbeq : _ = some Ordering.eq)
    | finite hm' _ _ =>
      -- numbers other than zero are equal only if they have the same parts
      have hparts := Unsigned.eq_of_beq (.finite _ _ hm) (.finite _ _ hm') hbeq
      exact .inl (eq_of_unpack_eq (hf.trans (hparts.trans hg.symm)))

end Melody.Decimal
