/-!
# The exact value of a float

A finite float is a whole number times a power of two. All decimal work on floats goes through that
exact value, in whole numbers, so that nothing is rounded but where a rule says so.

* **`Dyadic`** is `± mantissa · 2 ^ exponent`; **`Dyadic.ofFloat?`** reads it off the bits.
* **`roundDiv`** is a quotient rounded to the nearest whole number, with the rule for a half.
* **`nearestInt?`** is a float rounded to the nearest whole number, a half away from zero.
-/

namespace Melody.Decimal

/-- The value `± mantissa · 2 ^ exponent`. -/
structure Dyadic where
  negative : Bool
  mantissa : Nat
  exponent : Int
deriving DecidableEq, Repr

namespace Dyadic

/-- The bit above the fifty-two of the fraction, set in every mantissa unless the exponent is the least. -/
def leadingBit : Nat := 0x10000000000000

/-- The sign bit of a float. -/
def signBit : Nat := 0x8000000000000000

/-- The value of a finite float: below the sign, eleven bits of exponent and fifty-two of fraction, with
an implied leading bit unless the exponent is the least. -/
def ofFloat? (x : Float) : Option Dyadic :=
  let bits := x.toBits.toNat
  let fraction : Nat := bits % leadingBit
  let scale : Nat := bits / leadingBit % 2048
  let negative := bits / signBit == 1
  if scale == 2047 then none
  else if scale == 0 then some ⟨negative, fraction, -1074⟩
  else some ⟨negative, leadingBit + fraction, (scale : Int) - 1075⟩

/-- The magnitude as a fraction of whole numbers, the denominator a power of two. -/
def ratio (d : Dyadic) : Nat × Nat :=
  (d.mantissa * Nat.pow 2 d.exponent.toNat, Nat.pow 2 (-d.exponent).toNat)

end Dyadic

/-- Which way a quotient goes that lies in the middle of two whole numbers. -/
inductive Tie
  /-- To the even neighbour. -/
  | toEven
  /-- To the larger neighbour. -/
  | up
deriving DecidableEq, Repr

/-- `num / den` rounded to the nearest whole number; the denominator is positive. -/
def roundDiv (tie : Tie) (num den : Nat) : Nat :=
  let quotient := num / den
  let twice := 2 * (num % den)
  if twice < den then quotient
  else if den < twice then quotient + 1
  else match tie with
    | .toEven => quotient + quotient % 2
    | .up => quotient + 1

/-- The nearest whole number, a half away from zero; none for what is not finite. -/
def nearestInt? (x : Float) : Option Int :=
  (Dyadic.ofFloat? x).map fun d =>
    let size : Int := roundDiv .up d.ratio.1 d.ratio.2
    if d.negative then -size else size

end Melody.Decimal
