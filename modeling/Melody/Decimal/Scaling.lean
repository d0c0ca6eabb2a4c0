/-!
# The float of a significand and a power of ten

A decimal read from a document becomes a float in two steps, each rounded to nearest: the significand,
and its product or quotient with the float nearest to the power of ten. Powers beyond the largest that a
float holds are taken in several steps. The result is none when the number is too large for a float.
-/

namespace Melody.Decimal

/-- The float nearest to a power of ten; finite up to the power 308. -/
def powerOfTen (n : Nat) : Float := Float.ofScientific 1 false n

/-- `x · 10 ^ exponent` in steps, none if it is too large. Zero stays zero whatever the power. -/
def scale (x : Float) (exponent : Int) : Option Float :=
  if exponent.natAbs ≤ 308 then
    if 0 ≤ exponent then
      let product := x * powerOfTen exponent.natAbs
      if product.isInf then none else some product
    else some (x / powerOfTen exponent.natAbs)
  else if x == 0 then some x
  else if 0 ≤ exponent then none
  else scale (x / powerOfTen 308) (exponent + 308)
termination_by (-exponent).toNat
decreasing_by omega

/-- The float of `significand · 10 ^ exponent`. -/
def ofParts (significand : UInt64) (exponent : Int) : Option Float :=
  scale significand.toFloat exponent

end Melody.Decimal
