import Melody.Decimal.Dyadic
import Melody.Decimal.Natural

/-!
# The fewest digits that name a float

Every float owns an interval of reals that round to it: up to half the way to either neighbour, the
ends included when its mantissa is even. A decimal names the float when it lies in that interval.

`shortest` asks for one digit, then two, and so on. At each length the candidates are the two points of
that decimal grid around the value: if any point of the grid lies in the interval, one of these two
does. The first length with a candidate wins, and of two candidates the nearer. Seventeen digits are
always enough.
-/

namespace Melody.Decimal

/-- The decimal `significand · 10 ^ exponent`. -/
structure Scientific where
  significand : Nat
  exponent : Int
deriving DecidableEq, Repr

namespace Scientific

/-- Moves the zeros at the end of the significand into the exponent. -/
def trimZeros (d : Scientific) : Scientific :=
  if h : d.significand ≠ 0 ∧ d.significand % 10 = 0 then
    trimZeros ⟨d.significand / 10, d.exponent + 1⟩
  else d
termination_by d.significand
decreasing_by exact Nat.div_lt_self (by omega) (by omega)

/-- The power of ten in front of which the first digit stands, as in `d.ddd · 10 ^ point`. -/
def point (d : Scientific) : Int := d.exponent + ((digits d.significand).length - 1)

end Scientific

/-- The power of ten of the first digit of `num / den`, both positive. -/
def leadingPower (num den : Nat) : Int :=
  if den ≤ num then (digits (num / den)).length - 1
  else
    -- `places` zeros are enough to lift the fraction to one, or one zero too many
    let places := (digits (den / num)).length
    if den ≤ num * Nat.pow 10 (places - 1) then 1 - (places : Int) else -(places : Int)

namespace Dyadic

/-- The lower and the upper end of the interval of a positive float, in quarters of the unit of its
mantissa. Below a power of two the neighbour is only half as far, unless the exponent is the least. -/
def interval (d : Dyadic) : Nat × Nat :=
  let down := if d.mantissa == leadingBit && d.exponent != -1074 then 1 else 2
  (4 * d.mantissa - down, 4 * d.mantissa + 2)

/-- Whether `point · 10 ^ power` lies in the interval of a positive float. -/
def names (d : Dyadic) (power : Int) (point : Nat) : Bool :=
  let unit := Nat.pow 2 (d.exponent - 2).toNat * Nat.pow 10 (-power).toNat
  let grid := Nat.pow 2 (2 - d.exponent).toNat * Nat.pow 10 power.toNat
  let (low, high) := d.interval
  if d.mantissa % 2 == 0 then low * unit ≤ point * grid && point * grid ≤ high * unit
  else low * unit < point * grid && point * grid < high * unit

/-- The candidate of the given power of ten: the nearer grid point that names the float. -/
def candidate (d : Dyadic) (tie : Tie) (power : Int) : Option Scientific :=
  let num := d.ratio.1 * Nat.pow 10 (-power).toNat
  let den := d.ratio.2 * Nat.pow 10 power.toNat
  let low := num / den
  let nearest := roundDiv tie num den
  -- the neighbour on the far side may still name the float: the interval need not be centred
  let other := if nearest == low then low + 1 else low
  if d.names power nearest then some ⟨nearest, power⟩
  else if d.names power other then some ⟨other, power⟩
  else none

/-- The shortest decimal of a positive float. -/
def shortest (d : Dyadic) (tie : Tie) : Scientific :=
  let top := leadingPower d.ratio.1 d.ratio.2
  let found := (List.range 17).findSome? fun (more : Nat) => d.candidate tie (top - (more : Int))
  let longest := roundDiv tie (d.ratio.1 * Nat.pow 10 (16 - top).toNat)
    (d.ratio.2 * Nat.pow 10 (top - 16).toNat)
  (found.getD ⟨longest, top - 16⟩).trimZeros

end Dyadic

/-- The least float above zero needs one digit. -/
example : (Dyadic.shortest ⟨false, 1, -1074⟩ .toEven) = ⟨5, -324⟩ := by decide +kernel

/-- A third of four needs all seventeen. -/
example : (Dyadic.shortest ⟨false, 6004799503160661, -52⟩ .toEven) = ⟨13333333333333333, -16⟩ := by
  decide +kernel

end Melody.Decimal
