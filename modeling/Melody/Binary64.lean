/-!
# Floats by their bits

A `Float` that is no number is always the same one, but its bit patterns are many, and an archive keeps the
pattern that a length was given. `Binary64` is a float with all of its bits.

* **`value`** is the float of the bits, **`ofFloat`** the bits of a float.
* **`times`** is the product. Where it is no number, an operand that is none itself decides which.
-/

namespace Melody

structure Binary64 where
  bits : UInt64
deriving DecidableEq, Repr

namespace Binary64

def ofFloat (x : Float) : Binary64 := ⟨x.toBits⟩

def value (x : Binary64) : Float := Float.ofBits x.bits

/-- The bits of positive infinity. Above them, the sign aside, there are no numbers. -/
def infinityBits : UInt64 := 0x7FF0000000000000

/-- All bits but the sign. -/
def magnitude (x : Binary64) : UInt64 := x.bits &&& 0x7FFFFFFFFFFFFFFF

def isNaN (x : Binary64) : Bool := infinityBits < x.magnitude

/-- The highest bit of the fraction set. What an operation hands on that is no number has it. -/
def quiet (x : Binary64) : Binary64 := ⟨x.bits ||| 0x0008000000000000⟩

/-- The result of an operation on numbers that has no value. -/
def indefinite : Binary64 := ⟨0xFFF8000000000000⟩

/-- The product. An operand that is no number is handed on, of two the first. -/
def times (x y : Binary64) : Binary64 :=
  if x.isNaN then x.quiet
  else if y.isNaN then y.quiet
  else
    let product := x.value * y.value
    if product.isNaN then indefinite else ofFloat product

/-- Neither the sign nor the rest of the fraction is lost. -/
example : times ⟨0xFFF0000000000001⟩ (ofFloat 2) = ⟨0xFFF8000000000001⟩ := by decide +kernel

/-- Infinity times zero has no value. -/
example : times ⟨infinityBits⟩ (ofFloat 0) = indefinite := by decide +kernel

end Binary64

end Melody
