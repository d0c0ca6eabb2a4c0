/-!
# Variable-length quantities

A number in groups of seven bits, the highest first, every byte but the last marked by its top bit. There is
no leading group of zeros, so the form is as short as can be.

* **`encode`** are the bytes of a number, whatever its size.
* **`appendTo`** puts those of a 32-bit word behind a buffer, group by group from the highest.
-/

namespace Melody.Midi.Quantity

/-- The marked bytes of all groups of a number; zero has none. -/
def marked (n : Nat) : List UInt8 :=
  if _h : n = 0 then [] else marked (n / 128) ++ [UInt8.ofNat (128 + n % 128)]
termination_by n
decreasing_by omega

/-- The bytes of a number: all groups but the last are marked. -/
def encode (n : Nat) : List UInt8 := marked (n / 128) ++ [UInt8.ofNat (n % 128)]

example : encode 0 = [0x00] ∧ encode 0x7F = [0x7F] ∧ encode 0x80 = [0x81, 0x00] ∧
    encode 0xFFFFFFFF = [0x8F, 0xFF, 0xFF, 0xFF, 0x7F] := by
  decide +kernel

/-! ## Behind a buffer -/

/-- The group of seven bits that has so many groups behind it. -/
def group (word : UInt32) (behind : Nat) : UInt8 :=
  (word >>> UInt32.ofNat (7 * behind)).toUInt8 &&& 0x7F

/-- How many groups of a word are marked, of so many. The highest do not count while all bits from there on
are zero. -/
def markedCount (word : UInt32) : Nat → Nat
  | 0 => 0
  | most + 1 => if word >>> UInt32.ofNat (7 * (most + 1)) = 0 then markedCount word most else most + 1

/-- Puts so many marked groups behind a buffer, the highest first, and then the last group. -/
def appendGroups (word : UInt32) (buffer : List UInt8) : Nat → List UInt8
  | 0 => buffer ++ [group word 0]
  | behind + 1 => appendGroups word (buffer ++ [0x80 ||| group word (behind + 1)]) behind

/-- Puts a word behind a buffer; no word has more than five groups. -/
def appendTo (buffer : List UInt8) (word : UInt32) : List UInt8 :=
  appendGroups word buffer (markedCount word 4)

example : appendTo [0xAA] 480 = [0xAA, 0x83, 0x60] := by decide

end Melody.Midi.Quantity
