import Melody.Binary64

/-!
# Binary codecs

A `Codec` of a type writes its values as bytes and reads one value from the front of some bytes, giving back
the bytes behind it. Words have a fixed width, low byte first; a list and a string stand behind their
length in eight bytes. Nothing is padded, so that codecs are built by putting parts behind each other.
-/

namespace Melody.Binary

structure Codec (α : Type) where
  encode : α → List UInt8
  decode : List UInt8 → Option (α × List UInt8)

/-- The lowest bytes of a number, low byte first. -/
def littleEndian : Nat → Nat → List UInt8
  | 0, _ => []
  | width + 1, n => UInt8.ofNat n :: littleEndian width (n / 256)

/-- The number of some bytes, low byte first. -/
def number : List UInt8 → Nat
  | [] => 0
  | b :: rest => b.toNat + 256 * number rest

namespace Codec

variable {α β : Type}

/-- The same values seen as another type, if they make sense there. -/
def mapOption (c : Codec α) (view? : α → Option β) (back : β → α) : Codec β where
  encode b := c.encode (back b)
  decode bytes := do
    let (a, rest) ← c.decode bytes
    return (← view? a, rest)

/-- The same values seen as another type. -/
def map (c : Codec α) (view : α → β) (back : β → α) : Codec β :=
  c.mapOption (fun a => some (view a)) back

/-- One value behind another. -/
def pair (c : Codec α) (d : Codec β) : Codec (α × β) where
  encode ab := c.encode ab.1 ++ d.encode ab.2
  decode bytes := do
    let (a, rest) ← c.decode bytes
    let (b, rest) ← d.decode rest
    return ((a, b), rest)

/-- A number in a fixed number of bytes. -/
def word (width : Nat) : Codec Nat where
  encode := littleEndian width
  decode bytes :=
    let front := bytes.take width
    if front.length < width then none else some (number front, bytes.drop width)

def uint16 : Codec UInt16 := (word 2).map UInt16.ofNat UInt16.toNat

def uint32 : Codec UInt32 := (word 4).map UInt32.ofNat UInt32.toNat

def uint64 : Codec UInt64 := (word 8).map UInt64.ofNat UInt64.toNat

/-- A signed word is the unsigned one of the same bits. -/
def int32 : Codec Int32 := uint32.map UInt32.toInt32 Int32.toUInt32

/-- A float by its bits, whatever they are. -/
def binary64 : Codec Binary64 := uint64.map Binary64.mk Binary64.bits

/-- A number of values one behind the other. -/
def decodeMany (c : Codec α) : Nat → List UInt8 → Option (List α × List UInt8)
  | 0, bytes => some ([], bytes)
  | n + 1, bytes => do
    let (a, rest) ← c.decode bytes
    let (more, rest) ← decodeMany c n rest
    return (a :: more, rest)

/-- A list behind its length. -/
def list (c : Codec α) : Codec (List α) where
  encode as := (word 8).encode as.length ++ as.flatMap c.encode
  decode bytes := do
    let (count, rest) ← (word 8).decode bytes
    decodeMany c count rest

/-- Bytes behind their number. -/
def bytes : Codec (List UInt8) where
  encode bs := (word 8).encode bs.length ++ bs
  decode bytes := do
    let (size, rest) ← (word 8).decode bytes
    if rest.length < size then none else some (rest.take size, rest.drop size)

/-- A string behind the number of its UTF-8 bytes. -/
def string : Codec String :=
  bytes.mapOption (fun bs => String.fromUTF8? ⟨bs.toArray⟩) (fun s => s.toUTF8.toList)

end Codec

end Melody.Binary
