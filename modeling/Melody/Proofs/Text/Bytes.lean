import Melody.Text.Fields

/-!
# Bytes of a text

Offsets in a text count bytes, and so do rules that are made for bytes. **`units`** are the bytes of a text,
each as the character of its number, so that an offset is a place in a list. A character of ASCII is its own
unit; the units of any other character are outside ASCII.
-/

namespace Melody.Text

def IsAscii (c : Char) : Prop := c.toNat < 128

instance : DecidablePred IsAscii := fun c => inferInstanceAs (Decidable (c.toNat < 128))

/-- The units of one character. -/
def unitsOf (c : Char) : List Char := (String.utf8EncodeChar c).map Char.ofUInt8

/-- The bytes of a text as characters, in order. -/
def units (text : String) : List Char := text.toUTF8.data.toList.map Char.ofUInt8

/-- The units of a text are those of its characters, one after the other. -/
theorem units_eq (text : String) : units text = text.toList.flatMap unitsOf := by
  have hbytes : text.toUTF8.data.toList = text.toList.flatMap String.utf8EncodeChar := by
    show text.toByteArray.data.toList = _
    rw [← String.utf8Encode_toList, List.utf8Encode, List.toList_data_toByteArray]
  rw [units, hbytes, List.map_flatMap]
  rfl

/-- A character has as many units as its encoding has bytes. -/
theorem length_unitsOf (c : Char) : (unitsOf c).length = c.utf8Size := by
  rw [unitsOf, List.length_map, String.length_utf8EncodeChar]

/-- A character of seven bits is its own only unit. -/
theorem unitsOf_of_isAscii {c : Char} (h : IsAscii c) : unitsOf c = [c] := by
  have hval : c.val.toNat ≤ 127 := Nat.le_of_lt_succ h
  rw [unitsOf, String.utf8EncodeChar]
  rw [if_pos hval, List.map_singleton]
  congr 1
  apply Char.toNat_inj.1
  show (UInt8.ofNat c.val.toNat).toUInt32.toNat = c.val.toNat
  rw [UInt8.toNat_toUInt32, UInt8.toNat_ofNat']
  omega

/-- The first unit of a character outside ASCII is outside ASCII, too. -/
theorem unitsOf_of_not_isAscii {c : Char} (h : ¬IsAscii c) :
    ∃ d rest, unitsOf c = d :: rest ∧ ¬IsAscii d := by
  have hval : ¬c.val.toNat ≤ 127 := fun hle => h (Nat.lt_succ_of_le hle)
  -- the first byte of a longer encoding has its highest bit set
  have hwide (n : Nat) (hlow : 128 ≤ n) (hhigh : n < 256) : ¬IsAscii (Char.ofUInt8 (UInt8.ofNat n)) := by
    show ¬(UInt8.ofNat n).toUInt32.toNat < 128
    rw [UInt8.toNat_toUInt32, UInt8.toNat_ofNat']
    omega
  rw [unitsOf, String.utf8EncodeChar]
  rw [if_neg hval]
  split
  · exact ⟨_, _, rfl, hwide _ (by omega) (by omega)⟩
  split
  · exact ⟨_, _, rfl, hwide _ (by omega) (by omega)⟩
  · exact ⟨_, _, rfl, hwide _ (by omega) (by omega)⟩

/-- The units of a text begin where it does, and with the same character of ASCII if with any. -/
theorem head?_flatMap_unitsOf (text : List Char) :
    ((text.flatMap unitsOf).head? = none ↔ text.head? = none) ∧
    ∀ d, IsAscii d → ((text.flatMap unitsOf).head? = some d ↔ text.head? = some d) := by
  cases text with
  | nil => exact ⟨Iff.rfl, fun _ _ => Iff.rfl⟩
  | cons c rest =>
    rw [List.flatMap_cons, List.head?_cons]
    -- any other character starts with a unit that is none of seven bits
    by_cases hc : IsAscii c
    · rw [unitsOf_of_isAscii hc, List.singleton_append, List.head?_cons]
      exact ⟨Iff.rfl, fun _ _ => Iff.rfl⟩
    · obtain ⟨d, more, hunits, hd⟩ := unitsOf_of_not_isAscii hc
      rw [hunits, List.cons_append, List.head?_cons]
      refine ⟨iff_of_false nofun nofun, fun e he => iff_of_false ?_ ?_⟩
      · rintro ⟨rfl⟩
        exact hd he
      · rintro ⟨rfl⟩
        exact hc he

end Melody.Text
