import Mathlib.Algebra.Group.Nat.Defs
import Mathlib.Data.List.Induction
import Melody.Midi.Quantity
import Melody.Midi.TrackData

/-!
# Quantities read back

A number that is written in groups of seven bits is read back from in front of any other bytes: its last byte is
the first that is not marked. The reader of a file takes no more than four groups, and so it reads the numbers
that have no more of them.

## The architecture

* **`decode`** reads groups up to the first byte that is not marked; **`decodeFrom_eq_some_iff`** says what it reads
  from, and **`number`** what it makes of it.
* **`eq_zeros_append_marked`**: marked groups are those of their number, with groups of zeros in front.
* **`decode_eq_some_iff_encode`**: and so a number is read from nothing but its own bytes, with groups of zeros in
  front.
* **`quantityFrom_eq_of_decodeFrom`**: a reader of so many groups reads the same if it needs no more of them.
  **`quantity_encode`** are the four groups of a file.
-/

namespace Melody.Midi

namespace Quantity

/-! ## Marked groups -/

theorem marked_zero : marked 0 = [] := by
  rw [marked]
  rfl

/-- A number other than zero is its higher groups and the lowest. -/
theorem marked_of_ne_zero {n : Nat} (h : n ≠ 0) :
    marked n = marked (n / 128) ++ [UInt8.ofNat (128 + n % 128)] := by
  rw [marked, dif_neg h]

/-- A number below `128 ^ k` has `k` groups at most. -/
theorem length_marked_le {n k : Nat} (h : n < 128 ^ k) : (marked n).length ≤ k := by
  induction k generalizing n with
  | zero =>
    obtain rfl : n = 0 := by rw [Nat.pow_zero] at h; omega
    rw [marked_zero]
    exact Nat.le_refl 0
  | succ k ih =>
    by_cases hn : n = 0
    · rw [hn, marked_zero]
      exact Nat.zero_le _
    · -- one group of seven bits goes, and the bound drops by one
      have hlength : (marked (n / 128)).length ≤ k := by
        apply ih
        rw [Nat.div_lt_iff_lt_mul (by decide), ← Nat.pow_succ]
        exact h
      rw [marked_of_ne_zero hn, List.length_append, List.length_singleton]
      omega

/-- A quantity takes up as many bytes as it has groups, and one at least. -/
theorem length_encode_le {n k : Nat} (h : n < 128 ^ (k + 1)) : (encode n).length ≤ k + 1 := by
  have hmarked : (marked (n / 128)).length ≤ k := by
    apply length_marked_le
    rw [Nat.div_lt_iff_lt_mul (by decide), ← Nat.pow_succ]
    exact h
  rw [encode, List.length_append, List.length_singleton]
  exact Nat.succ_le_succ hmarked

/-- All groups but the last carry the mark. -/
theorem le_of_mem_marked {n : Nat} {b : UInt8} (h : b ∈ marked n) : 0x80 ≤ b := by
  -- along the division by 128 that writes the bytes
  induction n using Nat.strongRecOn with
  | ind n ih =>
    by_cases hn : n = 0
    · rw [hn, marked_zero] at h
      cases h
    · rw [marked_of_ne_zero hn, List.mem_append, List.mem_singleton] at h
      rcases h with h | rfl
      · exact ih (n / 128) (by omega) h
      · rw [UInt8.le_iff_toNat_le, UInt8.toNat_ofNat_of_lt' (by show 128 + n % 128 < 256; omega)]
        exact Nat.le_add_right 128 (n % 128)

/-! ## Reading up to the first byte that is not marked -/

/-- The number of the groups up to the first byte that is not marked, behind what has been read, and the bytes
that follow. -/
def decodeFrom (acc : Nat) : List UInt8 → Option (Nat × List UInt8)
  | [] => none
  | b :: rest =>
    let acc := acc * 128 + b.toNat % 128
    if b < 0x80 then some (acc, rest) else decodeFrom acc rest

def decode (bytes : List UInt8) : Option (Nat × List UInt8) := decodeFrom 0 bytes

/-- The number that groups stand for, behind another; their marks do not count. -/
def number (acc : Nat) (groups : List UInt8) : Nat :=
  groups.foldl (fun acc b => acc * 128 + b.toNat % 128) acc

theorem number_append (acc : Nat) (groups more : List UInt8) :
    number acc (groups ++ more) = number (number acc groups) more := List.foldl_append

/-- The marks are not part of the number. -/
theorem number_marked (n : Nat) : number 0 (marked n) = n := by
  induction n using Nat.strongRecOn with
  | ind n ih =>
    by_cases hn : n = 0
    · rw [hn, marked_zero]
      rfl
    · have hbyte : (UInt8.ofNat (128 + n % 128)).toNat = 128 + n % 128 :=
        UInt8.toNat_ofNat_of_lt' (by show 128 + n % 128 < 256; omega)
      rw [marked_of_ne_zero hn, number_append, ih (n / 128) (by omega)]
      show n / 128 * 128 + (UInt8.ofNat (128 + n % 128)).toNat % 128 = n
      -- the mark adds 128, which the remainder takes off again
      rw [hbyte]
      omega

/-- A quantity is read up to its first byte without a mark, whatever follows. Induction over the bytes. -/
theorem decodeFrom_eq_some_iff {acc n : Nat} {bytes rest : List UInt8} :
    decodeFrom acc bytes = some (n, rest) ↔ ∃ front last, bytes = front ++ last :: rest ∧
      (∀ b ∈ front, 0x80 ≤ b) ∧ last < 0x80 ∧ number acc (front ++ [last]) = n := by
  induction bytes generalizing acc with
  | nil =>
    refine iff_of_false nofun ?_
    rintro ⟨front, last, hbytes, -⟩
    exact absurd hbytes.symm (List.append_ne_nil_of_right_ne_nil front (List.cons_ne_nil last rest))
  | cons b bytes ih =>
    rw [decodeFrom]
    by_cases hb : b < 0x80
    · rw [if_pos hb, Option.some.injEq, Prod.mk.injEq]
      constructor
      · rintro ⟨rfl, rfl⟩
        exact ⟨[], b, rfl, List.forall_mem_nil _, hb, rfl⟩
      · rintro ⟨front, last, hbytes, hfront, -, hnumber⟩
        -- the byte is not marked, and so no byte stands in front of the last
        cases front with
        | nil =>
          obtain ⟨rfl, rfl⟩ := List.cons.inj hbytes
          exact ⟨hnumber, rfl⟩
        | cons c front =>
          obtain ⟨rfl, -⟩ := List.cons.inj hbytes
          exact absurd hb (UInt8.not_lt.2 (hfront b List.mem_cons_self))
    · rw [if_neg hb, ih]
      constructor
      · rintro ⟨front, last, rfl, hfront, hlast, hnumber⟩
        exact ⟨b :: front, last, rfl, List.forall_mem_cons.2 ⟨UInt8.not_lt.1 hb, hfront⟩, hlast, hnumber⟩
      · rintro ⟨front, last, hbytes, hfront, hlast, hnumber⟩
        cases front with
        | nil =>
          obtain ⟨rfl, -⟩ := List.cons.inj hbytes
          exact absurd hlast hb
        | cons c front =>
          obtain ⟨rfl, hrest⟩ := List.cons.inj hbytes
          exact ⟨front, last, hrest, (List.forall_mem_cons.1 hfront).2, hlast, hnumber⟩

/-! ## The bytes of a number -/

/-- Marked groups are those of their number, with groups of zeros in front. -/
theorem eq_zeros_append_marked {groups : List UInt8} (h : ∀ b ∈ groups, 0x80 ≤ b) :
    ∃ zeros, groups = List.replicate zeros 0x80 ++ marked (number 0 groups) := by
  induction groups using List.reverseRecOn with
  | nil =>
    refine ⟨0, ?_⟩
    show [] = marked 0
    rw [marked_zero]
  | append_singleton groups b ih =>
    obtain ⟨zeros, hgroups⟩ := ih fun c hc => h c (List.mem_append_left [b] hc)
    have hnumber : number 0 (groups ++ [b]) = number 0 groups * 128 + b.toNat % 128 := number_append 0 groups [b]
    have hmark : 128 ≤ b.toNat := UInt8.le_iff_toNat_le.1 (h b List.mem_concat_self)
    have hsize := b.toNat_lt
    -- leading groups that are empty stay in front, and from the first other one on the groups are those of
    -- the number
    by_cases hzero : number 0 (groups ++ [b]) = 0
    · -- only zeros so far, and one more of them
      have hfront : number 0 groups = 0 := by omega
      have hbyte : b = 0x80 := UInt8.toNat_inj.1 (by show b.toNat = 128; omega)
      refine ⟨zeros + 1, ?_⟩
      rw [hfront, marked_zero, List.append_nil] at hgroups
      rw [hzero, marked_zero, List.append_nil, List.replicate_succ', ← hgroups, hbyte]
    · refine ⟨zeros, ?_⟩
      have hquotient : number 0 (groups ++ [b]) / 128 = number 0 groups := by omega
      have hbyte : UInt8.ofNat (128 + number 0 (groups ++ [b]) % 128) = b := by
        apply UInt8.toNat_inj.1
        rw [UInt8.toNat_ofNat']
        omega
      rw [marked_of_ne_zero hzero, hquotient, hbyte, ← List.append_assoc, ← hgroups]

theorem number_zeros_append (zeros : Nat) (groups : List UInt8) :
    number 0 (List.replicate zeros 0x80 ++ groups) = number 0 groups := by
  induction zeros with
  | zero => rfl
  | succ zeros ih => exact ih

/-- **A number is read from its own bytes** and from nothing else but groups of zeros in front of them. What
follows is not looked at. -/
theorem decode_eq_some_iff_encode {n : Nat} {bytes rest : List UInt8} :
    decode bytes = some (n, rest) ↔
      ∃ zeros, bytes = List.replicate zeros 0x80 ++ encode n ++ rest := by
  rw [decode, decodeFrom_eq_some_iff]
  constructor
  · rintro ⟨front, last, rfl, hfront, hlast, rfl⟩
    obtain ⟨zeros, hgroups⟩ := eq_zeros_append_marked hfront
    have hnumber : number 0 (front ++ [last]) = number 0 front * 128 + last.toNat % 128 :=
      number_append 0 front [last]
    have hsmall : last.toNat < 128 := UInt8.lt_iff_toNat_lt.1 hlast
    -- the last byte is the lowest group, and those before are the groups above
    have hquotient : number 0 (front ++ [last]) / 128 = number 0 front := by omega
    have hbyte : UInt8.ofNat (number 0 (front ++ [last]) % 128) = last := by
      apply UInt8.toNat_inj.1
      rw [UInt8.toNat_ofNat']
      omega
    refine ⟨zeros, ?_⟩
    rw [encode, hquotient, hbyte, ← List.append_assoc, ← hgroups, List.append_assoc]
    rfl
  · rintro ⟨zeros, rfl⟩
    have hbyte : (UInt8.ofNat (n % 128)).toNat = n % 128 :=
      UInt8.toNat_ofNat_of_lt' (by show n % 128 < 256; omega)
    refine ⟨List.replicate zeros 0x80 ++ marked (n / 128), UInt8.ofNat (n % 128), ?_, ?_, ?_, ?_⟩
    · rw [encode, List.append_assoc, List.append_assoc, List.append_assoc, List.singleton_append]
    · intro b hb
      rcases List.mem_append.1 hb with hb | hb
      · rw [List.eq_of_mem_replicate hb]
        decide
      · exact le_of_mem_marked hb
    · rw [UInt8.lt_iff_toNat_lt, hbyte]
      exact Nat.mod_lt n (by decide)
    · rw [List.append_assoc, number_zeros_append, number_append, number_marked]
      show n / 128 * 128 + (UInt8.ofNat (n % 128)).toNat % 128 = n
      rw [hbyte]
      omega

/-- A quantity is read back, and what follows it is left. -/
theorem decode_encode (n : Nat) (rest : List UInt8) : decode (encode n ++ rest) = some (n, rest) :=
  decode_eq_some_iff_encode.2 ⟨0, rfl⟩

end Quantity

/-! ## The reader of a file -/

open Quantity

/-- A reader of so many groups reads what is read without a bound, if there are no more of them. -/
theorem quantityFrom_eq_of_decodeFrom {acc groups n : Nat} {bytes rest : List UInt8}
    (h : decodeFrom acc bytes = some (n, rest)) (hgroups : bytes.length ≤ rest.length + groups) :
    quantityFrom acc groups bytes = (n, rest) := by
  induction bytes generalizing acc groups with
  | nil => cases h
  | cons b bytes ih =>
    obtain ⟨groups, rfl⟩ : ∃ more, groups = more + 1 := by
      -- at least one byte is read
      obtain ⟨front, last, hbytes, -⟩ := decodeFrom_eq_some_iff.1 h
      rw [hbytes, List.length_append, List.length_cons] at hgroups
      exact ⟨groups - 1, by omega⟩
    rw [decodeFrom] at h
    -- the reader of files counts its groups, and there are enough of them
    rw [quantityFrom]
    by_cases hb : b < 0x80
    · rw [if_pos hb] at h ⊢
      exact Option.some.inj h
    · rw [if_neg hb] at h ⊢
      rw [List.length_cons] at hgroups
      exact ih h (by omega)

/-- A number of few enough groups is read back, and nothing behind it is touched. -/
theorem quantityFrom_encode {n groups : Nat} (h : n < 128 ^ groups) (rest : List UInt8)
    (hgroups : 0 < groups) : quantityFrom 0 groups (encode n ++ rest) = (n, rest) := by
  obtain ⟨groups, rfl⟩ := Nat.exists_eq_add_one_of_ne_zero (Nat.ne_of_gt hgroups)
  have hlength := length_encode_le h
  apply quantityFrom_eq_of_decodeFrom (decode_encode n rest)
  rw [List.length_append]
  omega

/-- Files hold quantities of four groups. -/
theorem quantity_encode {n : Nat} (h : n < 2 ^ 28) (rest : List UInt8) :
    quantity (encode n ++ rest) = (n, rest) := quantityFrom_encode h rest (by decide)

end Melody.Midi
