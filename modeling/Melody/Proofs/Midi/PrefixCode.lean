import Melody.Proofs.Midi.Quantity

/-!
# Quantities as a prefix code

A quantity ends with its first byte that is not marked. Whatever stands behind it is not looked at, and so no
quantity is the beginning of another.

## The architecture

* **`appendGroups_marked`**: what a buffer holds while a word is put behind it. In the end it holds what
  `encode` has for the number (**`appendTo_eq`**).
* **`IsCode`** says what makes some bytes the code of a number, and **`appendTo_prefixCode`** that words are written
  so.
-/

namespace Melody.Midi.Quantity

/-! ## Groups of a word -/

section Words

variable {n : Nat}

theorem toNat_shiftRight_groups (word : UInt32) (h : n ≤ 4) :
    (word >>> UInt32.ofNat (7 * n)).toNat = word.toNat / 128 ^ n := by
  have hamount : (UInt32.ofNat (7 * n)).toNat % 32 = 7 * n := by
    rw [UInt32.toNat_ofNat']
    omega
  rw [UInt32.toNat_shiftRight, hamount, Nat.shiftRight_eq_div_pow, Nat.pow_mul]

theorem toNat_group (word : UInt32) (h : n ≤ 4) : (group word n).toNat = word.toNat / 128 ^ n % 128 := by
  rw [group, UInt8.toNat_and, UInt32.toNat_toUInt8, toNat_shiftRight_groups word h]
  show _ &&& (2 ^ 7 - 1) = _
  rw [Nat.and_two_pow_sub_one_eq_mod]
  omega

theorem group_zero (word : UInt32) : group word 0 = UInt8.ofNat (word.toNat % 128) := by
  apply UInt8.toNat_inj.1
  rw [toNat_group word (Nat.zero_le 4), UInt8.toNat_ofNat', Nat.pow_zero, Nat.div_one]
  omega

/-- A mark is added to a group. -/
theorem mark_or_group (word : UInt32) (h : n ≤ 4) :
    0x80 ||| group word n = UInt8.ofNat (128 + word.toNat / 128 ^ n % 128) := by
  have hgroup := toNat_group word h
  have hor := Nat.two_pow_add_eq_or_of_lt (i := 7) (b := (group word n).toNat) (by omega) 1
  apply UInt8.toNat_inj.1
  rw [UInt8.toNat_or, UInt8.toNat_ofNat']
  show 2 ^ 7 * 1 ||| (group word n).toNat = _
  rw [← hor, hgroup]
  omega

/-- What is left out in front are zeros, and what is kept begins with a group that is none. -/
theorem markedCount_bounds (word : UInt32) (h : n ≤ 4) (hword : word.toNat / 128 ^ (n + 1) = 0) :
    markedCount word n ≤ n ∧ word.toNat / 128 ^ (markedCount word n + 1) = 0 ∧
      (markedCount word n ≠ 0 → word.toNat / 128 ^ markedCount word n ≠ 0) := by
  induction n with
  | zero => exact ⟨Nat.le_refl 0, hword, fun hne => absurd rfl hne⟩
  | succ n ih =>
    have hshift := toNat_shiftRight_groups word h
    rw [markedCount]
    -- a group that is empty is left out, as long as all above it are
    split
    · next hzero =>
      rw [hzero] at hshift
      obtain ⟨hle, hspec⟩ := ih (by omega) hshift.symm
      exact ⟨Nat.le_succ_of_le hle, hspec⟩
    · next hne =>
      refine ⟨Nat.le_refl _, hword, fun _ hquotient => hne ?_⟩
      apply UInt32.toNat_inj.1
      rw [hshift, hquotient]
      rfl

/-- While a word is put behind a buffer, the buffer holds the marked bytes of what is above the groups to
come. -/
theorem appendGroups_marked (word : UInt32) (buffer : List UInt8) (h : n ≤ 4)
    (hword : n ≠ 0 → word.toNat / 128 ^ n ≠ 0) :
    appendGroups word (buffer ++ marked (word.toNat / 128 ^ (n + 1))) n = buffer ++ encode word.toNat := by
  induction n with
  | zero => rw [appendGroups, group_zero, List.append_assoc, Nat.zero_add, Nat.pow_one, encode]
  | succ n ih =>
    have hquotient : word.toNat / 128 ^ (n + 1) / 128 = word.toNat / 128 ^ (n + 1 + 1) := by
      rw [Nat.div_div_eq_div_mul, ← Nat.pow_succ]
    have hmarked : marked (word.toNat / 128 ^ (n + 1 + 1)) ++ [0x80 ||| group word (n + 1)] =
        marked (word.toNat / 128 ^ (n + 1)) := by
      rw [marked_of_ne_zero (hword (Nat.succ_ne_zero n)), hquotient, mark_or_group word h]
    rw [appendGroups, List.append_assoc, hmarked]
    apply ih (by omega)
    intro _ hzero
    -- the groups above are not all zeros, and so neither are these with one more
    apply hword (Nat.succ_ne_zero n)
    rw [Nat.pow_succ, ← Nat.div_div_eq_div_mul, hzero]

/-- The bytes of a word are put behind the buffer, and what it holds is left in place. -/
theorem appendTo_eq (buffer : List UInt8) (word : UInt32) :
    appendTo buffer word = buffer ++ encode word.toNat := by
  have hnothing : word.toNat / 128 ^ (4 + 1) = 0 := by
    have hlt := word.toNat_lt
    omega
  obtain ⟨hle, habove, hfirst⟩ := markedCount_bounds word (Nat.le_refl 4) hnothing
  have hgroups := appendGroups_marked word buffer hle hfirst
  rwa [habove, marked_zero, List.append_nil] at hgroups

end Words

/-! ## The bytes of a number -/

/-- Marked bytes do not begin with a group of zeros, and they hide what stands behind them if there are any. -/
theorem head?_marked_append_ne (n : Nat) {more : List UInt8} (h : n = 0 → more.head? ≠ some 0x80) :
    (marked n ++ more).head? ≠ some 0x80 := by
  induction n using Nat.strongRecOn generalizing more with
  | ind n ih =>
    -- the first byte is that of the highest group, which is not empty
    by_cases hn : n = 0
    · rw [hn, marked_zero]
      exact h hn
    · rw [marked_of_ne_zero hn, List.append_assoc]
      apply ih (n / 128) (by omega)
      intro hfirst
      rw [List.singleton_append, List.head?_cons, ne_eq, Option.some.injEq, ← UInt8.toNat_inj,
        UInt8.toNat_ofNat']
      show ¬ (128 + n % 128) % 256 = 128
      omega

/-- No quantity is the beginning of another. -/
theorem eq_of_encode_append_eq {m n : Nat} {rest more : List UInt8}
    (h : encode m ++ rest = encode n ++ more) : m = n ∧ rest = more := by
  have hm := decode_encode m rest
  rw [h, decode_encode, Option.some.injEq, Prod.mk.injEq] at hm
  exact ⟨hm.1.symm, hm.2.symm⟩

/-- What makes some bytes the code of a number: every byte but the last is marked, and no group of zeros stands
in front. The number is read back from wherever they stand, and whatever else it is read from is longer and has
groups of zeros in front. -/
structure IsCode (n : Nat) (code : List UInt8) : Prop where
  ne_nil : code ≠ []
  marked : ∀ b ∈ code.dropLast, 0x80 ≤ b
  last : ∀ b ∈ code.getLast?, b < 0x80
  head_ne : code.head? ≠ some 0x80
  read_back : ∀ rest, decode (code ++ rest) = some (n, rest)
  least : ∀ bytes rest, decode bytes = some (n, rest) → code.length + rest.length ≤ bytes.length
  unique : ∀ bytes rest, decode bytes = some (n, rest) → bytes.head? ≠ some 0x80 → bytes = code ++ rest

theorem isCode_encode (n : Nat) : IsCode n (encode n) where
  ne_nil := List.concat_ne_nil _ _
  marked := by
    intro b hb
    rw [encode, List.dropLast_concat] at hb
    exact le_of_mem_marked hb
  last := by
    intro b hb
    rw [encode, List.getLast?_concat, Option.mem_some] at hb
    rw [← hb, UInt8.lt_iff_toNat_lt, UInt8.toNat_ofNat_of_lt' (by show n % 128 < 256; omega)]
    exact Nat.mod_lt n (by decide)
  head_ne := by
    apply head?_marked_append_ne
    intro hfirst
    rw [List.head?_singleton, ne_eq, Option.some.injEq, ← UInt8.toNat_inj, UInt8.toNat_ofNat']
    show ¬ n % 128 % 256 = 128
    omega
  read_back := decode_encode n
  least := by
    intro bytes rest h
    -- any code of the number is this one behind some empty groups
    obtain ⟨zeros, rfl⟩ := decode_eq_some_iff_encode.1 h
    rw [List.length_append, List.length_append]
    omega
  unique := by
    intro bytes rest h hhead
    obtain ⟨zeros, rfl⟩ := decode_eq_some_iff_encode.1 h
    cases zeros with
    | zero => rfl
    | succ zeros => exact absurd rfl hhead

/-- **Words are put behind a buffer in a prefix code.** The buffer is kept, and behind it stand one to five
bytes, the shortest that the word is read from. No word is taken for another, nor for the beginning of one. -/
theorem appendTo_prefixCode (buffer : List UInt8) (word : UInt32) :
    appendTo buffer word = buffer ++ encode word.toNat ∧
      1 ≤ (encode word.toNat).length ∧ (encode word.toNat).length ≤ 5 ∧
      IsCode word.toNat (encode word.toNat) ∧
      (∀ other, appendTo buffer other = appendTo buffer word → other = word) ∧
      ∀ other, appendTo buffer other <+: appendTo buffer word → other = word := by
  -- a code ends at its first byte without a mark, so none is the beginning of another
  have hbeginning : ∀ other, appendTo buffer other <+: appendTo buffer word → other = word := by
    rintro other ⟨rest, hrest⟩
    rw [appendTo_eq, appendTo_eq, List.append_assoc, List.append_cancel_left_eq] at hrest
    have hsame : encode other.toNat ++ rest = encode word.toNat ++ [] := by
      rw [hrest, List.append_nil]
    exact UInt32.toNat_inj.1 (eq_of_encode_append_eq hsame).1
  have hcode := isCode_encode word.toNat
  refine ⟨appendTo_eq buffer word, List.length_pos_iff.2 hcode.ne_nil, length_encode_le (k := 4) ?_, hcode,
    fun other h => hbeginning other (h ▸ List.prefix_rfl), hbeginning⟩
  have hlt := word.toNat_lt
  omega

end Melody.Midi.Quantity
