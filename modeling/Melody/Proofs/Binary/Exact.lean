import Mathlib
import Melody.Binary.Codec

/-!
# Codecs that read what they write

A binary codec is exact when it reads from the front of some bytes just those values that are written
there: what it reads is what writing would give, and whatever follows is left alone. No codec marks where a
value ends, so that a list or a record is read back only because each of its parts stops where it was
written to stop.

## The architecture

* **`Codec.Exact`** is the law, on the values that fit their length fields.
* **`exact_word`**, **`exact_bytes`** and **`exact_string`**: the law of the scalars.
* **`Exact.mapOption`**, **`Exact.iso`**, **`Exact.pair`** and **`Exact.list`** hand it on from the parts to
  the whole.
* **`Exact.decode_take`**: an exact codec reads nothing from a text that was cut off.
-/

namespace Melody.Binary

/-! ## Numbers -/

/-- A number takes up its whole field, however small it is. -/
theorem length_littleEndian (width n : Nat) : (littleEndian width n).length = width := by
  induction width generalizing n with
  | zero => rfl
  | succ width ih => rw [littleEndian, List.length_cons, ih]

/-- A number that fits its field is read back from it. Induction over the width, one byte of the field and of
the number at a time. -/
theorem number_littleEndian {width n : Nat} (h : n < 256 ^ width) :
    number (littleEndian width n) = n := by
  induction width generalizing n with
  | zero =>
    rw [Nat.pow_zero] at h
    show 0 = n
    omega
  | succ width ih =>
    rw [Nat.pow_succ] at h
    -- the lowest byte is the remainder, and the field behind it holds the quotient
    rw [littleEndian, number, ih (by omega), UInt8.toNat_ofNat']
    omega

/-- No field holds more than its width allows, which is what a decoded length is checked by. -/
theorem number_lt (bytes : List UInt8) : number bytes < 256 ^ bytes.length := by
  induction bytes with
  | nil => decide
  | cons b rest ih =>
    have hb := b.toNat_lt
    rw [number, List.length_cons, Nat.pow_succ]
    omega

/-- A field is the only one of its width that holds its number. -/
theorem littleEndian_number (bytes : List UInt8) :
    littleEndian bytes.length (number bytes) = bytes := by
  induction bytes with
  | nil => rfl
  | cons b rest ih =>
    have hb := b.toNat_lt
    have hlow : UInt8.ofNat (number (b :: rest)) = b := by
      rw [← UInt8.toNat_inj, UInt8.toNat_ofNat', number]
      omega
    have hhigh : number (b :: rest) / 256 = number rest := by
      rw [number]
      omega
    -- the first byte and the others come back one after the other
    rw [List.length_cons, littleEndian, hlow, hhigh, ih]

/-! ## The law -/

namespace Codec

variable {α β : Type}

/-- Decoding finds a value exactly where it is written, if it fits, and leaves what is behind it. -/
def Exact (c : Codec α) (Fits : α → Prop) : Prop :=
  ∀ bytes a rest, c.decode bytes = some (a, rest) ↔ Fits a ∧ c.encode a ++ rest = bytes

namespace Exact

variable {c : Codec α} {d : Codec β} {F : α → Prop} {G : β → Prop} {a : α}

theorem decode_encode (h : c.Exact F) (ha : F a) (rest : List UInt8) :
    c.decode (c.encode a ++ rest) = some (a, rest) :=
  (h _ a rest).2 ⟨ha, rfl⟩

/-- Bytes that were cut off hold no value: what would be read from them could be read from all of them, too,
and would leave something over. -/
theorem decode_take (h : c.Exact F) (ha : F a) {n : Nat} (hn : n < (c.encode a).length) :
    c.decode ((c.encode a).take n) = none := by
  cases hread : c.decode ((c.encode a).take n) with
  | none => rfl
  | some found =>
    obtain ⟨b, rest⟩ := found
    obtain ⟨hb, hfront⟩ := (h _ b rest).1 hread
    -- put behind what was read, the rest of the whole is the rest of the text
    have hwhole : c.encode b ++ (rest ++ (c.encode a).drop n) = c.encode a ++ [] := by
      rw [← List.append_assoc, hfront, List.take_append_drop, List.append_nil]
    have hboth := h.decode_encode hb (rest ++ (c.encode a).drop n)
    rw [hwhole, h.decode_encode ha [], Option.some.injEq, Prod.mk.injEq] at hboth
    -- so nothing was cut off
    have hnothing := (List.append_eq_nil_iff.1 hboth.2.symm).2
    rw [List.drop_eq_nil_iff] at hnothing
    exact absurd hn (Nat.not_lt.2 hnothing)

/-- The law may be stated on any condition that says the same. -/
theorem of_iff {G : α → Prop} (h : c.Exact F) (hfits : ∀ a, F a ↔ G a) : c.Exact G := by
  intro bytes a rest
  rw [h bytes a rest, hfits a]

/-! ## Parts and wholes -/

/-- A view of some of the values: what is read must have one, and it must be the view of the value that is
written. -/
theorem mapOption (h : c.Exact F) {view? : α → Option β} {back : β → α}
    (hview : ∀ a b, F a → (view? a = some b ↔ back b = a)) :
    (c.mapOption view? back).Exact fun b => F (back b) := by
  intro bytes b rest
  simp only [Codec.mapOption, bind, pure, Option.bind_eq_some_iff, Prod.exists, Option.some.injEq,
    Prod.mk.injEq]
  constructor
  · -- what is read is a value whose view is the one that was asked for
    rintro ⟨a, _, hread, _, hseen, rfl, rfl⟩
    obtain ⟨ha, hbytes⟩ := (h _ _ _).1 hread
    obtain rfl := (hview a _ ha).1 hseen
    exact ⟨ha, hbytes⟩
  · rintro ⟨hb, rfl⟩
    exact ⟨back b, rest, h.decode_encode hb rest, b, (hview _ b hb).2 rfl, rfl, rfl⟩

theorem map (h : c.Exact F) {view : α → β} {back : β → α}
    (hview : ∀ a b, F a → (view a = b ↔ back b = a)) :
    (c.map view back).Exact fun b => F (back b) :=
  h.mapOption fun a b ha => by rw [Option.some.injEq, hview a b ha]

/-- The same values in another form. -/
theorem iso (h : c.Exact F) {view : α → β} {back : β → α} (hback : ∀ a, back (view a) = a)
    (hview : ∀ b, view (back b) = b) : (c.map view back).Exact fun b => F (back b) :=
  h.map fun a b _ => ⟨fun hab => hab ▸ hback a, fun hab => hab ▸ hview b⟩

/-- One value behind the other: the first stops where it was written to stop, and the second starts there. -/
theorem pair (hc : c.Exact F) (hd : d.Exact G) : (c.pair d).Exact fun ab => F ab.1 ∧ G ab.2 := by
  rintro bytes ⟨a, b⟩ rest
  -- both readers in a row, as one existence of the bytes between them
  simp only [Codec.pair, bind, pure, Option.bind_eq_some_iff, Prod.exists, Option.some.injEq,
    Prod.mk.injEq]
  constructor
  · rintro ⟨_, _, hfirst, _, _, hsecond, ⟨rfl, rfl⟩, rfl⟩
    obtain ⟨ha, rfl⟩ := (hc _ _ _).1 hfirst
    obtain ⟨hb, rfl⟩ := (hd _ _ _).1 hsecond
    exact ⟨⟨ha, hb⟩, List.append_assoc ..⟩
  · rintro ⟨⟨ha, hb⟩, rfl⟩
    rw [List.append_assoc]
    exact ⟨a, _, hc.decode_encode ha _, b, rest, hd.decode_encode hb rest, ⟨rfl, rfl⟩, rfl⟩

/-- A number of values is read from where they are written one behind the other. -/
theorem decodeMany_eq_some_iff (h : c.Exact F) {count : Nat} {bytes rest : List UInt8} {as : List α} :
    c.decodeMany count bytes = some (as, rest) ↔
      as.length = count ∧ (∀ a ∈ as, F a) ∧ as.flatMap c.encode ++ rest = bytes := by
  induction count generalizing bytes rest as with
  | zero =>
    rw [decodeMany, Option.some.injEq, Prod.mk.injEq, List.length_eq_zero_iff]
    constructor
    · rintro ⟨rfl, rfl⟩
      exact ⟨rfl, List.forall_mem_nil _, rfl⟩
    · rintro ⟨rfl, -, rfl⟩
      exact ⟨rfl, rfl⟩
  | succ count ih =>
    simp only [decodeMany, bind, pure, Option.bind_eq_some_iff, Prod.exists, Option.some.injEq,
      Prod.mk.injEq, ih]
    constructor
    · -- the first value is cut off by its own law, and the induction hypothesis takes the others
      rintro ⟨a, _, hfirst, more, _, ⟨rfl, hmore, rfl⟩, rfl, rfl⟩
      obtain ⟨ha, rfl⟩ := (h _ _ _).1 hfirst
      exact ⟨rfl, List.forall_mem_cons.2 ⟨ha, hmore⟩, by rw [List.flatMap_cons, List.append_assoc]⟩
    · rintro ⟨hlength, hall, rfl⟩
      obtain ⟨a, more, rfl⟩ := List.exists_cons_of_length_eq_add_one hlength
      rw [List.forall_mem_cons] at hall
      rw [List.flatMap_cons, List.append_assoc]
      exact ⟨a, _, h.decode_encode hall.1 _, more, rest,
        ⟨Nat.succ.inj hlength, hall.2, rfl⟩, rfl, rfl⟩

end Exact

/-! ## Scalars -/

/-- A field of some bytes is read as the one number that is written so. -/
theorem exact_word (width : Nat) : (word width).Exact (· < 256 ^ width) := by
  intro bytes n rest
  simp only [word]
  constructor
  · intro h
    split at h
    · cases h
    · next hlength =>
      rw [Option.some.injEq, Prod.mk.injEq] at h
      obtain ⟨rfl, rfl⟩ := h
      -- the bytes that were taken are a whole field
      have hwidth : (bytes.take width).length = width := by
        rw [List.length_take] at hlength ⊢
        omega
      have hlt := number_lt (bytes.take width)
      have hback := littleEndian_number (bytes.take width)
      rw [hwidth] at hlt hback
      exact ⟨hlt, by rw [hback, List.take_append_drop]⟩
  · rintro ⟨hn, rfl⟩
    have hlength := length_littleEndian width n
    rw [List.take_left' hlength, List.drop_left' hlength, if_neg (by omega), number_littleEndian hn]

/-- Every word fits its field, so there is no condition left. -/
theorem exact_uint16 : uint16.Exact fun _ => True :=
  ((exact_word 2).map fun n w hn => by
    rw [← UInt16.toNat_inj, UInt16.toNat_ofNat_of_lt' hn, eq_comm]).of_iff
    fun w => iff_true_intro w.toNat_lt

theorem exact_uint32 : uint32.Exact fun _ => True :=
  ((exact_word 4).map fun n w hn => by
    rw [← UInt32.toNat_inj, UInt32.toNat_ofNat_of_lt' hn, eq_comm]).of_iff
    fun w => iff_true_intro w.toNat_lt

theorem exact_uint64 : uint64.Exact fun _ => True :=
  ((exact_word 8).map fun n w hn => by
    rw [← UInt64.toNat_inj, UInt64.toNat_ofNat_of_lt' hn, eq_comm]).of_iff
    fun w => iff_true_intro w.toNat_lt

theorem exact_int32 : int32.Exact fun _ => True := exact_uint32.iso (fun _ => rfl) fun _ => rfl

theorem exact_binary64 : binary64.Exact fun _ => True := exact_uint64.iso (fun _ => rfl) fun _ => rfl

/-! ## Lists and strings -/

/-- A list is its length in eight bytes and then its values. -/
theorem Exact.list {c : Codec α} {F : α → Prop} (h : c.Exact F) :
    c.list.Exact fun as => as.length < 256 ^ 8 ∧ ∀ a ∈ as, F a := by
  intro bytes as rest
  simp only [Codec.list, bind, Option.bind_eq_some_iff, Prod.exists, h.decodeMany_eq_some_iff]
  constructor
  · -- the count comes first and is exact itself; the elements follow by the lemma on `decodeMany`
    rintro ⟨_, _, hcount, rfl, hall, rfl⟩
    obtain ⟨hlt, rfl⟩ := (exact_word 8 _ _ _).1 hcount
    exact ⟨⟨hlt, hall⟩, List.append_assoc ..⟩
  · rintro ⟨⟨hlt, hall⟩, rfl⟩
    rw [List.append_assoc]
    exact ⟨_, _, (exact_word 8).decode_encode hlt _, rfl, hall, rfl⟩

/-- A stretch of bytes behind its length. A length that is more than there are bytes makes nothing. -/
theorem exact_bytes : bytes.Exact fun bs => bs.length < 256 ^ 8 := by
  intro text bs rest
  simp only [Codec.bytes, bind, Option.bind_eq_some_iff, Prod.exists]
  constructor
  · rintro ⟨size, behind, hsize, h⟩
    obtain ⟨hlt, rfl⟩ := (exact_word 8 _ _ _).1 hsize
    split at h
    · cases h
    · next hlength =>
      rw [Option.some.injEq, Prod.mk.injEq] at h
      obtain ⟨rfl, rfl⟩ := h
      -- the length counts what is taken
      have htake : (behind.take size).length = size := by
        rw [List.length_take]
        omega
      rw [htake, List.append_assoc, List.take_append_drop]
      exact ⟨hlt, rfl⟩
  · rintro ⟨hlt, rfl⟩
    rw [List.append_assoc]
    refine ⟨_, _, (exact_word 8).decode_encode hlt _, ?_⟩
    rw [List.take_left' rfl, List.drop_left' rfl, List.length_append, if_neg (by omega)]

/-- The standard library builds the list of a byte array from a loop with an accumulator; this is what the
loop holds at any index. -/
theorem toList_loop (bs : ByteArray) (i : Nat) (front : List UInt8) :
    ByteArray.toList.loop bs i front = front.reverse ++ bs.data.toList.drop i := by
  induction i, front using ByteArray.toList.loop.induct bs with
  | case1 i front hi ih =>
    have hlt : i < bs.data.toList.length := by simpa using hi
    have hget : bs.get! i = bs.data.toList[i] := by
      simp only [ByteArray.get!, Array.getElem_toList]
      exact getElem!_pos bs.data i (by simpa using hi)
    rw [ByteArray.toList.loop, if_pos hi, ih, List.drop_eq_getElem_cons hlt, hget]
    simp
  | case2 i front hi =>
    -- past the last byte the loop only turns `front` round
    have hge : bs.data.toList.length ≤ i := by simpa using hi
    rw [ByteArray.toList.loop, if_neg hi, List.drop_eq_nil_of_le hge, List.append_nil]

/-- The list of a byte array is that of the array below it, on which the list lemmas work. -/
theorem toList_eq (bs : ByteArray) : bs.toList = bs.data.toList := by
  rw [ByteArray.toList, toList_loop, List.reverse_nil, List.nil_append, List.drop_zero]

/-- The length field of a string counts its bytes and not its characters. -/
theorem length_toUTF8 (s : String) : s.toUTF8.toList.length = s.utf8ByteSize := by
  rw [toList_eq]
  rfl

/-- Bytes are a string exactly when they are the bytes of the string. -/
theorem fromUTF8?_eq_some_iff {bs : List UInt8} {s : String} :
    String.fromUTF8? ⟨bs.toArray⟩ = some s ↔ s.toUTF8.toList = bs := by
  rw [toList_eq, String.fromUTF8?]
  constructor
  · intro h
    split at h
    · rw [← Option.some.inj h]
      rfl
    · cases h
  · rintro rfl
    -- the bytes of a string are always valid, so the check is passed
    have hvalid : ByteArray.IsValidUTF8 ⟨s.toUTF8.data.toList.toArray⟩ := s.isValidUTF8
    rw [dif_pos hvalid]
    rfl

/-- A string is read from its bytes and from no others: each text has one encoding. -/
theorem exact_string : string.Exact fun s => s.utf8ByteSize < 256 ^ 8 :=
  (exact_bytes.mapOption fun _ _ _ => fromUTF8?_eq_some_iff).of_iff fun s => by rw [length_toUTF8]

end Codec

end Melody.Binary
