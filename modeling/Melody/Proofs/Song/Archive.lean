import Melody.Proofs.Binary.Exact
import Melody.Song.Archive

/-!
# Songs in binary form, there and back

A song is read back from its bytes with all of its fields, whatever bytes follow, and from fewer bytes no
song is read at all. Nothing else is read either: what a song is read from begins with the bytes of that
song, so that each song has one binary form.

Lengths are floats by their bits and may be anything, also no number. What is asked of a song is that its
lists and its name can be counted in eight bytes.

## The architecture

* The `exact_archive` lemmas: the codecs of letters, pitches, chords, tracks and songs are exact, each because
  its parts are.
* **`Song.ofBytes_eq_ok_iff`**: which bytes hold a song, and **`Song.ofBytes_toBytes`**: bytes with more behind
  them, bytes cut off, and bytes from elsewhere.
-/

namespace Melody

open Binary

/-! ## The parts of a song -/

namespace Letter

theorem index_lt (l : Letter) : l.index < 7 := by cases l <;> decide

/-- A letter is read from its own index and from no other. -/
theorem ofIndex?_eq_some_iff {i : Nat} {l : Letter} : ofIndex? i = some l ↔ l.index = i := by
  constructor
  · intro h
    match i, h with
    | 0, h | 1, h | 2, h | 3, h | 4, h | 5, h | 6, h => exact Option.some.inj h ▸ rfl
  · rintro rfl
    exact ofIndex?_index l

theorem exact_archive : archive.Exact fun _ => True :=
  Codec.exact_uint32.mapOption fun n l _ => by
    have hindex : (UInt32.ofNat l.index).toNat = l.index :=
      UInt32.toNat_ofNat_of_lt' (Nat.lt_trans l.index_lt (by decide))
    rw [ofIndex?_eq_some_iff, ← UInt32.toNat_inj, hindex]

end Letter

/-- A pitch is its letter, its accidental and its octave. -/
theorem Pitch.exact_archive : archive.Exact fun _ => True :=
  ((Letter.exact_archive.pair (Codec.exact_int32.pair Codec.exact_int32)).iso (fun _ => rfl)
    fun _ => rfl).of_iff fun p => by simp only [and_self]

/-- A chord is its pitches and its length, and the number of pitches must fit its field. -/
theorem Chord.exact_archive : archive.Exact fun c => c.pitches.length < 256 ^ 8 :=
  ((Pitch.exact_archive.list.pair Codec.exact_binary64).iso (fun _ => rfl) fun _ => rfl).of_iff
    fun c => by simp only [implies_true, and_true]

theorem Track.exact_archive : archive.Exact fun t =>
    t.chords.length < 256 ^ 8 ∧ ∀ c ∈ t.chords, c.pitches.length < 256 ^ 8 :=
  ((Chord.exact_archive.list.pair (Codec.exact_int32.pair Codec.exact_int32)).iso (fun _ => rfl)
    fun _ => rfl).of_iff fun t => by simp only [and_true]

/-! ## Songs -/

namespace Song

/-- A song that fits the memory of a machine with 64-bit addresses: none of its lists and not its name is
longer than such a machine can count. -/
structure Addressable (s : Song) : Prop where
  name : s.name.utf8ByteSize < UInt64.size
  tracks : s.tracks.length < UInt64.size
  chords : ∀ t ∈ s.tracks, t.chords.length < UInt64.size
  pitches : ∀ t ∈ s.tracks, ∀ c ∈ t.chords, c.pitches.length < UInt64.size

/-- A song is its name, its two settings and its tracks. With the law of exactness for every part there is
nothing left to prove about bytes. -/
theorem exact_archive : archive.Exact Addressable :=
  ((Codec.exact_string.pair (Codec.exact_uint32.pair
    (Codec.exact_uint16.pair Track.exact_archive.list))).iso (fun _ => rfl) fun _ => rfl).of_iff
      fun s => by
    constructor
    · rintro ⟨hname, -, -, htracks, hrest⟩
      exact ⟨hname, htracks, fun t ht => (hrest t ht).1, fun t ht => (hrest t ht).2⟩
    · intro h
      exact ⟨h.name, trivial, trivial, h.tracks, fun t ht => ⟨h.chords t ht, h.pitches t ht⟩⟩

/-- A song is read from its own bytes and whatever follows them, and from nothing else. -/
theorem ofBytes_eq_ok_iff {bytes : List UInt8} {s : Song} :
    ofBytes bytes = .ok s ↔ s.Addressable ∧ s.toBytes <+: bytes := by
  have hread : ofBytes bytes = .ok s ↔ ∃ rest, archive.decode bytes = some (s, rest) := by
    rw [ofBytes]
    cases archive.decode bytes with
    | none => simp
    | some found => simp [Prod.ext_iff]
  rw [hread]
  simp only [exact_archive bytes s _, exists_and_left]
  rfl

theorem ofBytes_take {s : Song} (h : s.Addressable) {n : Nat} (hn : n < s.toBytes.length) :
    ofBytes (s.toBytes.take n) = .error .archive := by
  rw [ofBytes, toBytes, exact_archive.decode_take h hn]

/-- **Binary songs are read back.** The bytes of a song give the song, field by field and bit by bit, with
anything behind them; cut off anywhere they give none; and bytes that give a song begin with its own. -/
theorem ofBytes_toBytes :
    (∀ s : Song, s.Addressable → ∀ tail, ofBytes (s.toBytes ++ tail) = .ok s) ∧
    (∀ s : Song, s.Addressable → ∀ n < s.toBytes.length,
      ofBytes (s.toBytes.take n) = .error .archive) ∧
    ∀ bytes s, ofBytes bytes = .ok s → s.toBytes <+: bytes := by
  refine ⟨?_, ?_, ?_⟩
  · intro s h tail
    exact ofBytes_eq_ok_iff.2 ⟨h, List.prefix_append _ _⟩
  · intro s h n hn
    exact ofBytes_take h hn
  · intro bytes s h
    exact (ofBytes_eq_ok_iff.1 h).2

/-- A song with a name beyond ASCII, an empty track, a rest, the least words and a length that is no
number. -/
def sketch : Song :=
  ⟨"Ré", 0xFFFFFFFF, 480,
    [⟨[], -2147483648, 64⟩, ⟨[⟨[], ⟨0xFFF0000000000001⟩⟩, ⟨[⟨.b, -1, 7⟩], .ofFloat 0.5⟩], 5, -1⟩]⟩

def sketchBytes : List UInt8 :=
  [3, 0, 0, 0, 0, 0, 0, 0, 0x52, 0xC3, 0xA9, 0xFF, 0xFF, 0xFF, 0xFF, 0xE0, 1, 2, 0, 0, 0, 0, 0, 0, 0] ++
  [0, 0, 0, 0, 0, 0, 0, 0, 0, 0, 0, 0x80, 64, 0, 0, 0] ++
  [2, 0, 0, 0, 0, 0, 0, 0] ++
  [0, 0, 0, 0, 0, 0, 0, 0, 1, 0, 0, 0, 0, 0, 0xF0, 0xFF] ++
  [1, 0, 0, 0, 0, 0, 0, 0, 6, 0, 0, 0, 0xFF, 0xFF, 0xFF, 0xFF, 7, 0, 0, 0, 0, 0, 0, 0, 0, 0, 0xE0, 0x3F] ++
  [5, 0, 0, 0, 0xFF, 0xFF, 0xFF, 0xFF]

theorem toBytes_sketch : sketch.toBytes = sketchBytes := by decide +kernel

/-- The bytes with a tail, and cut off in the middle of a chord. -/
theorem ofBytes_toBytes_sketch :
    ofBytes (sketchBytes ++ [0xFF, 0]) = .ok sketch ∧ ofBytes (sketchBytes.take 64) = .error .archive ∧
    sketch.toBytes <+: sketchBytes ++ [0xFF, 0] := by
  have hfits : sketch.Addressable := by
    refine ⟨by decide, by decide, by decide, by decide⟩
  have hread := ofBytes_toBytes.1 sketch hfits [0xFF, 0]
  have hcut := ofBytes_toBytes.2.1 sketch hfits 64 (by rw [toBytes_sketch]; decide)
  rw [toBytes_sketch] at hread hcut
  exact ⟨hread, hcut, ofBytes_toBytes.2.2 _ _ hread⟩

end Song

end Melody
