import Melody.Midi.Inspection
import Melody.Proofs.Midi.Recording

/-!
# Files read back

A file is cut into its chunks again by the lengths in front of them. Four bytes tell a length only up to a
multiple of `2 ^ 32`, so a body must be shorter than that to be cut off where it ends; nothing else is asked
of it.

## The architecture

* **`cut?_chunk`**: one chunk, whatever its body and whatever follows it; **`cut?_chunk_of_short`** if the
  length is told right.
* **`ofBytes_of_cut?`**: what comes next in a file is told by the letters of its first chunk; **`ofBytes_track`**
  is what becomes of a track.
* **`trackData_append`**: a run over the chunks of some tracks.
* **`inspect_header`** reads the file of a sheet down to its tracks, and **`inspect_of_file?`** says that what
  is read are the bodies of the tracks.
-/

namespace Melody.Midi

/-! ## Numbers -/

theorem bigEndian_word16 {n : Nat} (h : n < 65536) : bigEndian (word16 n) = n := by
  show (0 * 256 + (UInt8.ofNat (n / 256)).toNat) * 256 + (UInt8.ofNat n).toNat = n
  rw [UInt8.toNat_ofNat', UInt8.toNat_ofNat']
  omega

/-- Four bytes tell a number up to a multiple of `2 ^ 32`. -/
theorem bigEndian_word32 (n : Nat) : bigEndian (word32 n) = n % 4294967296 := by
  show (((0 * 256 + (UInt8.ofNat (n / 65536 / 256)).toNat) * 256 + (UInt8.ofNat (n / 65536)).toNat) *
    256 + (UInt8.ofNat (n / 256)).toNat) * 256 + (UInt8.ofNat n).toNat = _
  rw [UInt8.toNat_ofNat', UInt8.toNat_ofNat', UInt8.toNat_ofNat', UInt8.toNat_ofNat']
  omega

/-! ## Chunks -/

/-- A chunk is cut off where its length says, which need not be where its body ends. -/
theorem cut?_chunk {id : List UInt8} (hid : id.length = 4) (body rest : List UInt8) :
    cut? (chunk id body ++ rest) = some ⟨id, (body ++ rest).take (body.length % 4294967296),
      (body ++ rest).drop (body.length % 4294967296)⟩ := by
  have hword : (word32 body.length).length = 4 := rfl
  -- the letters and the length in front of a body are eight bytes
  have hprefix : (id ++ word32 body.length).length = 8 := by
    rw [List.length_append, hid, hword]
  have hbytes : chunk id body ++ rest = (id ++ word32 body.length) ++ (body ++ rest) := by
    rw [chunk, List.append_assoc]
  have hsize : bigEndian (((chunk id body ++ rest).drop 4).take 4) = body.length % 4294967296 := by
    rw [hbytes, List.append_assoc, List.drop_left' hid, List.take_left' hword, bigEndian_word32]
  rw [cut?]
  dsimp only
  rw [hsize, hbytes, List.take_left' hprefix, List.drop_left' hprefix, if_neg (by omega),
    List.append_assoc, List.take_left' hid]

/-- A chunk whose body is shorter than `2 ^ 32` bytes is cut off as it was written. -/
theorem cut?_chunk_of_short {id body : List UInt8} (hid : id.length = 4) (hbody : body.length < 4294967296)
    (rest : List UInt8) : cut? (chunk id body ++ rest) = some ⟨id, body, rest⟩ := by
  rw [cut?_chunk hid, Nat.mod_eq_of_lt hbody, List.take_left' rfl, List.drop_left' rfl]

/-- What is next in a file is told by the letters of its first chunk. -/
theorem ofBytes_of_cut? {bytes : List UInt8} {c : Cut} (h : cut? bytes = some c) :
    Next.ofBytes bytes =
      if c.id = headerId then
        match headerDivision? c.data with
        | some division => .header division c.rest
        | none => .broken
      else if c.id = trackId then .track c.data c.rest
      else Next.ofBytes c.rest := by
  have hbytes : bytes.isEmpty = false := by
    cases bytes with
    | nil => cases h
    | cons => rfl
  rw [Next.ofBytes]
  rw [if_neg (by rw [hbytes]; exact Bool.false_ne_true)]
  -- the definition matches on the cut once more; `h` rules out the case without one
  split
  · next hnone =>
    rw [h] at hnone
    cases hnone
  · next c' hsome =>
    rw [h] at hsome
    obtain rfl := Option.some.inj hsome
    rfl

theorem trackId_ne_headerId : trackId ≠ headerId := by decide

/-- A track is found behind its letters, as long as its length says. -/
theorem ofBytes_track (body rest : List UInt8) :
    Next.ofBytes (chunk trackId body ++ rest) =
      .track ((body ++ rest).take (body.length % 4294967296))
        ((body ++ rest).drop (body.length % 4294967296)) := by
  rw [ofBytes_of_cut? (cut?_chunk rfl body rest), if_neg trackId_ne_headerId, if_pos rfl]

theorem ofBytes_track_of_short {body : List UInt8} (hbody : body.length < 4294967296) (rest : List UInt8) :
    Next.ofBytes (chunk trackId body ++ rest) = .track body rest := by
  rw [ofBytes_of_cut? (cut?_chunk_of_short rfl hbody rest), if_neg trackId_ne_headerId, if_pos rfl]

theorem trackData_nil : trackData [] = [] := by decide +kernel

theorem trackData_of_track {bytes data rest : List UInt8} (h : Next.ofBytes bytes = .track data rest) :
    trackData bytes = data :: trackData rest := by
  rw [trackData]
  -- the loop ends at anything but a track
  split
  · next hnext =>
    rw [hnext] at h
    cases h
  · next hnext =>
    rw [hnext] at h
    cases h
  · next hnext =>
    rw [hnext] at h
    cases h
  · next hnext =>
    rw [hnext] at h
    cases h
    rfl

/-- The bodies of short chunks are read one after the other, and then whatever follows them. -/
theorem trackData_append {bodies : List (List UInt8)} (h : ∀ body ∈ bodies, body.length < 4294967296)
    (rest : List UInt8) : trackData (bodies.flatMap (chunk trackId) ++ rest) = bodies ++ trackData rest := by
  induction bodies with
  | nil => rfl
  | cons body bodies ih =>
    rw [List.forall_mem_cons] at h
    rw [List.flatMap_cons, List.append_assoc, trackData_of_track (ofBytes_track_of_short h.1 _), ih h.2]
    rfl

/-- The tracks of a file are the bodies it was made of, if all are short. -/
theorem trackData_flatMap {bodies : List (List UInt8)}
    (h : ∀ body ∈ bodies, body.length < 4294967296) :
    trackData (bodies.flatMap (chunk trackId)) = bodies := by
  have hread := trackData_append h []
  rwa [List.append_nil, trackData_nil, List.append_nil] at hread

/-! ## Headers -/

/-- The data of a header gives back a resolution whose top bit is not set. -/
theorem headerDivision?_data {ticksPerQuarter : UInt16} (h : ticksPerQuarter < 0x8000) (n : Nat) :
    headerDivision? (word16 1 ++ word16 n ++ word16 ticksPerQuarter.toNat) =
      some (.ticksPerQuarter ticksPerQuarter) := by
  have hlt : ticksPerQuarter.toNat < 32768 := h
  -- the highest bit of the division tells ticks from time code
  have hhigh : UInt8.ofNat (ticksPerQuarter.toNat / 256) < 0x80 := by
    rw [UInt8.lt_iff_toNat_lt, UInt8.toNat_ofNat']
    show ticksPerQuarter.toNat / 256 % 2 ^ 8 < 128
    omega
  have hdata : word16 1 ++ word16 n ++ word16 ticksPerQuarter.toNat =
      [0, 1, UInt8.ofNat (n / 256), UInt8.ofNat n, UInt8.ofNat (ticksPerQuarter.toNat / 256),
        UInt8.ofNat ticksPerQuarter.toNat] := rfl
  rw [hdata, headerDivision?, if_pos (by decide), Division.ofBytes?, if_pos hhigh]
  show some (Division.ticksPerQuarter (UInt16.ofNat (bigEndian (word16 ticksPerQuarter.toNat)))) = _
  rw [bigEndian_word16 (by omega), UInt16.ofNat_toNat]

/-- A file that starts with its header is in no other container. -/
theorem unwrap_header (s : Sheet) (rest : List UInt8) :
    unwrap (s.header ++ rest) = .ok (s.header ++ rest) := by
  have hletters : headerId.isPrefixOf (s.header ++ rest) = true := by
    rw [List.isPrefixOf_iff_prefix, Sheet.header, chunk, List.append_assoc, List.append_assoc]
    exact List.prefix_append headerId _
  rw [unwrap, if_pos hletters]

/-! ## Files -/

/-- Whether a file can be read is settled by its division, before any track is looked at. -/
theorem inspect_header (s : Sheet) (rest : List UInt8) :
    inspect (s.header ++ rest) =
      match headerDivision? (word16 1 ++ word16 s.trackCount ++ word16 s.ticksPerQuarter.toNat) with
      | some (.ticksPerQuarter n) =>
        .ok ⟨n, (trackData rest).length, numberedEvents 0 (trackData rest)⟩
      | some .timecode => .error .timecode
      | none => .error .badHeader := by
  -- the header of a sheet has six bytes, whatever it says
  have hcut : cut? (s.header ++ rest) =
      some ⟨headerId, word16 1 ++ word16 s.trackCount ++ word16 s.ticksPerQuarter.toNat, rest⟩ :=
    cut?_chunk_of_short rfl (by show 6 < 4294967296; decide) rest
  rw [inspect, unwrap_header]
  dsimp only [bind, Except.bind]
  rw [ofBytes_of_cut? hcut, if_pos rfl]
  cases headerDivision? (word16 1 ++ word16 s.trackCount ++ word16 s.ticksPerQuarter.toNat) with
  | none => rfl
  | some division =>
    cases division with
    | ticksPerQuarter n => rfl
    | timecode => rfl

variable {s : Sheet} {bytes : List UInt8}

/-- A file whose resolution has not the top bit is read, whatever its tracks are. -/
theorem inspect_of_low_resolution (hfile : s.file? = .ok bytes) (h : s.ticksPerQuarter < 0x8000) :
    inspect bytes = .ok ⟨s.ticksPerQuarter, (trackData (s.bodies.flatMap (chunk trackId))).length,
      numberedEvents 0 (trackData (s.bodies.flatMap (chunk trackId)))⟩ := by
  obtain ⟨-, rfl⟩ := Sheet.file?_eq_ok_iff.1 hfile
  rw [inspect_header, headerDivision?_data h]

/-- What is read from a file of a sheet: its resolution, its tracks, and the events of their bodies. -/
theorem inspect_of_file? (hfile : s.file? = .ok bytes) (hdivision : s.ticksPerQuarter < 0x8000)
    (hbodies : ∀ body ∈ s.bodies, body.length < 4294967296) :
    inspect bytes = .ok ⟨s.ticksPerQuarter, s.trackCount, numberedEvents 0 s.bodies⟩ := by
  rw [inspect_of_low_resolution hfile hdivision, trackData_flatMap hbodies, Sheet.length_bodies]

end Melody.Midi
