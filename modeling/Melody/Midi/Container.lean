import Melody.Error
import Melody.Midi.File

/-!
# Chunks of a MIDI file

A file is a sequence of chunks: four letters, the number of bytes, and the bytes. Reading is lenient about
where a file ends: a chunk that claims more bytes than there are has those that are left.

* **`Header.ofBytes?`** reads the data of a header chunk.
* **`Next.ofBytes`** finds the next header or track, passing over chunks with other letters.
* **`unwrap`** takes the file out of a RIFF envelope, whose chunks count bytes low byte first and are
  padded to an even length.
-/

namespace Melody.Midi

/-- The number of some bytes, high byte first. -/
def bigEndian (bytes : List UInt8) : Nat := bytes.foldl (fun n b => n * 256 + b.toNat) 0

/-- The number of some bytes, low byte first. -/
def littleEndian (bytes : List UInt8) : Nat := bigEndian bytes.reverse

/-! ## Headers -/

/-- What a header says about time. -/
inductive Division
  | ticksPerQuarter (n : UInt16)
  /-- Parts of a second; songs are never written so. -/
  | timecode
deriving DecidableEq, Repr

namespace Division

/-- The frame rates of a timecode division. -/
def frameRates : List Nat := [24, 25, 29, 30]

/-- The division of two bytes. The top bit marks a timecode, whose frame rate is the first byte negated. -/
def ofBytes? (high low : UInt8) : Option Division :=
  if high < 0x80 then some (.ticksPerQuarter (UInt16.ofNat (bigEndian [high, low])))
  else if 256 - high.toNat ∈ frameRates then some .timecode
  else none

end Division

/-- The division of a header chunk. The format is one of three; the number of tracks does not count, and
nor does what follows the division. -/
def headerDivision? : List UInt8 → Option Division
  | f₁ :: f₀ :: _ :: _ :: high :: low :: _ =>
    if bigEndian [f₁, f₀] ≤ 2 then Division.ofBytes? high low else none
  | _ => none

/-! ## Chunks -/

/-- A chunk and what follows it. -/
structure Cut where
  id : List UInt8
  data : List UInt8
  rest : List UInt8
deriving DecidableEq, Repr

/-- Cuts off the first chunk, if its letters and its length are complete. -/
def cut? (bytes : List UInt8) : Option Cut :=
  if (bytes.take 8).length < 8 then none
  else
    let size := bigEndian ((bytes.drop 4).take 4)
    some ⟨bytes.take 4, (bytes.drop 8).take size, (bytes.drop 8).drop size⟩

/-- A chunk takes at least the eight bytes in front of its data. -/
theorem length_rest_lt_of_cut? {bytes : List UInt8} {c : Cut} (h : cut? bytes = some c) :
    c.rest.length < bytes.length := by
  unfold cut? at h
  split at h
  · cases h
  · cases h
    simp only [List.length_take, List.length_drop] at *
    omega

/-- What comes next in a file. -/
inductive Next
  | nothing
  /-- A chunk that breaks off, or a header that makes no sense. -/
  | broken
  | header (division : Division) (rest : List UInt8)
  | track (data rest : List UInt8)

/-- The next header or track. -/
def Next.ofBytes (bytes : List UInt8) : Next :=
  if bytes.isEmpty then .nothing
  else
    match h : cut? bytes with
    | none => .broken
    | some c =>
      if c.id = headerId then
        match headerDivision? c.data with
        | some division => .header division c.rest
        | none => .broken
      else if c.id = trackId then .track c.data c.rest
      else
        have := length_rest_lt_of_cut? h
        Next.ofBytes c.rest
termination_by bytes.length

/-- Finding a track uses up bytes. -/
theorem length_lt_of_next_track {bytes data rest : List UInt8}
    (h : Next.ofBytes bytes = .track data rest) : rest.length < bytes.length := by
  fun_induction Next.ofBytes bytes with
  | case5 bytes _ c hc _ _ => cases h; exact length_rest_lt_of_cut? hc
  | case6 bytes _ c hc _ _ hlt ih => exact Nat.lt_trans (ih h) hlt
  | _ => cases h

/-- Passing a header uses up bytes. -/
theorem length_lt_of_next_header {bytes rest : List UInt8} {division : Division}
    (h : Next.ofBytes bytes = .header division rest) : rest.length < bytes.length := by
  fun_induction Next.ofBytes bytes with
  | case3 bytes _ c hc _ _ _ => cases h; exact length_rest_lt_of_cut? hc
  | case6 bytes _ c hc _ _ hlt ih => exact Nat.lt_trans (ih h) hlt
  | _ => cases h

/-- The data of all tracks up to the end of the file or the first break. Further headers say nothing. -/
def trackData (bytes : List UInt8) : List (List UInt8) :=
  match h : Next.ofBytes bytes with
  | .nothing | .broken => []
  | .header _ rest =>
    have := length_lt_of_next_header h
    trackData rest
  | .track data rest =>
    have := length_lt_of_next_track h
    data :: trackData rest
termination_by bytes.length

/-! ## The RIFF envelope -/

namespace Riff

/-- The letters `RIFF`. -/
def fileId : List UInt8 := [0x52, 0x49, 0x46, 0x46]

/-- The letters `RMID`. -/
def form : List UInt8 := [0x52, 0x4D, 0x49, 0x44]

/-- The letters `data`. -/
def dataId : List UInt8 := [0x64, 0x61, 0x74, 0x61]

/-- Cuts off the first chunk of an envelope, with the padding behind it. -/
def cut? (bytes : List UInt8) : Option Cut :=
  if (bytes.take 8).length < 8 then none
  else
    let size := littleEndian ((bytes.drop 4).take 4)
    -- an odd length is followed by one byte of padding
    some ⟨bytes.take 4, (bytes.drop 8).take size, (bytes.drop 8).drop (size + size % 2)⟩

theorem length_rest_lt_of_cut? {bytes : List UInt8} {c : Cut} (h : cut? bytes = some c) :
    c.rest.length < bytes.length := by
  unfold cut? at h
  split at h
  · cases h
  · cases h
    simp only [List.length_take, List.length_drop] at *
    omega

/-- The data of the first chunk with the letters `data`. -/
def fileData? (bytes : List UInt8) : Option (List UInt8) :=
  match h : cut? bytes with
  | none => none
  | some c =>
    if c.id = dataId then some c.data
    else
      have := length_rest_lt_of_cut? h
      fileData? c.rest
termination_by bytes.length

/-- The file inside an envelope. -/
def unwrap (bytes : List UInt8) : Except MidiFault (List UInt8) :=
  match cut? bytes with
  | none => .error .noRiffChunk
  | some main =>
    if main.data.length < 4 then .error .noRiffForm
    else if main.data.take 4 ≠ form then .error .wrongRiffForm
    else match fileData? (main.data.drop 4) with
      | none => .error .noRiffData
      | some file => .ok file

end Riff

/-- The bytes of the file itself, taken out of an envelope if it has one. -/
def unwrap (bytes : List UInt8) : Except MidiFault (List UInt8) :=
  if headerId.isPrefixOf bytes then .ok bytes
  else if Riff.fileId.isPrefixOf bytes then Riff.unwrap bytes
  else .error .notMidi

end Melody.Midi
