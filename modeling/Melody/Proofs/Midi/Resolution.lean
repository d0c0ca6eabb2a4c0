import Melody.Proofs.Midi.RoundTrip

/-!
# The resolution in a file header

A header has sixteen bits for the resolution, and so has a song. A reader takes the top bit for something else:
where it is set the division is a timecode, and the first byte is a frame rate, negated. No song asks for that,
but nothing keeps it from having such a resolution, and the file that it gives is then refused.

## The architecture

* **`headerDivision?_high`** is what a reader finds in a header whose resolution has the top bit, next to
  `headerDivision?_data` for one without; **`Division.misread`** is the fault that comes of it.
* **`inspect_of_high_resolution`** is how the file of a sheet is read then, next to `inspect_of_low_resolution`.
* **`inspect_midi_resolution`** says of a song when its file can be read, and what the header then says.
-/

namespace Melody

open Midi

namespace Midi

/-- What a reader makes of a resolution with the top bit: its first byte, negated, is a frame rate or is not. -/
def Division.misread (ticksPerQuarter : UInt16) : MidiFault :=
  if 256 - ticksPerQuarter.toNat / 256 ∈ frameRates then .timecode else .badHeader

/-- A resolution from `0x8000` on is read as time code: its high byte as a negative number of frames, of which
four are valid. -/
theorem headerDivision?_high {ticksPerQuarter : UInt16} (h : 0x8000 ≤ ticksPerQuarter) (n : Nat) :
    headerDivision? (word16 1 ++ word16 n ++ word16 ticksPerQuarter.toNat) =
      if 256 - ticksPerQuarter.toNat / 256 ∈ Division.frameRates then some .timecode else none := by
  have hle : 32768 ≤ ticksPerQuarter.toNat := h
  have hlt : ticksPerQuarter.toNat < 65536 := ticksPerQuarter.toNat_lt
  have hhigh : (UInt8.ofNat (ticksPerQuarter.toNat / 256)).toNat = ticksPerQuarter.toNat / 256 := by
    rw [UInt8.toNat_ofNat']
    omega
  -- the high byte is not below 128, so the division is not one in ticks
  have htop : ¬ UInt8.ofNat (ticksPerQuarter.toNat / 256) < 0x80 := by
    rw [UInt8.lt_iff_toNat_lt, hhigh]
    show ¬ ticksPerQuarter.toNat / 256 < 128
    omega
  have hdata : word16 1 ++ word16 n ++ word16 ticksPerQuarter.toNat =
      [0, 1, UInt8.ofNat (n / 256), UInt8.ofNat n, UInt8.ofNat (ticksPerQuarter.toNat / 256),
        UInt8.ofNat ticksPerQuarter.toNat] := rfl
  rw [hdata, headerDivision?, if_pos (by decide), Division.ofBytes?, if_neg htop, hhigh]

variable {s : Sheet} {bytes : List UInt8}

theorem inspect_of_high_resolution (hfile : s.file? = .ok bytes) (h : 0x8000 ≤ s.ticksPerQuarter) :
    inspect bytes = .error (Division.misread s.ticksPerQuarter) := by
  obtain ⟨-, rfl⟩ := Sheet.file?_eq_ok_iff.1 hfile
  rw [inspect_header, headerDivision?_high h, Division.misread]
  split_ifs
  · rfl
  · rfl

end Midi

namespace Song

variable {s : Song} {events : List TimedEvent} {bytes : List UInt8}

/-- **The header of a song means what the song says, up to the top bit of its resolution.** Without that bit the
file is read back with the resolution of the song, and with one track more than the song has as long as every
body is short enough for its length. With the bit the file cannot be read at all. -/
theorem inspect_midi_resolution (h : s.timeline = .ok events) (hmidi : s.midi = .ok bytes) :
    (s.ticksPerQuarter < 0x8000 →
      ∃ i, inspect bytes = .ok i ∧ i.ticksPerQuarter = s.ticksPerQuarter ∧
        ((∀ body ∈ (s.sheet events).bodies, body.length < 2 ^ 32) → i.trackCount = s.tracks.length + 1)) ∧
    (0x8000 ≤ s.ticksPerQuarter → inspect bytes = .error (Division.misread s.ticksPerQuarter)) := by
  obtain ⟨_, hevents, hfile⟩ := midi_eq_ok_iff.1 hmidi
  obtain rfl : events = _ := Except.ok.inj (h.symm.trans hevents)
  have hresolution : (s.sheet events).ticksPerQuarter = s.ticksPerQuarter := ticksPerQuarter_sheet
  constructor
  · intro hlow
    rw [← hresolution] at hlow
    have hread := inspect_of_low_resolution hfile hlow
    refine ⟨_, hread, hresolution, ?_⟩
    intro hbodies
    -- with lengths that fit, the bodies that are read are those of the sheet
    have hexact := inspect_of_file? hfile hlow hbodies
    rw [hread, Except.ok.injEq, Inspection.mk.injEq] at hexact
    rw [hexact.2.1, trackCount_sheet h]
    rfl
  · intro hhigh
    rw [← hresolution] at hhigh ⊢
    exact inspect_of_high_resolution hfile hhigh

/-- The resolution of the duet is low enough. -/
theorem inspect_midi_resolution_duet :
    ∃ bytes i, duet.midi = .ok bytes ∧ inspect bytes = .ok i ∧ i.ticksPerQuarter = 120 ∧
      i.trackCount = 3 := by
  have hfile := Sheet.file?_eq_ok_iff.2 ⟨(by rw [trackCount_sheet timeline_duet]; decide), rfl⟩
  have hmidi := midi_eq_ok_iff.2 ⟨duetTimeline, timeline_duet, hfile⟩
  obtain ⟨i, hread, hresolution, hcount⟩ :=
    (inspect_midi_resolution timeline_duet hmidi).1 (by decide)
  exact ⟨_, i, hmidi, hread, hresolution, hcount transcribable_duet.bodies⟩

/-- A resolution whose high byte is 25 negated: the file is taken for one of 25 frames a second. -/
theorem inspect_midi_blank_timecode :
    ∃ bytes, (blank 120 0xE728).midi = .ok bytes ∧ inspect bytes = .error .timecode := by
  have hmidi : (blank 120 0xE728).midi = .ok
      [0x4D, 0x54, 0x68, 0x64, 0, 0, 0, 6, 0, 1, 0, 1, 0xE7, 0x28, 0x4D, 0x54, 0x72, 0x6B, 0, 0, 0, 11, 0, 0xFF,
        0x51, 3, 7, 0xA1, 0x20, 0, 0xFF, 0x2F, 0] := by
    decide +kernel
  exact ⟨_, hmidi, by decide +kernel⟩

end Song

end Melody
