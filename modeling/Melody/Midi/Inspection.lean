import Melody.Midi.Container
import Melody.Midi.TrackData

/-!
# Inspecting MIDI files

What can be read back from a file: the resolution, the number of tracks, and the tempo and note events
track by track. The first chunk that counts must be a header; everything behind the last whole track is
let go.
-/

namespace Melody.Midi

structure Inspection where
  ticksPerQuarter : UInt16
  trackCount : Nat
  /-- Track by track, each in order of ticks. -/
  events : List TimedEvent
deriving DecidableEq, Repr

/-- The events of tracks that stand one behind the other from a number on. -/
def numberedEvents (track : Nat) : List (List UInt8) → List TimedEvent
  | [] => []
  | data :: rest => trackEvents track data ++ numberedEvents (track + 1) rest

/-- Reads the bytes of a file. -/
def inspect (bytes : List UInt8) : Except MidiFault Inspection := do
  let file ← unwrap bytes
  match Next.ofBytes file with
  | .nothing => throw .noHeader
  | .track .. => throw .trackBeforeHeader
  | .broken => throw .badHeader
  | .header .timecode _ => throw .timecode
  | .header (.ticksPerQuarter ticksPerQuarter) rest =>
    let tracks := trackData rest
    return ⟨ticksPerQuarter, tracks.length, numberedEvents 0 tracks⟩

end Melody.Midi
