import Melody.Decimal.Natural

/-!
# MIDI events

The three events that a song turns into: a tempo, and the start and the end of a note. Notes go out on the
first channel. An event at a place in time and on a track of the file is a `TimedEvent`; where several
share a place, tempo comes first and a start before an end (`Event.rank`).
-/

namespace Melody.Midi

inductive Event
  | tempo (microsPerQuarter : UInt32)
  | noteOn (pitch velocity : UInt8)
  | noteOff (pitch velocity : UInt8)
deriving DecidableEq, Repr

namespace Event

/-- Status and data bytes. A tempo has three bytes of data, highest first. -/
def bytes : Event → List UInt8
  | .tempo micros =>
    [0xFF, 0x51, 0x03, (micros >>> 16).toUInt8, (micros >>> 8).toUInt8, micros.toUInt8]
  | .noteOn pitch velocity => [0x90, pitch, velocity]
  | .noteOff pitch velocity => [0x80, pitch, velocity]

/-- The order of events at one tick of one track. -/
def rank : Event → Nat
  | .tempo _ => 0
  | .noteOn .. => 1
  | .noteOff .. => 2

end Event

/-- An event on a track of the file, at a tick from the start. -/
structure TimedEvent where
  track : Nat
  tick : UInt32
  event : Event
deriving DecidableEq, Repr

namespace TimedEvent

/-- Whether one event stands no later than another: by tick, then track, then rank. -/
def before (a b : TimedEvent) : Bool :=
  a.tick < b.tick || (a.tick == b.tick &&
    (a.track < b.track || (a.track == b.track && a.event.rank ≤ b.event.rank)))

end TimedEvent

/-! ## Names and numbers -/

/-- The names of the twelve keys of an octave. -/
def keyNames : List String := ["C", "C#", "D", "D#", "E", "F", "F#", "G", "G#", "A", "A#", "B"]

/-- The name of a note number, with the octave that makes 60 the fourth C. -/
def noteName (note : UInt8) : String :=
  keyNames.getD (note.toNat % 12) "" ++
    String.ofList (Decimal.signed ((note.toNat / 12 : Nat) - 1 : Int))

/-- The largest number of microseconds that a tempo event holds. -/
def maxTempoMicros : Nat := 0xFFFFFF

/-- Microseconds per quarter note of a tempo in beats per minute, rounded to nearest; none for a tempo of
zero or one so slow that an event cannot hold it. -/
def microsPerQuarter? (bpm : UInt32) : Option UInt32 :=
  if bpm = 0 then none
  else
    -- a minute has sixty million microseconds; a half is rounded up
    let micros := (2 * 60000000 + bpm.toNat) / (2 * bpm.toNat)
    if micros ≤ maxTempoMicros then some (UInt32.ofNat micros) else none

example : noteName 60 = "C4" ∧ noteName 0 = "C-1" ∧ microsPerQuarter? 7 = some 8571429 := by
  decide +kernel

end Melody.Midi
