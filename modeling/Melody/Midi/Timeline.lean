import Melody.Midi.Event
import Melody.Song

/-!
# The timeline of a song

A song becomes a list of events in time. Each track has a cursor in quarter notes that moves on by the
length of every chord, rests included; ticks are rounded from the cursor and never added up, so that tracks
of equal length end on one tick. A chord starts at the tick of the cursor before it and ends at the tick of
the cursor after it (`sounded`).

The tempo stands on the first track of the file, and track `i` of the song on track `i + 1`. Events are
sorted by tick, then track, then rank; among equals the written order stays (`Song.timeline`).

The checks are made in reading order: the tempo, then track by track the velocity, then chord by chord the
length, the two ticks and the pitches. The first that fails is the failure of the song.
-/

namespace Melody

open Midi

/-- The tick of a position in quarter notes, rounded to the nearest. -/
def tickAt (ticksPerQuarter : UInt16) (position : Float) : Result UInt32 :=
  match Decimal.nearestInt? (ticksPerQuarter.toFloat * position) with
  | none => .error .tickOverflow
  | some tick =>
    if 0 ≤ tick ∧ tick < UInt32.size then .ok (UInt32.ofNat tick.toNat) else .error .tickOverflow

/-- A data byte of a note message. -/
def noteByte (what : NoteByte) (value : Int) : Result UInt8 :=
  if 0 ≤ value ∧ value < UInt8.size then .ok (UInt8.ofNat value.toNat)
  else .error (.byteRange what value)

/-- Whether a chord of this length can be played. -/
def isPlayable (length : Float) : Bool := length.isFinite && 0 ≤ length

/-- How the chords of one track are played. -/
structure Voice where
  /-- The track of the file. -/
  track : Nat
  ticksPerQuarter : UInt16
  /-- Semitones added to every pitch. -/
  transposition : Int
  velocity : UInt8

namespace Voice

/-- The start and the end of one pitch. -/
def note (v : Voice) (start stop : UInt32) (p : Pitch) : Result (List TimedEvent) := do
  let key ← noteByte .pitch (p.value + v.transposition)
  return [⟨v.track, start, .noteOn key v.velocity⟩, ⟨v.track, stop, .noteOff key v.velocity⟩]

/-- The events of one chord and the cursor behind it. -/
def chord (v : Voice) (cursor : Float) (c : Chord) : Result (List TimedEvent × Float) := do
  let length := c.length.value
  unless isPlayable length do throw (.invalidDuration length)
  let start ← tickAt v.ticksPerQuarter cursor
  let cursor := cursor + length
  let stop ← tickAt v.ticksPerQuarter cursor
  let notes ← c.pitches.mapM (v.note start stop)
  return (notes.flatten, cursor)

/-- The events of chords that follow one another from a cursor on. -/
def sounded (v : Voice) (cursor : Float) : List Chord → Result (List TimedEvent)
  | [] => .ok []
  | c :: rest => do
    let (events, cursor) ← v.chord cursor c
    return events ++ (← v.sounded cursor rest)

end Voice

/-- The events of a track, played on the given track of the file. -/
def Track.events (t : Track) (fileTrack : Nat) (ticksPerQuarter : UInt16) :
    Result (List TimedEvent) := do
  let velocity ← noteByte .velocity t.velocity.toInt
  Voice.sounded ⟨fileTrack, ticksPerQuarter, octaveWidth * t.octave.toInt, velocity⟩ 0 t.chords

namespace Song

/-- The events of tracks that stand one behind the other from the given track of the file on. -/
def trackEvents (ticksPerQuarter : UInt16) (fileTrack : Nat) :
    List Track → Result (List TimedEvent)
  | [] => .ok []
  | t :: rest => do
    let events ← t.events fileTrack ticksPerQuarter
    return events ++ (← trackEvents ticksPerQuarter (fileTrack + 1) rest)

/-- All events of a song in playing order. -/
def timeline (s : Song) : Result (List TimedEvent) :=
  match microsPerQuarter? s.tempo with
  | none => .error (.invalidTempo s.tempo)
  | some micros => do
    let events ← trackEvents s.ticksPerQuarter 1 s.tracks
    return (⟨0, 0, .tempo micros⟩ :: events).mergeSort TimedEvent.before

end Song

end Melody
