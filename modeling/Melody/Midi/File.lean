import Melody.Midi.Quantity
import Melody.Midi.Timeline

/-!
# Writing MIDI files

A file is a header and one chunk for each track. `Sheet` collects events by track, in any order and as raw
bytes; a track that is named for the first time is made, with all tracks before it. `Sheet.file?` puts each
track in order of ticks, writes every event behind the ticks that have passed since the one before, and
closes the track with the end-of-track event.

`Song.midi` is the file of a song. `Song.emitInto` hands its events to a sink of any other kind.
-/

namespace Melody.Midi

/-- The two bytes of a number, high byte first. -/
def word16 (n : Nat) : List UInt8 := [UInt8.ofNat (n / 256), UInt8.ofNat n]

/-- The four bytes of a number, high byte first. -/
def word32 (n : Nat) : List UInt8 := word16 (n / 65536) ++ word16 n

/-- A chunk: its four letters, the number of its bytes, and the bytes. -/
def chunk (id : List UInt8) (body : List UInt8) : List UInt8 := id ++ word32 body.length ++ body

/-- The letters `MThd`. -/
def headerId : List UInt8 := [0x4D, 0x54, 0x68, 0x64]

/-- The letters `MTrk`. -/
def trackId : List UInt8 := [0x4D, 0x54, 0x72, 0x6B]

/-- Bytes at a tick from the start of their track. -/
structure Entry where
  tick : UInt32
  bytes : List UInt8
deriving DecidableEq, Repr

/-- Entries in order of ticks, each behind the ticks since the one before. -/
def deltaTimed (lastTick : Nat) : List Entry → List UInt8
  | [] => []
  | e :: rest =>
    Quantity.encode (e.tick.toNat - lastTick) ++ e.bytes ++ deltaTimed e.tick.toNat rest

/-- The event that ends a track, at once behind the last. -/
def endOfTrack : List UInt8 := Quantity.encode 0 ++ [0xFF, 0x2F, 0x00]

/-- The body of a track chunk. Entries of one tick keep their order. -/
def trackBody (entries : List Entry) : List UInt8 :=
  deltaTimed 0 (entries.mergeSort fun a b => a.tick ≤ b.tick) ++ endOfTrack

/-- Tracks of a file that is being put together. -/
structure Sheet where
  ticksPerQuarter : UInt16
  tracks : Array (Array Entry)

namespace Sheet

/-- A sheet of some empty tracks. -/
def blank (trackCount : Nat) (ticksPerQuarter : UInt16) : Sheet :=
  ⟨ticksPerQuarter, Array.replicate trackCount #[]⟩

def trackCount (s : Sheet) : Nat := s.tracks.size

/-- The entries of a track in the order they were made; none for a track that was never made. -/
def entries (s : Sheet) (track : Nat) : List Entry := (s.tracks.getD track #[]).toList

/-- Records bytes on a track, which is made if need be. -/
def add (s : Sheet) (track : Nat) (tick : UInt32) (bytes : List UInt8) : Sheet :=
  let missing := track + 1 - s.tracks.size
  let tracks := s.tracks ++ Array.replicate missing #[]
  { s with tracks := tracks.modify track (·.push ⟨tick, bytes⟩) }

def addEvent (s : Sheet) (e : TimedEvent) : Sheet := s.add e.track e.tick e.event.bytes

/-- The header: six bytes of data, the format of parallel tracks, their number, and the division. -/
def header (s : Sheet) : List UInt8 :=
  chunk headerId (word16 1 ++ word16 s.trackCount ++ word16 s.ticksPerQuarter.toNat)

/-- The complete file. The header counts tracks in sixteen bits. -/
def file? (s : Sheet) : Result (List UInt8) :=
  if s.trackCount < UInt16.size then
    .ok (s.header ++ s.tracks.toList.flatMap fun entries => chunk trackId (trackBody entries.toList))
  else .error (.file .tooManyTracks)

end Sheet

end Melody.Midi

namespace Melody

/-- Hands the events of a song to a sink one by one, in playing order, each with its track, its tick and its
bytes. `add` is what the sink does with an event. -/
def Song.emitInto {σ : Type} (s : Song) (add : σ → Nat → UInt32 → List UInt8 → σ) :
    ExceptT Error (StateM σ) Unit := do
  for e in ← s.timeline do
    modify fun sink => add sink e.track e.tick e.event.bytes

/-- The MIDI file of a song. -/
def Song.midi (s : Song) : Result (List UInt8) := do
  let events ← s.timeline
  (events.foldl Midi.Sheet.addEvent (.blank (s.trackCount + 1) s.ticksPerQuarter)).file?

end Melody
