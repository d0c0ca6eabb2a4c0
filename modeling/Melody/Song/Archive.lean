import Melody.Binary.Codec
import Melody.Song

/-!
# Songs in binary form

The fields of a song one behind the other in fixed widths. A letter is the number of its place in four
bytes. What follows a song is let go.
-/

namespace Melody

open Binary

def Letter.archive : Codec Letter :=
  Codec.uint32.mapOption (fun n => ofIndex? n.toNat) (fun l => UInt32.ofNat l.index)

def Pitch.archive : Codec Pitch :=
  (Letter.archive.pair (Codec.int32.pair .int32)).map
    (fun (letter, accidental, octave) => ⟨letter, accidental, octave⟩)
    (fun p => (p.letter, p.accidental, p.octave))

def Chord.archive : Codec Chord :=
  (Pitch.archive.list.pair .binary64).map
    (fun (pitches, length) => ⟨pitches, length⟩)
    (fun c => (c.pitches, c.length))

def Track.archive : Codec Track :=
  (Chord.archive.list.pair (Codec.int32.pair .int32)).map
    (fun (chords, octave, velocity) => ⟨chords, octave, velocity⟩)
    (fun t => (t.chords, t.octave, t.velocity))

def Song.archive : Codec Song :=
  (Codec.string.pair (Codec.uint32.pair (Codec.uint16.pair Track.archive.list))).map
    (fun (name, tempo, ticksPerQuarter, tracks) => ⟨name, tempo, ticksPerQuarter, tracks⟩)
    (fun s => (s.name, s.tempo, s.ticksPerQuarter, s.tracks))

namespace Song

/-- The song in binary form. -/
def toBytes (s : Song) : List UInt8 := archive.encode s

/-- The song at the front of some bytes. -/
def ofBytes (bytes : List UInt8) : Result Song :=
  match archive.decode bytes with
  | some (s, _) => .ok s
  | none => .error .archive

end Song

end Melody
