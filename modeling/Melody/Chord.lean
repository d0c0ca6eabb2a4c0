import Melody.Binary64
import Melody.Scale

/-!
# Chords

A chord is a list of pitches sounding together for a length in quarter notes. Rests and single notes are
chords of no pitch and of one. Moving a chord moves every pitch of it or, if one cannot be moved, fails.
-/

namespace Melody

/-! ## Lengths in quarter notes -/

def wholeLength : Float := 4

/-- The length of a chord outside any duration group. -/
def defaultLength : Float := 1

structure Chord where
  pitches : List Pitch
  length : Binary64
deriving DecidableEq

namespace Chord

def rest (length : Binary64) : Chord := ⟨[], length⟩

/-- A rest of a quarter note. -/
def silence : Chord := rest (.ofFloat defaultLength)

def size (c : Chord) : Nat := c.pitches.length
def isRest (c : Chord) : Bool := c.size == 0
def isNote (c : Chord) : Bool := c.size == 1
def isChord (c : Chord) : Bool := 1 < c.size

/-- Adds a pitch behind the others. -/
def push (c : Chord) (p : Pitch) : Chord := { c with pitches := c.pitches ++ [p] }

/-- Every pitch replaced; the first failure is that of the chord. -/
def mapPitches {ε : Type} (f : Pitch → Except ε Pitch) (c : Chord) : Except ε Chord := do
  return { c with pitches := ← c.pitches.mapM f }

def transposed (c : Chord) (delta : Int32) : Result Chord := c.mapPitches (·.transposed delta)

def octaveShifted (c : Chord) (octaves : Int32) : Result Chord := c.mapPitches (·.octaveShifted octaves)

def shifted (c : Chord) (table : ShiftTable) : Result Chord := c.mapPitches (·.shifted table)

/-- Every pitch a number of semitones higher; a failure names the first pitch that cannot move. -/
def plus (c : Chord) (n : Int32) : Except Pitch.Overflow Chord := c.mapPitches (·.plus n)

/-- Every pitch a number of semitones lower. -/
def minus (c : Chord) (n : Int32) : Except Pitch.Overflow Chord := c.mapPitches (·.minus n)

/-- The length multiplied by a factor. -/
def resized (c : Chord) (factor : Binary64) : Chord := { c with length := c.length.times factor }

/-- Whether two lists of pitches sound alike, place by place. -/
def pitchesSoundLike : List Pitch → List Pitch → Bool
  | [], [] => true
  | p :: ps, q :: qs => p.soundsLike q && pitchesSoundLike ps qs
  | _, _ => false

/-- Whether two chords sound alike: equal pitch values in the same order, and lengths that compare as
equal, which a length that is no number never does. -/
def soundsLike (c d : Chord) : Bool :=
  pitchesSoundLike c.pitches d.pitches && c.length.value == d.length.value

end Chord

/-- The chord of some degrees of a scale, in the order given. -/
def Scale.chord (s : Scale) (degrees : List Int32) (length : Binary64) : Result Chord := do
  return ⟨← degrees.mapM s.pitch, length⟩

end Melody
