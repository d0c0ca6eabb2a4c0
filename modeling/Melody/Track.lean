import Melody.Notation.Reading

/-!
# Tracks

A track is a run of chords with a base octave and a velocity. Both apply when the track is played, never
to the stored pitches; that is why chords appended from another track are moved by the difference of the
two octaves (`appended`).

Every change yields a new track or a failure. What a change that fails leaves behind where it is carried out in
place is another question, and `Melody.InPlace` is about that.
-/

namespace Melody

structure Track where
  chords : List Chord
  octave : Int32
  velocity : Int32
deriving DecidableEq

namespace Track

/-- The octave that puts C at the middle of the keyboard. -/
def defaultOctave : Int32 := 5

def defaultVelocity : Int32 := 64

/-- A track without chords. -/
def blank (octave velocity : Int32) : Track := ⟨[], octave, velocity⟩

/-- A track without chords in the default settings. -/
def initial : Track := blank defaultOctave defaultVelocity

def size (t : Track) : Nat := t.chords.length

/-- The sum of the lengths, in order. It starts from negative zero, which alone leaves every length as it is,
zero included. -/
def duration (t : Track) : Float := t.chords.foldl (fun total c => total + c.length.value) (-0)

/-! ## Adding chords -/

def push (t : Track) (c : Chord) : Track := { t with chords := t.chords ++ [c] }

def extended (t : Track) (chords : List Chord) : Track := { t with chords := t.chords ++ chords }

/-- The track with the chords of a line of notation behind its own. -/
def withNotation (t : Track) (text : String) : Result Track := do
  return t.extended (← Notation.parse text)

/-- The track of a line of notation. -/
def ofNotation (text : String) (octave velocity : Int32) : Result Track :=
  (blank octave velocity).withNotation text

/-! ## Changing all chords -/

/-- Every chord replaced; the first failure is that of the track. -/
def mapChords (f : Chord → Result Chord) (t : Track) : Result Track := do
  return { t with chords := ← t.chords.mapM f }

def transposed (t : Track) (delta : Int32) : Result Track := t.mapChords (·.transposed delta)

/-- The track moved from one key into another. -/
def modulated (t : Track) (source dest : Scale) : Result Track := do
  let table ← source.shiftsTo dest
  t.mapChords (·.shifted table)

/-- Every length multiplied by a factor, whatever it is. -/
def resized (t : Track) (factor : Binary64) : Track :=
  { t with chords := t.chords.map (·.resized factor) }

/-! ## Joining and repeating -/

/-- The track with the chords of another behind its own, moved so that they keep sounding in their own
octave. -/
def appended (t other : Track) : Result Track := do
  -- the other octave no longer applies, so its distance goes into the pitches
  let shift ← narrow ((other.octave.toInt - t.octave.toInt) * octaveWidth)
  let moved ← other.transposed shift
  return t.extended moved.chords

/-- The chords of the track a number of times over. -/
def repeated (t : Track) (factor : Int32) : Result Track :=
  if factor.toInt < 0 then .error (.negativeRepeat factor)
  else .ok { t with chords := (List.replicate factor.toInt.toNat t.chords).flatten }

/-! ## Sound -/

/-- Whether two lists of chords sound alike, place by place. -/
def chordsSoundLike : List Chord → List Chord → Bool
  | [], [] => true
  | c :: cs, d :: ds => c.soundsLike d && chordsSoundLike cs ds
  | _, _ => false

/-- Whether two tracks have the same settings and sound alike chord by chord. -/
def soundsLike (t u : Track) : Bool :=
  chordsSoundLike t.chords u.chords && t.octave == u.octave && t.velocity == u.velocity

end Track

end Melody
