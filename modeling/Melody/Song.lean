import Melody.Track

/-!
# Songs

A song is a set of parallel tracks with one tempo and one resolution in ticks per quarter note; it is what
becomes one MIDI file. Changes to all tracks are all or nothing.
-/

namespace Melody

structure Song where
  name : String
  /-- Beats per minute. -/
  tempo : UInt32
  ticksPerQuarter : UInt16
  tracks : List Track
deriving DecidableEq

namespace Song

def defaultTempo : UInt32 := 120

def defaultTicksPerQuarter : UInt16 := 120

/-- A song without tracks. -/
def blank (tempo : UInt32) (ticksPerQuarter : UInt16) : Song :=
  ⟨"Untitled", tempo, ticksPerQuarter, []⟩

/-- A song without tracks in the default settings. -/
def initial : Song := blank defaultTempo defaultTicksPerQuarter

/-- A song of some tracks, in the default resolution. -/
def ofTracks (tracks : List Track) (tempo : UInt32) : Song :=
  { blank tempo defaultTicksPerQuarter with tracks }

def trackCount (s : Song) : Nat := s.tracks.length

def addTrack (s : Song) (t : Track) : Song := { s with tracks := s.tracks ++ [t] }

/-- The longer of two lengths, the second if they compare as equal, as zeros of either sign do. A second one
that is no number never counts. -/
def longer (best length : Float) : Float := if best ≤ length then length else best

/-- The duration of the longest track. -/
def duration (s : Song) : Float := s.tracks.foldl (fun best t => longer best t.duration) 0

/-- Every track replaced; the first failure is that of the song. -/
def mapTracks (f : Track → Result Track) (s : Song) : Result Song := do
  return { s with tracks := ← s.tracks.mapM f }

def transposed (s : Song) (delta : Int32) : Result Song := s.mapTracks (·.transposed delta)

/-- Every track moved from one key into another. -/
def modulated (s : Song) (source dest : Scale) : Result Song :=
  s.mapTracks (·.modulated source dest)

/-- Whether two lists of tracks sound alike, place by place. -/
def tracksSoundLike : List Track → List Track → Bool
  | [], [] => true
  | t :: ts, u :: us => t.soundsLike u && tracksSoundLike ts us
  | _, _ => false

/-- Whether two songs agree in name and settings and sound alike track by track. -/
def soundsLike (s u : Song) : Bool :=
  s.name == u.name && s.tempo == u.tempo && s.ticksPerQuarter == u.ticksPerQuarter &&
    tracksSoundLike s.tracks u.tracks

end Song

end Melody
