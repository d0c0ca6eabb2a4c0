import Melody.Notation.Strict
import Melody.Song

/-!
# Scores

A score describes a song: tracks by their notation and what to do with each, and a key change and a
transposition for the whole. Compiling it builds the tracks in order, each checked first if asked for, and
then changes the song.
-/

namespace Melody

/-- A key: a root with a mode, or the pitches themselves. -/
inductive ScaleSpec
  | mode (root name : String)
  | pitches (tokens : String)
deriving DecidableEq, Repr

/-- The scale of a key. -/
def ScaleSpec.scale : ScaleSpec → Result Scale
  | .mode root name => do
    let root ← Pitch.parse root
    match Scale.mode? name with
    | none => throw (.malformedToken name .unknownMode)
    | some intervals => Scale.ofIntervals (← root.toInt32) intervals
  | .pitches tokens => Scale.parse tokens

structure Modulation where
  source : ScaleSpec
  dest : ScaleSpec
deriving DecidableEq, Repr

structure TrackSpec where
  line : String
  octave : Int32
  velocity : Int32
  repetitions : Int32
  transposition : Int32
  resizing : Option Float
deriving DecidableEq

/-- The track: read, transposed, resized, then repeated. Transposing, even by nothing, spells every pitch
canonically. -/
def TrackSpec.build (spec : TrackSpec) : Result Track := do
  let track ← Track.ofNotation spec.line spec.octave spec.velocity
  let track ← track.transposed spec.transposition
  let track := match spec.resizing with
    | some factor => track.resized (.ofFloat factor)
    | none => track
  track.repeated spec.repetitions

structure Score where
  name : Option String
  tempo : UInt32
  ticksPerQuarter : UInt16
  tracks : List TrackSpec
  modulation : Option Modulation
  transposition : Int32
deriving DecidableEq

namespace Score

/-- The track of a description, checked against the strict notation if asked for. -/
def buildTrack (strict : Bool) (spec : TrackSpec) : Result Track := do
  if strict then Notation.check spec.line
  spec.build

/-- The song of a score. -/
def compile (score : Score) (strict : Bool) : Result Song := do
  let tracks ← score.tracks.mapM (buildTrack strict)
  let blank := Song.blank score.tempo score.ticksPerQuarter
  let song : Song := { blank with name := score.name.getD blank.name, tracks }
  let song ← match score.modulation with
    | none => pure song
    | some modulation => do
      let source ← modulation.source.scale
      let dest ← modulation.dest.scale
      song.modulated source dest
  song.transposed score.transposition

end Score

end Melody
