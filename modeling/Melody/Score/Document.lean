import Melody.Json.AnyValue
import Melody.Score
import Melody.Song.Document

/-!
# Scores as documents

Most fields of a score have a fallback. A key has no tag: any value is read first, and then taken for a
root with a mode if it has both as strings, else for a list of pitches. A key that an object names twice
has no value (`soleString?`).
-/

namespace Melody

open Json

namespace ScaleSpec

/-- The value of a key among members, if there is exactly one and it is a string. -/
def soleString? (key : String) (members : List (String × Value)) : Option String :=
  match members.filter (·.1 == key) with
  | [(_, .string s)] => some s
  | _ => none

/-- The key that a value describes. -/
def ofValue? : Value → Option ScaleSpec
  | .object members =>
    match soleString? "root" members, soleString? "mode" members with
    | some root, some name => some (.mode root name)
    | _, _ => (soleString? "pitches" members).map .pitches
  | _ => none

def toValue : ScaleSpec → Value
  | .mode root name => .object [("root", .string root), ("mode", .string name)]
  | .pitches tokens => .object [("pitches", .string tokens)]

/-- Keys inside a number of open brackets. -/
def document (opened : Nat) : Codec ScaleSpec where
  read text := do
    let (value, rest) ← readValue (nestingLimit - opened) text
    match ofValue? value with
    | some spec => return (spec, rest)
    | none => throw .mismatched
  write := toValue
  consumes text := by
    refine .bind (readValue_consumes (nestingLimit - opened) text) fun (value, rest) h => ?_
    dsimp only
    split
    · exact .ok h
    · exact .error

end ScaleSpec

/-- The modulation stands in the object of a score. -/
def Modulation.document : Codec Modulation :=
  (Row.required "from" (ScaleSpec.document 2) <|
    .required "to" (ScaleSpec.document 2) .done).codec.map
    (fun (source, dest, _) => ⟨source, dest⟩)
    (fun m => (m.source, m.dest, ()))

def TrackSpec.document : Codec TrackSpec :=
  (Row.required "notation" .string <| .defaulted "octave" .int32 Track.defaultOctave <|
    .defaulted "velocity" .int32 Track.defaultVelocity <| .defaulted "repeat" .int32 1 <|
    .defaulted "transpose" .int32 0 <| .optional "resize" .float .done).codec.map
    (fun (line, octave, velocity, repetitions, transposition, resizing, _) =>
      ⟨line, octave, velocity, repetitions, transposition, resizing⟩)
    (fun t => (t.line, t.octave, t.velocity, t.repetitions, t.transposition, t.resizing, ()))

def Score.document : Codec Score :=
  (Row.optional "name" .string <| .defaulted "tempo" .uint32 Song.defaultTempo <|
    .defaulted "ticks_per_quarter" .uint16 Song.defaultTicksPerQuarter <|
    .required "tracks" TrackSpec.document.list <| .optional "modulate" Modulation.document <|
    .defaulted "transpose" .int32 0 .done).codec.map
    (fun (name, tempo, ticksPerQuarter, tracks, modulation, transposition, _) =>
      ⟨name, tempo, ticksPerQuarter, tracks, modulation, transposition⟩)
    (fun s => (s.name, s.tempo, s.ticksPerQuarter, s.tracks, s.modulation, s.transposition, ()))

namespace Score

/-- The score as a document. -/
def toJson (s : Score) : String := (document.write s).compact

/-- The score of a document. -/
def ofJson (text : String) : Result Score := readDocument document text

end Score

end Melody
