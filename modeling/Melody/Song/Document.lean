import Melody.Json.Record
import Melody.Song

/-!
# Songs as documents

The codecs of pitches, chords, tracks and songs. Lengths are floats, everything else is an integer, a
string or a list. A letter is written as a string and may also be read from an object with that one key and
no value.
-/

namespace Melody

open Json

namespace Letter

/-- The letter of a string. -/
def ofString? (s : String) : Option Letter :=
  match s.toList with
  | [char] => ofChar? char
  | _ => none

/-- The letter of a string behind its quote. -/
def readQuoted (text : List Char) : Except DocumentFault (Letter × List Char) := do
  let (s, rest) ← readText text
  match ofString? s with
  | some letter => return (letter, rest)
  | none => throw .mismatched

/-- The missing value of a member. -/
def readNothing (text : List Char) : Except DocumentFault (List Char) :=
  match skipSpace text with
  | [] => .error .ended
  | 'n' :: rest => word ['u', 'l', 'l'] rest
  | text => .error (wrongKind text)

/-- The letter that is the key of an object, behind its bracket. -/
def readKeyed (text : List Char) : Except DocumentFault (Letter × List Char) := do
  match skipSpace text with
  | [] => throw .ended
  | '"' :: rest =>
    let (letter, rest) ← readQuoted rest
    let rest ← readNothing (← colon rest)
    return (letter, ← closeObject rest)
  | _ => throw .malformed

theorem readQuoted_consumes : Reader.Consumes readQuoted := by
  intro text
  unfold readQuoted
  refine .bind (P := fun (_, rest) => rest.length < text.length) (fun _ h => length_readText h)
    fun (s, rest) h => ?_
  dsimp only
  split
  · exact .ok h
  · exact .error

theorem length_readNothing (text : List Char) :
    Guarantees (fun rest => rest.length < text.length) (readNothing text) := by
  unfold readNothing
  split
  · exact .error
  · next rest hrest =>
    intro after h
    exact Nat.lt_of_le_of_lt (length_word h) (length_of_skipSpace hrest)
  · exact .error

theorem readKeyed_consumes : Reader.Consumes readKeyed := by
  intro text
  unfold readKeyed
  split
  · exact .error
  · next rest hrest =>
    have hrest := length_of_skipSpace hrest
    refine .bind (readQuoted_consumes rest) fun (letter, after) hletter => ?_
    refine .bind (length_colon after) fun value hcolon => ?_
    refine .bind (length_readNothing value) fun behind hvalue => ?_
    refine .bind (length_closeObject behind) fun last hclose => .ok ?_
    dsimp only at *
    omega
  · exact .error

def document : Codec Letter where
  read text :=
    match skipSpace text with
    | [] => .error .ended
    | '"' :: rest => readQuoted rest
    | first :: rest => if first = '\x7b' then readKeyed rest else .error .malformed
  write letter := .string (String.ofList [letter.toChar])
  consumes text := by
    dsimp only
    split
    · exact .error
    · next rest hrest =>
      intro out h
      exact Nat.lt_trans (readQuoted_consumes rest out h) (length_of_skipSpace hrest)
    · next first rest _ hrest =>
      split
      · intro out h
        exact Nat.lt_trans (readKeyed_consumes rest out h) (length_of_skipSpace hrest)
      · exact .error

end Letter

def Pitch.document : Codec Pitch :=
  (Row.required "base" Letter.document <| .required "accidental" .int32 <|
    .required "octave" .int32 .done).codec.map
    (fun (letter, accidental, octave, _) => ⟨letter, accidental, octave⟩)
    (fun p => (p.letter, p.accidental, p.octave, ()))

def Chord.document : Codec Chord :=
  (Row.required "pitches" Pitch.document.list <| .required "length" .float .done).codec.map
    (fun (pitches, length, _) => ⟨pitches, .ofFloat length⟩)
    (fun c => (c.pitches, c.length.value, ()))

def Track.document : Codec Track :=
  (Row.required "chords" Chord.document.list <| .required "octave" .int32 <|
    .required "velocity" .int32 .done).codec.map
    (fun (chords, octave, velocity, _) => ⟨chords, octave, velocity⟩)
    (fun t => (t.chords, t.octave, t.velocity, ()))

def Song.document : Codec Song :=
  (Row.required "name" .string <| .required "tempo" .uint32 <|
    .required "ticks_per_quarter" .uint16 <|
    .required "tracks" Track.document.list .done).codec.map
    (fun (name, tempo, ticksPerQuarter, tracks, _) => ⟨name, tempo, ticksPerQuarter, tracks⟩)
    (fun s => (s.name, s.tempo, s.ticksPerQuarter, s.tracks, ()))

def Scale.document : Codec Scale :=
  (Row.required "degrees" Codec.int32.list .done).codec.map
    (fun (degrees, _) => ⟨degrees⟩)
    (fun s => (s.degrees, ()))

/-- The value of a whole document, or its fault as an error. -/
def readDocument {α : Type} (c : Codec α) (text : String) : Result α :=
  (c.ofText text.toList).mapError .document

namespace Song

/-- The song as a document. -/
def toJson (s : Song) : String := (document.write s).indented

/-- The song of a document. -/
def ofJson (text : String) : Result Song := readDocument document text

end Song

end Melody
