import Melody.Decimal.Layout
import Melody.Text.Quoted

/-!
# Causes of failure

Everything that can go wrong between a line of notation and a file on disk. An error is a cause with its
data; its wording is in one place, `Error.message`. The smaller families stand in front of it:

* **`TokenFault`** says what is wrong with a single token, **`NotationFault`** which rule of the strict
  notation a text breaks;
* **`DocumentFault`** classifies what is wrong with a stored document, in the order the text is read;
* **`MidiFault`** says what keeps a byte string from being a MIDI file.
-/

namespace Melody

/-- What is wrong with a token. -/
inductive TokenFault
  | noLetter
  | markerWithoutDigits
  | octaveOutOfRange
  | durationForm
  | subdivisionOutOfRange
  | subdivisionZero
  | unknownMode
deriving DecidableEq, Repr

def TokenFault.message : TokenFault → String
  | .noLetter => "pitch must start with A-G"
  | .markerWithoutDigits => "octave marker without digits"
  | .octaveOutOfRange => "octave out of range"
  | .durationForm => "duration must be digits followed by '('"
  | .subdivisionOutOfRange => "subdivision out of range"
  | .subdivisionZero => "subdivision must be non-zero"
  | .unknownMode => "unknown mode"

/-- Which rule of the strict notation a text breaks. -/
inductive NotationFault
  | empty
  | badStart
  | illegalCharacter
  | nested
  | openPlace
  | unbalanced
  | closePlace
  | slashPlace
  | tokenPlace
  | digitPlace
  | unclosed
deriving DecidableEq, Repr

def NotationFault.message : NotationFault → String
  | .empty => "input is empty"
  | .badStart => "input must start with a digit or a note A-G"
  | .illegalCharacter => "illegal character"
  | .nested => "nested parentheses"
  | .openPlace => "'(' must follow a digit and precede a space"
  | .unbalanced => "unbalanced parentheses"
  | .closePlace => "')' must be surrounded by spaces"
  | .slashPlace => "'/' must be followed by a note A-G"
  | .tokenPlace => "tokens must be separated by spaces"
  | .digitPlace => "digits must be followed by a space or '('"
  | .unclosed => "unclosed parenthesis"

/-- What stops the reading of a document: it ends too early, it is not well formed, or it is well
formed but describes something else. -/
inductive DocumentFault
  | ended
  | malformed
  | mismatched
deriving DecidableEq, Repr

def DocumentFault.message : DocumentFault → String
  | .ended => "unexpected end of document"
  | .malformed => "malformed document"
  | .mismatched => "document of the wrong shape"

/-- What keeps a byte string from being read as a MIDI file. -/
inductive MidiFault
  | notMidi
  | noRiffChunk
  | noRiffForm
  | wrongRiffForm
  | noRiffData
  | noHeader
  | trackBeforeHeader
  | badHeader
  | timecode
deriving DecidableEq, Repr

def MidiFault.message : MidiFault → String
  | .notMidi => "invalid midi: not a midi file"
  | .noRiffChunk => "invalid midi: no main riff chunk"
  | .noRiffForm => "invalid midi: failed to read riff formtype"
  | .wrongRiffForm => "invalid midi: not an rmid riff file"
  | .noRiffData => "invalid midi: no rmid data chunk"
  | .noHeader => "invalid midi: no midi header chunk"
  | .trackBeforeHeader => "invalid midi: expected header, found track"
  | .badHeader => "invalid midi: invalid midi header"
  | .timecode => "SMPTE timecode timing not supported"

/-- The two data bytes of a note message. -/
inductive NoteByte
  | pitch
  | velocity
deriving DecidableEq, Repr

def NoteByte.name : NoteByte → String
  | .pitch => "pitch"
  | .velocity => "velocity"

/-- What can go wrong with a file. -/
inductive FileFault
  /-- The file cannot be opened, read or written. -/
  | unavailable
  /-- The file is no UTF-8 text. -/
  | notText
  /-- The song has more tracks than a file header can count. -/
  | tooManyTracks
deriving DecidableEq, Repr

def FileFault.message : FileFault → String
  | .unavailable => "file not available"
  | .notText => "stream did not contain valid UTF-8"
  | .tooManyTracks => "too many tracks"

/-- The causes of failure. -/
inductive Error
  /-- A pitch, chord or duration token that cannot be read. -/
  | malformedToken (token : String) (fault : TokenFault)
  /-- A token, or a piece of one, without any character. -/
  | emptyPitch
  /-- An extension with no chord before it, by the position of its token. -/
  | danglingExtend (position : Nat)
  /-- Two scales that should match degree by degree and have different sizes. -/
  | scaleSizeMismatch (source dest : Nat)
  /-- A degree asked of a scale that has none. -/
  | emptyScale
  /-- A semitone count or an octave beyond 32 bits. -/
  | pitchOverflow
  /-- A negative number of repetitions. -/
  | negativeRepeat (factor : Int32)
  /-- A data byte of a note message outside `0..255`. -/
  | byteRange (what : NoteByte) (value : Int)
  /-- A chord length that is negative or not finite. -/
  | invalidDuration (length : Float)
  /-- A position beyond the last tick. -/
  | tickOverflow
  /-- A tempo that a tempo event cannot express. -/
  | invalidTempo (bpm : UInt32)
  /-- A text that breaks a rule of the strict notation, by byte offset. -/
  | invalidNotation (offset : Nat) (fault : NotationFault)
  | file (fault : FileFault)
  /-- A stored document that cannot be read. -/
  | document (fault : DocumentFault)
  /-- A stored binary song that cannot be read. -/
  | archive
  | midi (fault : MidiFault)
deriving DecidableEq

namespace Error

/-- The wording of an error. -/
def message : Error → String
  | .malformedToken token fault => "malformed token " ++ Text.quoted token ++ ": " ++ fault.message
  | .emptyPitch => "cannot convert an empty string to a pitch"
  | .danglingExtend position =>
    "extend token at position " ++ toString position ++ " has no preceding chord"
  | .scaleSizeMismatch source dest =>
    "scales have different sizes (" ++ toString source ++ " vs " ++ toString dest ++ ")"
  | .emptyScale => "scale has no degrees"
  | .pitchOverflow => "pitch arithmetic overflowed the semitone range"
  | .negativeRepeat factor =>
    "invalid repeat factor " ++ toString factor.toInt ++ ", must be >= 0"
  | .byteRange what value =>
    what.name ++ " value " ++ toString value ++ " does not fit in a byte"
  | .invalidDuration length =>
    "chord length " ++ String.ofList (Decimal.message.render length) ++ " cannot be emitted"
  | .tickOverflow => "tick position overflowed"
  | .invalidTempo bpm => "invalid tempo " ++ toString bpm.toNat ++ " bpm"
  | .invalidNotation offset fault =>
    "invalid notation at byte " ++ toString offset ++ ": " ++ fault.message
  | .file fault => "IO error: " ++ fault.message
  | .document fault => "JSON error: " ++ fault.message
  | .archive => "binary encoding error: unreadable data"
  | .midi fault => "MIDI parse error: " ++ fault.message

end Error

/-- A value, or the cause why there is none. -/
abbrev Result := Except Error

end Melody
