import Melody.Chord

/-!
# Tokens of the notation

A line of notation is a sequence of words between blanks. Each word is one of five tokens:

* a word that ends in `(` opens a duration group, and `)` closes it;
* `-` extends the chord before it, and `.` is a rest;
* anything else is a chord, whose pitches are the fields between slashes or, in a word without a slash,
  the groups that start at a letter (`chordPieces`).
-/

namespace Melody.Notation

inductive Token
  | opening (word : List Char)
  | closing
  | extension
  | rest
  | chord (word : List Char)
deriving DecidableEq, Repr

/-- The token of a word. -/
def Token.ofWord (word : List Char) : Token :=
  if word.getLast? = some '(' then .opening word
  else if word = [')'] then .closing
  else if word = ['-'] then .extension
  else if word = ['.'] then .rest
  else .chord word

/-! ## Chord words -/

/-- The pieces of a chord word, each meant to be one pitch. -/
def chordPieces (word : List Char) : List (List Char) :=
  if '/' ∈ word then Text.fields (· == '/') word else Text.groupsFrom Letter.isLetter word

/-- The pitches of a chord word. A word without pieces, such as a lone slash, is no rest. -/
def chordPitches (word : List Char) : Result (List Pitch) :=
  match chordPieces word with
  | [] => .error .emptyPitch
  | pieces => pieces.mapM Pitch.parseChars

/-! ## Duration words -/

/-- The subdivision named by an opening word, digits in front of a single parenthesis. -/
def subdivision (word : List Char) : Except TokenFault UInt32 :=
  match Decimal.digits? word.dropLast with
  -- also for a lone parenthesis, which has no digits in front
  | none => .error .durationForm
  | some n =>
    if n = 0 then .error .subdivisionZero
    else if n < UInt32.size then .ok (UInt32.ofNat n)
    else .error .subdivisionOutOfRange

/-- The length of one part of a whole. -/
def subdivided (n : UInt32) : Float := wholeLength / n.toFloat

/-- The length that an opening word makes active. -/
def activeLength (word : List Char) : Result Float :=
  match subdivision word with
  | .ok n => .ok (subdivided n)
  | .error fault => .error (.malformedToken (String.ofList word) fault)

end Melody.Notation
