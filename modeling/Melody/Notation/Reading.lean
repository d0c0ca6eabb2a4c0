import Melody.Notation.Token

/-!
# Reading notation

The words of a line are read from left to right. The reader carries the chords so far and the length that
is active (`State`), and each word changes one or the other (`State.step`): an opening word sets the active
length, a closing one resets it, an extension adds it to the last chord, and any other word adds a chord of
that length. Groups need not be balanced here; `Melody.Notation.Strict` is the check that they are.
-/

namespace Melody.Notation

/-- What has been read: the chords, latest first, and the length of the next one. -/
structure State where
  sounded : List Chord
  active : Float

namespace State

def start : State := ⟨[], defaultLength⟩

/-- The state after one more word, which stands at a position among the words. -/
def step (s : State) (position : Nat) (word : List Char) : Result State :=
  match Token.ofWord word with
  | .opening word => do return { s with active := ← activeLength word }
  | .closing => .ok { s with active := defaultLength }
  | .extension =>
    match s.sounded with
    | [] => .error (.danglingExtend position)
    | last :: before =>
      let length := .ofFloat (last.length.value + s.active)
      .ok { s with sounded := { last with length } :: before }
  | .rest => .ok { s with sounded := Chord.rest (.ofFloat s.active) :: s.sounded }
  | .chord word => do
    return { s with sounded := ⟨← chordPitches word, .ofFloat s.active⟩ :: s.sounded }

/-- The state after all words, the first of which stands at the given position. -/
def run (s : State) (position : Nat) : List (List Char) → Result State
  | [] => .ok s
  | word :: rest => do
    let s ← s.step position word
    s.run (position + 1) rest

end State

/-- The chords of a line of notation, as characters. -/
def parseChars (text : List Char) : Result (List Chord) := do
  let s ← State.start.run 0 (Text.words text)
  return s.sounded.reverse

/-- The chords of a line of notation, in written order. -/
def parse (text : String) : Result (List Chord) := parseChars text.toList

end Melody.Notation
