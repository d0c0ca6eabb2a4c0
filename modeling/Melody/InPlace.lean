import Melody.Song

/-!
# Changes in place

A track or a song that is edited is changed where it stands. Such a change can fail half way, and what it
leaves is then part of what it does; so a change here has a result and, whatever the result, a value that
is left.

* **`Change.each`** goes through a list and stops at the first element that cannot be changed; the elements
  before it stay changed.
* **`Change.all`** goes through a copy of the chords of a track or the tracks of a song, which takes the place
  of the original if none of them failed.
* **`Pitch.raise`** and **`Pitch.lower`** are checked addition and subtraction that assign their result. What can
  go wrong is an overflow, and so they are a kind of change of their own (`Pitch.Assignment`).

The changes of tracks and songs are the ones that `Melody.Track` and `Melody.Song` make into new values, here
as they are carried out.
-/

namespace Melody

/-- What changes a value in place, and may fail at any point. -/
abbrev Change (σ : Type) := ExceptT Error (StateM σ)

namespace Change

variable {σ τ : Type}

/-- The result of a change, and the value that it leaves. -/
def on (change : Change σ Unit) (value : σ) : Result Unit × σ := (change.run.run value).run

/-- A result that a change depends on. -/
def demand {α : Type} (result : Result α) : Change σ α := ExceptT.mk (pure result)

/-- Changes the elements of a list in turn. -/
def each (change : Change τ Unit) : List τ → Result Unit × List τ
  | [] => (.ok (), [])
  | element :: rest =>
    match change.on element with
    | (.error fault, element) => (.error fault, element :: rest)
    | (.ok (), element) =>
      let (result, rest) := each change rest
      (result, element :: rest)

/-- Changes all elements of a part of a value. The work is done on a copy of the part, which is put in place
at the end. -/
def all (part : σ → List τ) (put : σ → List τ → σ) (change : Change τ Unit) : Change σ Unit := do
  let (result, copy) := change.each (part (← get))
  demand result
  modify fun value => put value copy

end Change

open Change

namespace Pitch

/-- What assigns a new value to a pitch, and may overflow. -/
abbrev Assignment := ExceptT Overflow (StateM Pitch) Unit

/-- The result of an assignment, and the pitch that it leaves. -/
def Assignment.on (assignment : Assignment) (p : Pitch) : Except Overflow Unit × Pitch :=
  (assignment.run.run p).run

/-- Assigns what is made of the pitch, once that is known. -/
def assign (f : Pitch → Except Overflow Pitch) : Assignment := do
  let made ← ExceptT.mk (pure (f (← get)))
  set made

def raise (n : Int32) : Assignment := assign (·.plus n)

def lower (n : Int32) : Assignment := assign (·.minus n)

end Pitch

namespace Chord

/-- Replaces every pitch, once all of them are known. -/
def changePitches (f : Pitch → Result Pitch) : Change Chord Unit := do
  let pitches ← demand ((← get).pitches.mapM f)
  modify fun c => { c with pitches }

def transpose (delta : Int32) : Change Chord Unit := changePitches (·.transposed delta)

def shift (table : ShiftTable) : Change Chord Unit := changePitches (·.shifted table)

end Chord

namespace Track

def changeChords (change : Change Chord Unit) : Change Track Unit :=
  change.all (·.chords) fun t chords => { t with chords }

def transpose (delta : Int32) : Change Track Unit := changeChords (Chord.transpose delta)

def modulate (source dest : Scale) : Change Track Unit := do
  let table ← demand (source.shiftsTo dest)
  changeChords (Chord.shift table)

def appendNotation (text : String) : Change Track Unit := do
  let chords ← demand (Notation.parse text)
  modify (·.extended chords)

/-- The other track is copied, and the copy moved. -/
def appendTrack (other : Track) : Change Track Unit := do
  let shift ← demand (narrow ((other.octave.toInt - (← get).octave.toInt) * octaveWidth))
  let (result, copy) := (transpose shift).on other
  demand result
  modify (·.extended copy.chords)

/-- Adds the chords of the beginning once less than they are asked for. -/
def repeatInPlace (factor : Int32) : Change Track Unit := do
  if factor.toInt < 0 then throw (.negativeRepeat factor)
  else if factor = 0 then modify ({ · with chords := [] })
  else
    let original := (← get).chords
    for _ in List.range (factor.toInt.toNat - 1) do
      modify (·.extended original)

end Track

namespace Song

def changeTracks (change : Change Track Unit) : Change Song Unit :=
  change.all (·.tracks) fun s tracks => { s with tracks }

def transpose (delta : Int32) : Change Song Unit := changeTracks (Track.transpose delta)

def modulate (source dest : Scale) : Change Song Unit := changeTracks (Track.modulate source dest)

end Song

end Melody
