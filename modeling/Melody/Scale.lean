import Melody.Pitch.Token
import Melody.Text.Fields

/-!
# Scales

A scale is a list of degrees, each a semitone value of 32 bits, and each made to stand at or above the one
before it: a degree that would fall below is raised by the fewest whole octaves (`raised`, `stacked`).

* A scale is built from raw values (`ofValues`): from pitches without their octaves, from a root and
  intervals, or from pitch tokens.
* **`pitch`** gives the pitch of any degree, wrapping by octaves outside the scale.
* **`shiftsTo`** tabulates how far each degree is from the same degree of another scale. Degrees that do
  not move have no entry, and of two degrees of one pitch class the later counts.
-/

namespace Melody

structure Scale where
  degrees : List Int32
deriving DecidableEq, Repr

namespace Scale

/-! ## Building -/

/-- A value raised by the fewest whole octaves that put it at or above the degree before it. -/
def raised (before : Option Int32) (value : Int) : Int :=
  match before with
  | none => value
  | some b =>
    if value < b.toInt then
      -- the gap counted in octaves, a part of an octave as a whole one
      value + (b.toInt - value + (octaveWidth - 1)) / octaveWidth * octaveWidth
    else value

/-- The degrees of raw values, each stacked on the one before. -/
def stacked (before : Option Int32) : List Int → Result (List Int32)
  | [] => .ok []
  | value :: rest => do
    let degree ← narrow (raised before value)
    let above ← stacked (some degree) rest
    return degree :: above

/-- The scale of raw values. -/
def ofValues (values : List Int) : Result Scale := do
  return ⟨← stacked none values⟩

/-- The scale of pitch classes; octaves are dropped. -/
def ofPitches (pitches : List Pitch) : Result Scale :=
  ofValues (pitches.map (·.value % octaveWidth))

/-- The scale of a root and the intervals above it. -/
def ofIntervals (root : Int32) (intervals : List Int32) : Result Scale :=
  ofValues (intervals.map (root.toInt + ·.toInt))

/-- The scale of pitch tokens between blanks; octave markers count. -/
def parse (text : String) : Result Scale := do
  let pitches ← (Text.words text.toList).mapM Pitch.parseChars
  ofValues (pitches.map (·.value))

/-! ## Modes -/

def major : List Int32 := [0, 2, 4, 5, 7, 9, 11]

/-- The minor mode has the raised seventh. -/
def harmonicMinor : List Int32 := [0, 2, 3, 5, 7, 8, 11]

def naturalMinor : List Int32 := [0, 2, 3, 5, 7, 8, 10]

/-- The intervals of a named mode. Case does not matter, nor whether a dash or an underscore joins the
words of a name; plain `minor` is the harmonic one. -/
def mode? (name : String) : Option (List Int32) :=
  let key := name.toList.map fun c => if c = '-' then '_' else c.toLower
  if key = "major".toList then some major
  else if key = "minor".toList then some harmonicMinor
  else if key = "harmonic_minor".toList then some harmonicMinor
  else if key = "natural_minor".toList then some naturalMinor
  else none

/-! ## Degrees -/

def size (s : Scale) : Nat := s.degrees.length

/-- The degree at an index of the scale. -/
def get? (s : Scale) (i : Nat) : Option Int32 := s.degrees[i]?

/-- The pitch of a degree: the degree within the scale, as many octaves up or down as whole scales lie in
between. -/
def pitch (s : Scale) (degree : Int32) : Result Pitch :=
  match s.degrees[(degree.toInt % s.size).toNat]? with
  | none => .error .emptyScale
  | some base => do
    let octaves ← narrow (degree.toInt / s.size)
    (Pitch.ofInt32 base).octaveShifted octaves

/-! ## Two scales -/

/-- Enters the shift between two matching degrees, unless there is none. -/
def addShift (table : ShiftTable) (source dest : Int32) : Result ShiftTable := do
  let delta ← narrow (dest.toInt - source.toInt)
  return if delta = 0 then table else table.insert (source.toInt % octaveWidth) delta

/-- The shifts from the degrees of one scale to those of another of the same size. -/
def shiftsTo (source dest : Scale) : Result ShiftTable :=
  if source.size ≠ dest.size then .error (.scaleSizeMismatch source.size dest.size)
  else (source.degrees.zip dest.degrees).foldlM (fun t pair => addShift t pair.1 pair.2) .empty

end Scale

end Melody
