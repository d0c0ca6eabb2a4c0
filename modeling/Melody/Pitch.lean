import Melody.Error
import Melody.ShiftTable

/-!
# Pitches

A pitch is a letter, an accidental and an octave. What it sounds like is its **`value`**, the number of
semitones above C in octave zero; letter and accidental are only its spelling.

* Every value whose octave fits 32 bits has one **canonical** spelling (`canonical`); it is the spelling
  of every pitch that comes out of arithmetic.
* **`transposed`** moves a pitch by semitones and spells the result canonically, **`octaveShifted`** moves
  it by octaves and keeps its spelling.
* **`shifted`** looks the pitch up in a shift table, by letter and accidental without the octave.
* **`plus`** and **`minus`** are the same move as `transposed` in two directions; their failure also says
  which pitch was moved and how far.

Values are integers: no field of 32 bits can make them overflow, so the only checks are where a result is
narrowed again (`narrow`).
-/

namespace Melody

/-- An octave has twelve semitones. -/
def octaveWidth : Int := 12

/-- The 32-bit word of an integer, if it has one. -/
def narrow (n : Int) : Result Int32 :=
  if h : Int32.minValue.toInt ≤ n ∧ n ≤ Int32.maxValue.toInt then .ok (Int32.ofIntLE n h.1 h.2)
  else .error .pitchOverflow

/-- Narrowing succeeds exactly on the integers of 32 bits. -/
theorem narrow_eq_ok_iff {n : Int} {w : Int32} : narrow n = .ok w ↔ w.toInt = n := by
  unfold narrow
  split
  · next h =>
    constructor
    · rintro ⟨⟩
      exact Int32.toInt_ofIntLE
    · intro hw
      exact congrArg Except.ok (Int32.toInt.inj (Int32.toInt_ofIntLE.trans hw.symm))
  · next h =>
    constructor
    · nofun
    · rintro rfl
      exact absurd ⟨w.minValue_le_toInt, w.toInt_le⟩ h

/-! ## Letters -/

/-- The seven letters, from C upwards. -/
inductive Letter
  | c | d | e | f | g | a | b
deriving DecidableEq, Repr

namespace Letter

/-- Semitones above C. -/
def semitones : Letter → Int
  | .c => 0
  | .d => 2
  | .e => 4
  | .f => 5
  | .g => 7
  | .a => 9
  | .b => 11

def toChar : Letter → Char
  | .c => 'C'
  | .d => 'D'
  | .e => 'E'
  | .f => 'F'
  | .g => 'G'
  | .a => 'A'
  | .b => 'B'

/-- The letter that a character names; only capitals do. -/
def ofChar? : Char → Option Letter
  | 'C' => some .c
  | 'D' => some .d
  | 'E' => some .e
  | 'F' => some .f
  | 'G' => some .g
  | 'A' => some .a
  | 'B' => some .b
  | _ => none

/-- Whether a character names a letter. -/
def isLetter (c : Char) : Bool := (ofChar? c).isSome

/-- The letters in order. -/
def all : List Letter := [.c, .d, .e, .f, .g, .a, .b]

/-- The place of a letter among all. -/
def index : Letter → Nat
  | .c => 0
  | .d => 1
  | .e => 2
  | .f => 3
  | .g => 4
  | .a => 5
  | .b => 6

/-- The letter at a place. -/
def ofIndex? (i : Nat) : Option Letter := all[i]?

theorem ofIndex?_index (l : Letter) : ofIndex? l.index = some l := by cases l <;> rfl

theorem ofChar?_toChar (l : Letter) : ofChar? l.toChar = some l := by cases l <;> rfl

end Letter

/-- The semitones of an accidental mark: a sharp raises by one, a flat lowers by one. -/
def accidentalShift? : Char → Option Int32
  | '#' => some 1
  | 'b' => some (-1)
  | _ => none

/-! ## Pitches and their values -/

structure Pitch where
  letter : Letter
  accidental : Int32
  octave : Int32
deriving DecidableEq, Repr

namespace Pitch

/-- C in octave zero. -/
def origin : Pitch := ⟨.c, 0, 0⟩

/-- Semitones of letter and accidental, whatever the octave. -/
def residue (p : Pitch) : Int := p.letter.semitones + p.accidental.toInt

/-- Semitones above C in octave zero. -/
def value (p : Pitch) : Int := p.residue + octaveWidth * p.octave.toInt

/-- The value as a 32-bit word. -/
def toInt32 (p : Pitch) : Result Int32 := narrow p.value

/-- The preferred spelling of each of the twelve residues; an argument past eleven counts as eleven. -/
def spelling : Nat → Letter × Int32
  | 0 => (.c, 0)
  | 1 => (.c, 1)
  | 2 => (.d, 0)
  | 3 => (.e, -1)
  | 4 => (.e, 0)
  | 5 => (.f, 0)
  | 6 => (.f, 1)
  | 7 => (.g, 0)
  | 8 => (.a, -1)
  | 9 => (.a, 0)
  | 10 => (.b, -1)
  | _ => (.b, 0)

/-- The preferred spelling of the residue of a value, in the given octave. -/
def spelled (value : Int) (octave : Int32) : Pitch :=
  let (letter, accidental) := spelling (value % octaveWidth).toNat
  ⟨letter, accidental, octave⟩

/-- The canonical pitch of a value. Octaves round downwards, so `-1` is B in the octave below zero. -/
def canonical (value : Int) : Result Pitch := do
  let octave ← narrow (value / octaveWidth)
  return spelled value octave

/-- The canonical pitch of a 32-bit value, whose octave always fits. -/
def ofInt32 (n : Int32) : Pitch := spelled n.toInt (Int32.ofInt (n.toInt / octaveWidth))

/-- A preferred spelling has the residue that it is for. -/
theorem spelling_residue (r : Nat) (h : r < 12) :
    (spelling r).1.semitones + (spelling r).2.toInt = r := by
  match r, h with
  | 0, _ | 1, _ | 2, _ | 3, _ | 4, _ | 5, _ | 6, _ | 7, _ | 8, _ | 9, _ | 10, _ | 11, _ => decide

/-- A canonical pitch has the value that it was made from. -/
theorem value_of_canonical {v : Int} {p : Pitch} (h : canonical v = .ok p) : p.value = v := by
  unfold canonical at h
  cases hn : narrow (v / octaveWidth) with
  | error e => simp [hn, bind, Except.bind] at h
  | ok octave =>
    simp only [hn, bind, Except.bind, pure, Except.pure, Except.ok.injEq] at h
    subst h
    have hoct : octave.toInt = v / octaveWidth := narrow_eq_ok_iff.1 hn
    have hres := spelling_residue (v % octaveWidth).toNat (by simp only [octaveWidth]; omega)
    simp only [value, residue, spelled, hoct, octaveWidth] at hres ⊢
    omega

/-! ## Moving pitches -/

/-- The pitch moved by semitones, canonically spelled. -/
def moved (p : Pitch) (delta : Int) : Result Pitch := canonical (p.value + delta)

/-- The pitch moved by a 32-bit number of semitones, canonically spelled. -/
def transposed (p : Pitch) (delta : Int32) : Result Pitch := p.moved delta.toInt

/-- The pitch moved by whole octaves, in its own spelling. -/
def octaveShifted (p : Pitch) (octaves : Int32) : Result Pitch := do
  let octave ← narrow (p.octave.toInt + octaves.toInt)
  return { p with octave }

/-- The pitch moved by the shift that a table has for its letter and accidental. The octave plays no part
in the key, so a spelling outside the twelve residues, such as C flat, is never moved. -/
def shifted (p : Pitch) (table : ShiftTable) : Result Pitch :=
  match table.get? p.residue with
  | some delta => p.transposed delta
  | none => .ok p

/-! ## Sound

Two pitches sound alike when their values are equal. -/

/-- The order of pitches by sound. -/
def compareSound (p q : Pitch) : Ordering := compare p.value q.value

/-- Whether two pitches sound alike, however they are spelled. -/
def soundsLike (p q : Pitch) : Bool := p.value == q.value

end Pitch

end Melody
