import Melody.Pitch
import Melody.Decimal.Natural

/-!
# Pitch tokens

The written form of a pitch: a letter, its accidentals, and an octave marked by `^` above zero and by `_`
below. `Pitch.text` writes it.

`Pitch.parse` reads more than that. It takes the letter, then adds up accidentals until the first octave
marker and takes the digits behind that; every other character is passed over. The digits of a marker are
needed, and they name at most `maxOctave`, the last octave whose first semitone fits 32 bits.

A pitch that was moved too far is reported by its token (`Pitch.Overflow.message`).
-/

namespace Melody.Pitch

/-- The last octave that a marker may name. -/
def maxOctave : Nat := 178956970

/-- The octave named by the digits behind a marker. -/
def markedOctave (afterMarker : List Char) : Except TokenFault Int32 :=
  let ds := (Decimal.span afterMarker).1
  if ds.isEmpty then .error .markerWithoutDigits
  else
    let octave := Decimal.ofDigits ds
    if octave ≤ maxOctave then .ok (Int32.ofNat octave) else .error .octaveOutOfRange

/-- Accidental and octave of the characters behind the letter, the accidentals added to those so far. -/
def marks (accidental : Int32) : List Char → Except TokenFault (Int32 × Int32)
  | [] => .ok (accidental, 0)
  | c :: rest =>
    match accidentalShift? c with
    | some shift => marks (accidental + shift) rest
    | none =>
      if c = '^' then (markedOctave rest).map fun octave => (accidental, octave)
      else if c = '_' then (markedOctave rest).map fun octave => (accidental, -octave)
      else marks accidental rest

/-- The pitch of a token. -/
def parseChars : List Char → Result Pitch
  | [] => .error .emptyPitch
  | c :: rest =>
    let token := String.ofList (c :: rest)
    match Letter.ofChar? c with
    | none => .error (.malformedToken token .noLetter)
    | some letter =>
      match marks 0 rest with
      | .error fault => .error (.malformedToken token fault)
      | .ok (accidental, octave) => .ok ⟨letter, accidental, octave⟩

def parse (token : String) : Result Pitch := parseChars token.toList

/-- The octave marker; octave zero has none. -/
def octaveText (octave : Int32) : List Char :=
  if 0 < octave.toInt then '^' :: Decimal.digits octave.toInt.natAbs
  else if octave.toInt < 0 then '_' :: Decimal.digits octave.toInt.natAbs
  else []

/-- The token of a pitch, as characters. -/
def chars (p : Pitch) : List Char :=
  let mark := if 0 < p.accidental.toInt then '#' else 'b'
  p.letter.toChar :: List.replicate p.accidental.toInt.natAbs mark ++ octaveText p.octave

/-- The token of a pitch. -/
def text (p : Pitch) : String := String.ofList p.chars

/-! ## Checked addition

`plus` and `minus` move a pitch like `transposed`. The number taken away is negated as an integer, so
that the least 32-bit word has its opposite too. -/

/-- A pitch and a number of semitones that lead out of range. -/
structure Overflow where
  pitch : Pitch
  delta : Int
deriving DecidableEq, Repr

/-- The report of an overflow: the pitch by its token, the semitones with their sign. -/
def Overflow.message (o : Overflow) : String :=
  let sign := if o.delta < 0 then [] else ['+']
  Error.pitchOverflow.message ++ " (" ++ o.pitch.text ++ " " ++
    String.ofList (sign ++ Decimal.signed o.delta) ++ ")"

def offset (p : Pitch) (delta : Int) : Except Overflow Pitch :=
  match p.moved delta with
  | .ok q => .ok q
  | .error _ => .error ⟨p, delta⟩

/-- The pitch a number of semitones higher. -/
def plus (p : Pitch) (n : Int32) : Except Overflow Pitch := p.offset n.toInt

/-- The pitch a number of semitones lower. -/
def minus (p : Pitch) (n : Int32) : Except Overflow Pitch := p.offset (-n.toInt)

/-- Characters that are no part of a pitch are passed over. -/
example : (parse "Cx#^2y").toOption = some ⟨.c, 1, 2⟩ := by decide +kernel

/-- The least word taken away from the origin. -/
example : (origin.minus (-2147483648)).toOption.map text = some "Ab^178956970" := by decide +kernel

end Melody.Pitch
