import Melody.Proofs.Notation.PitchToken

/-!
# What stands behind a pitch

A pitch is a letter, accidentals and, if need be, an octave marker with its digits. The reader ends at the
digits, so that nothing behind them counts. Without a marker it has nothing to end at: it passes over
characters that it does not know and goes on to look for accidentals and a marker.

## The architecture

* **`Written`** is a pitch as it may be written, not only as it is written out, and **`Written.pitch`** is the
  pitch that it stands for.
* **`marks_accidentals`** and **`marks_mark`**: the reader over the parts of one, whatever follows.
* **`marks_eq_tail`**: what the reader still takes from the characters that follow. They are **`IsSilent`** if
  that changes nothing.
* **`parse_behind`**: a pitch is read alike from in front of other characters if it has a marker or these are
  silent, and in no other case. **`parse_behind_unknown`** is such a case.
-/

namespace Melody.Pitch

/-! ## Written pitches -/

inductive Accidental
  | sharp
  | flat
deriving DecidableEq, Repr

namespace Accidental

def toChar : Accidental → Char
  | sharp => '#'
  | flat => 'b'

/-- The semitones that a pitch is moved by. -/
def shift : Accidental → Int32
  | sharp => 1
  | flat => -1

theorem accidentalShift?_toChar (a : Accidental) : accidentalShift? a.toChar = some a.shift := by
  cases a with
  | sharp => rfl
  | flat => rfl

end Accidental

/-- The characters that an octave is marked by, above zero and below. -/
def isOctaveSign (c : Char) : Bool := c == '^' || c == '_'

/-- An octave marker with its digits, which may have zeros in front. -/
structure OctaveMark where
  raises : Bool
  digits : List Char
  digits_ne_nil : digits ≠ []
  isDigit_of_mem : ∀ c ∈ digits, Decimal.isDigit c = true
  le_maxOctave : Decimal.ofDigits digits ≤ maxOctave

namespace OctaveMark

def chars (m : OctaveMark) : List Char := (if m.raises then '^' else '_') :: m.digits

def octave (m : OctaveMark) : Int32 :=
  let octave := Int32.ofNat (Decimal.ofDigits m.digits)
  if m.raises then octave else -octave

end OctaveMark

/-- A pitch as it may be written: any accidentals in any order, and an octave marker or none. -/
structure Written where
  letter : Letter
  accidentals : List Accidental
  mark : Option OctaveMark

namespace Written

def chars (w : Written) : List Char :=
  w.letter.toChar :: (w.accidentals.map Accidental.toChar ++ (w.mark.map OctaveMark.chars).getD [])

/-- The pitch that is meant. -/
def pitch (w : Written) : Pitch :=
  ⟨w.letter, (w.accidentals.map Accidental.shift).sum, (w.mark.map OctaveMark.octave).getD 0⟩

/-- Whether a character behind a pitch could be part of it. -/
def continues (w : Written) (c : Char) : Bool :=
  match w.mark with
  | some _ => Decimal.isDigit c
  | none => (accidentalShift? c).isSome || isOctaveSign c

end Written

/-! ## Characters behind a pitch -/

/-- The semitones of the accidentals in front of the first octave marker, with other characters between
them. -/
def tailShift (rest : List Char) : Int32 :=
  ((rest.takeWhile (!isOctaveSign ·)).filterMap accidentalShift?).sum

/-- The octave of the first octave marker. -/
def tailOctave (rest : List Char) : Except TokenFault Int32 :=
  match rest.dropWhile (!isOctaveSign ·) with
  | [] => .ok 0
  | c :: rest => (markedOctave rest).map fun octave => if c = '^' then octave else -octave

/-- Characters that the reader takes nothing from: the accidentals make up for one another, and the first
octave marker, if there is one, has digits that name octave zero. -/
structure IsSilent (rest : List Char) : Prop where
  shift : tailShift rest = 0
  octave : tailOctave rest = .ok 0

variable {accidental : Int32} {rest : List Char}

/-- A character that is no octave sign adds its shift, if it has one, and is passed over. -/
theorem tail_cons_of_not_sign {c : Char} (h : isOctaveSign c = false) :
    tailShift (c :: rest) = (accidentalShift? c).getD 0 + tailShift rest ∧
      tailOctave (c :: rest) = tailOctave rest := by
  constructor
  · rw [tailShift, List.takeWhile_cons, h, Bool.not_false, if_pos rfl]
    -- an accidental adds its shift, any other character nothing
    cases hshift : accidentalShift? c with
    | none =>
      rw [List.filterMap_cons_none hshift]
      exact (Int32.zero_add _).symm
    | some shift =>
      rw [List.filterMap_cons_some hshift]
      exact List.sum_cons
  · rw [tailOctave, List.dropWhile_cons, h, Bool.not_false, if_pos rfl]
    rfl

/-- An octave sign ends the accidentals, and what follows must be an octave. -/
theorem tail_cons_of_sign {c : Char} (h : isOctaveSign c = true) :
    tailShift (c :: rest) = 0 ∧
      tailOctave (c :: rest) =
        (markedOctave rest).map fun octave => if c = '^' then octave else -octave := by
  constructor
  · rw [tailShift, List.takeWhile_cons, h, Bool.not_true, if_neg Bool.false_ne_true]
    rfl
  · rw [tailOctave, List.dropWhile_cons, h, Bool.not_true, if_neg Bool.false_ne_true]

/-- **What is read behind a letter**: the accidentals up to the first octave marker, and the marker. -/
theorem marks_eq_tail :
    marks accidental rest =
      (tailOctave rest).map fun octave => (accidental + tailShift rest, octave) := by
  induction rest generalizing accidental with
  | nil => exact congrArg (fun a => Except.ok (a, 0)) (Int32.add_zero accidental).symm
  | cons c rest ih =>
    rw [marks]
    by_cases hsign : isOctaveSign c = true
    · -- the marker ends the reading
      rw [(tail_cons_of_sign hsign).1, (tail_cons_of_sign hsign).2, Int32.add_zero]
      rw [isOctaveSign, Bool.or_eq_true, beq_iff_eq, beq_iff_eq] at hsign
      rcases hsign with rfl | rfl
      · cases markedOctave rest with
        | error fault => rfl
        | ok octave => rfl
      · cases markedOctave rest with
        | error fault => rfl
        | ok octave => rfl
    · have hpassed := eq_false_of_ne_true hsign
      rw [(tail_cons_of_not_sign hpassed).1, (tail_cons_of_not_sign hpassed).2, ← Int32.add_assoc]
      rw [isOctaveSign, Bool.or_eq_true, beq_iff_eq, beq_iff_eq, not_or] at hsign
      -- an accidental adds to the shift; anything else is passed over
      cases accidentalShift? c with
      | some shift => exact ih
      | none =>
        rw [Option.getD_none, Int32.add_zero]
        dsimp only
        rw [if_neg hsign.1, if_neg hsign.2, ih]

theorem isSilent_nil : IsSilent [] := ⟨rfl, rfl⟩

/-- Characters that could be no part of a pitch are silent. -/
theorem isSilent_of_not_continues {w : Written} (hw : w.mark = none)
    (h : ∀ c ∈ rest, w.continues c = false) : IsSilent rest := by
  induction rest with
  | nil => exact isSilent_nil
  | cons c rest ih =>
    rw [List.forall_mem_cons] at h
    obtain ⟨hc, hrest⟩ := h
    rw [Written.continues, hw] at hc
    rw [Bool.or_eq_false_iff, Option.isSome_eq_false_iff, Option.isNone_iff_eq_none] at hc
    -- such a character adds no accidental and starts no octave
    obtain ⟨hshift, hoctave⟩ : tailShift (c :: rest) = (accidentalShift? c).getD 0 + tailShift rest ∧
        tailOctave (c :: rest) = tailOctave rest := tail_cons_of_not_sign hc.2
    rw [hc.1, Option.getD_none, Int32.zero_add] at hshift
    exact ⟨hshift.trans (ih hrest).shift, hoctave.trans (ih hrest).octave⟩

/-! ## Reading over a written pitch -/

/-- The accidentals add up. -/
theorem marks_accidentals (accidentals : List Accidental) :
    marks accidental (accidentals.map Accidental.toChar ++ rest) =
      marks (accidental + (accidentals.map Accidental.shift).sum) rest := by
  induction accidentals generalizing accidental with
  | nil => exact congrArg (marks · rest) (Int32.add_zero accidental).symm
  | cons a accidentals ih =>
    rw [List.map_cons, List.cons_append, marks, a.accidentalShift?_toChar]
    dsimp only
    rw [ih, List.map_cons, List.sum_cons, Int32.add_assoc]

/-- The digits of a marker end at what is none. -/
theorem marks_mark (m : OctaveMark) (h : ∀ c ∈ rest.head?, Decimal.isDigit c = false) :
    marks accidental (m.chars ++ rest) = .ok (accidental, m.octave) := by
  -- the digits are taken up to the first character that is none, and are in range
  have hmarked : markedOctave (m.digits ++ rest) = .ok (Int32.ofNat (Decimal.ofDigits m.digits)) := by
    rw [markedOctave, Decimal.span_of_digits m.isDigit_of_mem h]
    dsimp only
    rw [if_neg (by rw [List.isEmpty_iff]; exact m.digits_ne_nil), if_pos m.le_maxOctave]
  rw [OctaveMark.chars, OctaveMark.octave]
  by_cases hraises : m.raises = true
  · rw [if_pos hraises, if_pos hraises]
    show (markedOctave (m.digits ++ rest)).map _ = _
    rw [hmarked]
    rfl
  · rw [if_neg hraises, if_neg hraises]
    show (markedOctave (m.digits ++ rest)).map _ = _
    rw [hmarked]
    rfl

namespace Written

variable (w : Written)

/-- A pitch is its letter and what the marks behind it come to. -/
theorem parse_append_of_marks {accidental octave : Int32}
    (h : marks 0 (w.accidentals.map Accidental.toChar ++ (w.mark.map OctaveMark.chars).getD [] ++ rest) =
      .ok (accidental, octave)) :
    parseChars (w.chars ++ rest) = .ok ⟨w.letter, accidental, octave⟩ := by
  rw [chars, List.cons_append, parseChars, Letter.ofChar?_toChar]
  dsimp only
  rw [h]

/-- A marker ends the pitch. -/
theorem parse_append_of_mark {m : OctaveMark} (hmark : w.mark = some m)
    (h : ∀ c ∈ rest.head?, Decimal.isDigit c = false) :
    parseChars (w.chars ++ rest) = .ok w.pitch := by
  have hmarks : marks 0 (w.accidentals.map Accidental.toChar ++ (w.mark.map OctaveMark.chars).getD [] ++ rest) =
      .ok (0 + (w.accidentals.map Accidental.shift).sum, m.octave) := by
    rw [List.append_assoc, marks_accidentals, hmark]
    exact marks_mark m h
  rw [parse_append_of_marks w hmarks, pitch, Int32.zero_add, hmark]
  rfl

/-- Without a marker, what is read behind the pitch is added to it. -/
theorem parse_append_of_unmarked (hmark : w.mark = none) :
    parseChars (w.chars ++ rest) =
      match tailOctave rest with
      | .error fault => .error (.malformedToken (String.ofList (w.chars ++ rest)) fault)
      | .ok octave => .ok { w.pitch with accidental := w.pitch.accidental + tailShift rest, octave } := by
  -- without an octave of its own the pitch takes whatever the tail comes to
  have hmarks : marks 0 (w.accidentals.map Accidental.toChar ++ (w.mark.map OctaveMark.chars).getD [] ++ rest) =
      (tailOctave rest).map fun octave => (w.pitch.accidental + tailShift rest, octave) := by
    rw [List.append_assoc, marks_accidentals, Int32.zero_add, hmark]
    exact marks_eq_tail
  rw [chars, List.cons_append, parseChars, Letter.ofChar?_toChar]
  dsimp only
  rw [hmarks]
  cases tailOctave rest with
  | error fault => rfl
  | ok octave => rfl

/-- A pitch is read alike from in front of some characters if a marker ends it or they are silent, and in no
other case. -/
theorem parse_append_iff (hmark : w.mark.isSome = true → ∀ c ∈ rest.head?, Decimal.isDigit c = false) :
    parseChars (w.chars ++ rest) = .ok w.pitch ↔ w.mark.isSome = true ∨ IsSilent rest := by
  cases hw : w.mark with
  | some m =>
    rw [hw] at hmark
    exact iff_of_true (w.parse_append_of_mark hw (hmark rfl)) (.inl rfl)
  | none =>
    have hzero : w.pitch.octave = 0 := by
      rw [pitch, hw]
      rfl
    rw [w.parse_append_of_unmarked hw, or_iff_right (by exact Bool.false_ne_true)]
    -- the tail must neither shift the pitch nor give it an octave
    constructor
    · intro hparse
      cases hoctave : tailOctave rest with
      | error fault =>
        rw [hoctave] at hparse
        cases hparse
      | ok octave =>
        rw [hoctave] at hparse
        have hpitch := Except.ok.inj hparse
        refine ⟨?_, ?_⟩
        · have haccidental : w.pitch.accidental + tailShift rest = w.pitch.accidental :=
            congrArg Pitch.accidental hpitch
          exact Int32.add_eq_left.1 haccidental
        · rw [hoctave, ← hzero]
          exact congrArg (fun p => Except.ok p.octave) hpitch
    · intro hsilent
      rw [hsilent.octave, hsilent.shift, Int32.add_zero, ← hzero]

end Written

/-- **A pitch in front of other characters**, the first of which could be no part of it. It is read as the
pitch that is meant if it has an octave marker, or if none of the characters could be part of it. In general
that is so exactly if it has a marker or the characters are silent. -/
theorem parse_behind (w : Written) (rest : List Char) (h : ∀ c ∈ rest.head?, w.continues c = false) :
    parse (String.ofList w.chars) = .ok w.pitch ∧
    ((w.mark.isSome = true ∨ ∀ c ∈ rest, w.continues c = false) →
      parse (String.ofList (w.chars ++ rest)) = .ok w.pitch) ∧
    (parse (String.ofList (w.chars ++ rest)) = .ok w.pitch ↔ w.mark.isSome = true ∨ IsSilent rest) := by
  simp only [parse, String.toList_ofList]
  have hmark : w.mark.isSome = true → ∀ c ∈ rest.head?, Decimal.isDigit c = false := by
    intro hsome c hc
    have hcontinues := h c hc
    obtain ⟨m, hm⟩ := Option.isSome_iff_exists.1 hsome
    rwa [Written.continues, hm] at hcontinues
  have hexact := w.parse_append_iff hmark
  refine ⟨?_, ?_, hexact⟩
  · have hnothing : w.mark.isSome = true → ∀ c ∈ [].head?, Decimal.isDigit c = false := fun _ => nofun
    have halone := (w.parse_append_iff hnothing).2 (.inr isSilent_nil)
    rwa [List.append_nil] at halone
  · -- characters that cannot go on with the pitch are silent, wherever they stand
    rintro (hsome | hunknown)
    · exact hexact.2 (.inl hsome)
    · refine hexact.2 ?_
      cases hw : w.mark with
      | some m => exact .inl rfl
      | none => exact .inr (isSilent_of_not_continues hw hunknown)

/-- Two flats and an octave marker, in front of a sharp and another marker. -/
theorem parse_behind_marked :
    parse "Gb#b_07" = .ok ⟨.g, -1, -7⟩ ∧ parse "Gb#b_07x#^2é" = .ok ⟨.g, -1, -7⟩ := by
  let seventh : OctaveMark := ⟨false, ['0', '7'], by decide, List.all_eq_true.1 (by decide), by decide⟩
  let w : Written := ⟨.g, [.flat, .sharp, .flat], some seventh⟩
  have h : ∀ c ∈ ['x', '#', '^', '2', 'é'].head?, w.continues c = false := by
    intro c hc
    obtain rfl := Option.some.inj hc
    rfl
  obtain ⟨halone, hbehind, -⟩ := parse_behind w _ h
  exact ⟨halone, hbehind (.inl rfl)⟩

/-- A character that is passed over does not end a pitch without a marker: the sharp behind it counts. -/
theorem parse_behind_unknown :
    (∀ c ∈ ['x', '#'].head?, (Written.mk .c [] none).continues c = false) ∧
    parse "C" = .ok ⟨.c, 0, 0⟩ ∧ parse "Cx#" = .ok ⟨.c, 1, 0⟩ := by
  refine ⟨?_, ?_, ?_⟩
  · intro c hc
    obtain rfl := Option.some.inj hc
    rfl
  · decide +kernel
  · decide +kernel

end Melody.Pitch
