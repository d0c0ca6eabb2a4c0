import Melody.Pitch.Token
import Melody.Proofs.Text.Digits
import Melody.Proofs.Text.Fields

/-!
# Pitches read back

A pitch is written as a letter and some marks, and none of the marks is a letter. It is read back from that
unless its octave is too large to be marked.

## The architecture

* **`isMark`** are the characters behind the letter. They are no letters, blanks or slashes, so that a pitch
  ends wherever one of these follows (**`isGroup_chars`**).
* **`marks_replicate`**: accidentals add up, in words of 32 bits.
* **`marks_octaveText`** and **`parseChars_chars`**: octave and pitch as they were. An octave that is too large
  is what the reader refuses (**`parseChars_chars_eq`**).
-/

namespace Melody

namespace Letter

/-- A character is read as the letter that it is written with. -/
theorem toChar_of_ofChar? {c : Char} {l : Letter} (h : ofChar? c = some l) : l.toChar = c := by
  unfold ofChar? at h
  split at h
  all_goals cases h
  all_goals rfl

theorem isLetter_toChar (l : Letter) : isLetter l.toChar = true := by
  rw [isLetter, ofChar?_toChar]
  rfl

end Letter

namespace Pitch

/-! ## Characters -/

/-- The characters behind the letter of a pitch. -/
def isMark (c : Char) : Bool := c == '#' || c == 'b' || c == '^' || c == '_' || Decimal.isDigit c

/-- A letter is no mark, no blank and no slash. -/
theorem toChar_apart (l : Letter) :
    isMark l.toChar = false ∧ Text.isBlank l.toChar = false ∧ l.toChar ≠ '/' := by
  cases l with
  | c => decide
  | d => decide
  | e => decide
  | f => decide
  | g => decide
  | a => decide
  | b => decide

/-- Marks are no letters, so a letter always starts the next pitch. -/
theorem isLetter_of_isMark {c : Char} (h : isMark c = true) : Letter.isLetter c = false := by
  rw [Letter.isLetter]
  cases hc : Letter.ofChar? c with
  | none => rfl
  | some l =>
    rw [← Letter.toChar_of_ofChar? hc, (toChar_apart l).1] at h
    cases h

theorem isBlank_of_isDigit {c : Char} (h : Decimal.isDigit c = true) : Text.isBlank c = false := by
  rw [Decimal.isDigit, Bool.and_eq_true, decide_eq_true_eq, decide_eq_true_eq, Char.le_def,
    Char.le_def, UInt32.le_iff_toNat_le, UInt32.le_iff_toNat_le] at h
  have hlow : 48 ≤ c.toNat := h.1
  have hhigh : c.toNat ≤ 57 := h.2
  simp only [Text.isBlank, Bool.or_eq_false_iff, Bool.and_eq_false_iff, decide_eq_false_iff_not,
    beq_eq_false_iff_ne]
  omega

theorem isBlank_of_isMark {c : Char} (h : isMark c = true) : Text.isBlank c = false := by
  simp only [isMark, Bool.or_eq_true, beq_iff_eq] at h
  rcases h with (((rfl | rfl) | rfl) | rfl) | h
  · decide
  · decide
  · decide
  · decide
  · exact isBlank_of_isDigit h

/-! ## Writing -/

variable (p : Pitch)

/-- What is written behind the letter. -/
def marksText : List Char :=
  List.replicate p.accidental.toInt.natAbs (if 0 < p.accidental.toInt then '#' else 'b') ++
    octaveText p.octave

theorem chars_eq : p.chars = p.letter.toChar :: p.marksText := rfl

/-- The text of an octave is made of marks. -/
theorem isMark_of_mem_octaveText {octave : Int32} {c : Char} (h : c ∈ octaveText octave) :
    isMark c = true := by
  have hdigit {n : Nat} (hc : c ∈ Decimal.digits n) : isMark c = true := by
    rw [isMark, Decimal.isDigit_of_mem_digits hc, Bool.or_true]
  rw [octaveText] at h
  -- raised, lowered, or left in place and then not written at all
  split at h
  · rcases List.mem_cons.1 h with rfl | hc
    · decide
    · exact hdigit hc
  · split at h
    · rcases List.mem_cons.1 h with rfl | hc
      · decide
      · exact hdigit hc
    · cases h

theorem isMark_of_mem_marksText {c : Char} (h : c ∈ p.marksText) : isMark c = true := by
  rcases List.mem_append.1 h with hc | hc
  · rw [List.eq_of_mem_replicate hc]
    split
    · decide
    · decide
  · exact isMark_of_mem_octaveText hc

/-- A pitch begins with a letter and has no other. -/
theorem isGroup_chars : Text.IsGroup Letter.isLetter p.chars := by
  refine ⟨_, _, p.chars_eq, Letter.isLetter_toChar p.letter, ?_⟩
  intro c hc
  exact isLetter_of_isMark (p.isMark_of_mem_marksText hc)

/-! ## Reading -/

/-- Accidentals of one kind add up. -/
theorem marks_replicate {c : Char} {k : Int} (hc : accidentalShift? c = some (Int32.ofInt k))
    (accidental : Int32) (n : Nat) (rest : List Char) :
    marks accidental (List.replicate n c ++ rest) = marks (accidental + Int32.ofInt (n * k)) rest := by
  induction n generalizing accidental with
  | zero => simp
  | succ n ih =>
    rw [List.replicate_succ, List.cons_append, marks, hc]
    dsimp only
    -- one shift is made, and those of the other marks are added to it
    rw [ih, Int32.add_assoc, ← Int32.ofInt_add]
    congr 3
    rw [Int.natCast_add, Int.add_mul, Int.add_comm]
    simp

/-- The accidentals in front of an octave marker are those that were written. -/
theorem marks_accidental (accidental : Int32) (rest : List Char) :
    marks 0 (List.replicate accidental.toInt.natAbs (if 0 < accidental.toInt then '#' else 'b') ++ rest) =
      marks accidental rest := by
  by_cases h : 0 < accidental.toInt
  · rw [if_pos h, marks_replicate (k := 1) rfl, Int32.zero_add, Int.mul_one,
      Int.natAbs_of_nonneg (by omega), Int32.ofInt_toInt]
  · rw [if_neg h, marks_replicate (k := -1) rfl, Int32.zero_add, Int.mul_neg, Int.mul_one,
      Int.ofNat_natAbs_of_nonpos (by omega), Int.neg_neg, Int32.ofInt_toInt]

/-- Digits of a number are read behind a marker if they name an octave that may be marked. -/
theorem markedOctave_digits (n : Nat) :
    markedOctave (Decimal.digits n) =
      if n ≤ maxOctave then .ok (Int32.ofNat n) else .error .octaveOutOfRange := by
  have hspan : Decimal.span (Decimal.digits n ++ []) = _ := Decimal.span_digits n nofun
  rw [List.append_nil] at hspan
  rw [markedOctave, hspan]
  dsimp only
  rw [if_neg (by rw [List.isEmpty_iff]; exact Decimal.digits_ne_nil n), Decimal.ofDigits_digits]

/-- An octave is read back if it may be marked, and is refused if not. -/
theorem marks_octaveText (accidental octave : Int32) :
    marks accidental (octaveText octave) =
      if octave.toInt.natAbs ≤ maxOctave then .ok (accidental, octave) else .error .octaveOutOfRange := by
  rw [octaveText]
  -- below zero the sign is `_`, above it is `^`, and the octave zero is not written
  rcases Int.lt_trichotomy octave.toInt 0 with hneg | hzero | hpos
  · rw [if_neg (by omega), if_pos hneg]
    show (markedOctave (Decimal.digits octave.toInt.natAbs)).map _ = _
    rw [markedOctave_digits, ← Int32.ofInt_eq_ofNat, Int.ofNat_natAbs_of_nonpos (by omega)]
    split
    · show Except.ok (accidental, -Int32.ofInt (-octave.toInt)) = _
      rw [← Int32.ofInt_neg, Int.neg_neg, Int32.ofInt_toInt]
    · rfl
  · obtain rfl : octave = 0 := Int32.toInt_inj.1 hzero
    rfl
  · rw [if_pos hpos]
    show (markedOctave (Decimal.digits octave.toInt.natAbs)).map _ = _
    rw [markedOctave_digits, ← Int32.ofInt_eq_ofNat, Int.natAbs_of_nonneg (by omega),
      Int32.ofInt_toInt]
    split
    · rfl
    · rfl

/-- Only the empty text is refused for being empty. -/
theorem parseChars_eq_emptyPitch_iff {token : List Char} :
    parseChars token = .error .emptyPitch ↔ token = [] := by
  constructor
  · intro h
    cases token with
    | nil => rfl
    | cons c rest =>
      -- every other refusal names the token
      rw [parseChars] at h
      split at h
      · cases h
      · split at h
        · cases h
        · cases h
  · rintro rfl
    rfl

/-- What is read from the text of a pitch: the pitch, or the refusal of its octave. -/
theorem parseChars_chars_eq (p : Pitch) :
    parseChars p.chars =
      if p.octave.toInt.natAbs ≤ maxOctave then .ok p
      else .error (.malformedToken p.text .octaveOutOfRange) := by
  rw [text, chars_eq, parseChars]
  rw [Letter.ofChar?_toChar]
  dsimp only
  rw [marksText, marks_accidental, marks_octaveText]
  -- reading the marks back gives the pitch; only the bound on the octave is left to ask
  by_cases h : p.octave.toInt.natAbs ≤ maxOctave
  · rw [if_pos h, if_pos h]
  · rw [if_neg h, if_neg h]

/-- **A pitch is read back** from its own text, if its octave may be marked. -/
theorem parseChars_chars {p : Pitch} (h : p.octave.toInt.natAbs ≤ maxOctave) :
    parseChars p.chars = .ok p := by
  rw [parseChars_chars_eq, if_pos h]

end Pitch

end Melody
