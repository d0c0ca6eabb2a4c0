import Melody.Proofs.Notation.Trailing
import Melody.Proofs.Outcome

/-!
# The text of a pitch

Every pitch has a text, whatever its accidental and octave, but the reader takes no octave above the last one
that may be marked. What the reader has taken is below that, and so it is taken again from its own text.

## The architecture

* **`natAbs_le_of_parse`**: no octave that is read is above the last, whatever token it is read from.
* **`text_reads_back`**: what is read from the text of a pitch, and that it is the pitch if that was read before.
-/

namespace Melody.Pitch

open Outcome

variable {accidental octave : Int32} {rest : List Char} {p : Pitch}

/-- An octave that was marked is at most the last, above zero and below. -/
theorem natAbs_le_of_markedOctave (h : markedOctave rest = .ok octave) :
    octave.toInt.natAbs ≤ maxOctave ∧ (-octave).toInt.natAbs ≤ maxOctave := by
  -- the bound on the octave is far below the bounds of a word, so negating it stays in range
  have hword (n : Int) (hn : n.natAbs ≤ maxOctave) : (Int32.ofInt n).toInt = n := by
    rw [maxOctave] at hn
    exact Int32.toInt_ofInt_of_le (by omega) (by omega)
  rw [markedOctave] at h
  dsimp only at h
  split at h
  · cases h
  · obtain ⟨hle, rfl⟩ := ite_eq_ok_iff.1 h
    generalize Decimal.ofDigits (Decimal.span rest).1 = n at hle
    rw [← Int32.ofInt_eq_ofNat, ← Int32.ofInt_neg, hword n (by omega), hword (-n) (by omega)]
    omega

/-- An octave that is read is within the range of the reader, on either side. -/
theorem natAbs_le_of_tailOctave (h : tailOctave rest = .ok octave) : octave.toInt.natAbs ≤ maxOctave := by
  rw [tailOctave] at h
  split at h
  · cases h
    decide
  · next mark digits _ =>
    cases hoctave : markedOctave digits with
    | error fault =>
      rw [hoctave] at h
      cases h
    | ok marked =>
      rw [hoctave] at h
      obtain rfl := Except.ok.inj h
      obtain ⟨habove, hbelow⟩ := natAbs_le_of_markedOctave hoctave
      -- the mark says whether the octave is raised or lowered
      split
      · exact habove
      · exact hbelow

/-- Whatever token a pitch is read from, its octave is in range. -/
theorem natAbs_le_of_parse {token : String} (h : parse token = .ok p) :
    p.octave.toInt.natAbs ≤ maxOctave := by
  rw [parse] at h
  cases hchars : token.toList with
  | nil =>
    rw [hchars] at h
    cases h
  | cons c rest =>
    rw [hchars, parseChars] at h
    split at h
    · cases h
    · rw [marks_eq_tail] at h
      cases hoctave : tailOctave rest with
      | error fault =>
        rw [hoctave] at h
        cases h
      | ok octave =>
        rw [hoctave] at h
        obtain rfl := Except.ok.inj h
        exact natAbs_le_of_tailOctave hoctave

/-- What is read from the text of a pitch: the pitch, or the refusal of its octave. -/
theorem parse_text (p : Pitch) :
    parse p.text =
      if p.octave.toInt.natAbs ≤ maxOctave then .ok p
      else .error (.malformedToken p.text .octaveOutOfRange) := by
  rw [parse, text, String.toList_ofList]
  exact parseChars_chars_eq p

/-- **A pitch is read back from its text** exactly if its octave may be marked, letter, accidental and octave as
they were; another octave is refused. Whatever token a pitch was read from, it is read back from its text. -/
theorem text_reads_back (p : Pitch) :
    (∀ q, parse p.text = .ok q ↔ q = p ∧ p.octave.toInt.natAbs ≤ maxOctave) ∧
    (∀ fault, parse p.text = .error fault ↔
      fault = .malformedToken p.text .octaveOutOfRange ∧ maxOctave < p.octave.toInt.natAbs) ∧
    ∀ token, parse token = .ok p → parse p.text = .ok p := by
  rw [parse_text]
  -- beyond the range the text is refused, and no other pitch is read from it
  by_cases h : p.octave.toInt.natAbs ≤ maxOctave
  · rw [if_pos h]
    refine ⟨fun q => ?_, fun fault => ?_, fun _ _ => rfl⟩
    · rw [Except.ok.injEq, eq_comm, and_iff_left h]
    · exact iff_of_false nofun fun hfault => Nat.not_lt.2 h hfault.2
  · rw [if_neg h]
    refine ⟨fun q => ?_, fun fault => ?_, fun token htoken => absurd (natAbs_le_of_parse htoken) h⟩
    · exact iff_of_false nofun fun hq => h hq.2
    · rw [Except.error.injEq, eq_comm, and_iff_left (Nat.not_le.1 h)]

/-- What was passed over is not written again. -/
example : (parse "Gb#bx_07é").toOption.map text = some "Gb_7" := by decide +kernel

end Melody.Pitch
