import Melody.Pitch
import Melody.Proofs.Outcome

/-!
# Canonical pitches

A canonical pitch is known by its value, and so is whatever is computed from the value alone.

## The architecture

* **`canonical_eq_ok_iff`**: the fields of a canonical pitch; the only thing that can go wrong is the octave
  (**`eq_pitchOverflow_of_canonical`**), which has to be one of 32 bits (**`exists_canonical_eq_ok_iff`**).
* **`residue_of_canonical`**: its residue is one of the twelve, and so a shift table can have it.
* **`IsCanonical`** says what a canonical spelling is without a value, and **`canonical_eq_ok_iff_isCanonical`** that
  there is one such pitch for a value.
* **`octaveShifted_ofInt32`**: a canonical pitch that is moved by octaves is canonical again.
* **`transposed_of_value_eq`**: spelling is lost in a transposition.
-/

namespace Melody

open Outcome

theorem eq_pitchOverflow_of_narrow {n : Int} {fault : Error} (h : narrow n = .error fault) :
    fault = .pitchOverflow := by
  unfold narrow at h
  split at h
  · cases h
  · cases h
    rfl

/-- The integers that 32 bits hold. -/
def IsWord (n : Int) : Prop := Int32.minValue.toInt ≤ n ∧ n ≤ Int32.maxValue.toInt

instance (n : Int) : Decidable (IsWord n) := inferInstanceAs (Decidable (_ ∧ _))

theorem exists_narrow_eq_ok_iff {n : Int} : (∃ w, narrow n = .ok w) ↔ IsWord n := by
  simp only [narrow_eq_ok_iff]
  constructor
  · rintro ⟨w, rfl⟩
    exact ⟨w.minValue_le_toInt, w.toInt_le⟩
  · rintro ⟨hlow, hhigh⟩
    exact ⟨Int32.ofIntLE n hlow hhigh, Int32.toInt_ofIntLE⟩

/-- A sum of words that is a word is the sum of the integers. -/
theorem toInt_add_of_isWord {a b : Int32} (h : IsWord (a.toInt + b.toInt)) :
    (a + b).toInt = a.toInt + b.toInt := by
  obtain ⟨hlow, hhigh⟩ := h
  rw [Int32.toInt_add]
  exact Int.bmod_eq_of_le hlow (Int.lt_add_one_of_le hhigh)

theorem toInt_mul_of_isWord {a b : Int32} (h : IsWord (a.toInt * b.toInt)) :
    (a * b).toInt = a.toInt * b.toInt := by
  obtain ⟨hlow, hhigh⟩ := h
  rw [Int32.toInt_mul]
  exact Int.bmod_eq_of_le hlow (Int.lt_add_one_of_le hhigh)

namespace Pitch

variable {v : Int} {p q : Pitch}

/-- The canonical spelling of a value has the octave that the value is in, and the name of its class. -/
theorem canonical_eq_ok_iff :
    canonical v = .ok p ↔ p.octave.toInt = v / octaveWidth ∧ p = spelled v p.octave := by
  rw [canonical, bind_eq_ok_iff]
  constructor
  · rintro ⟨octave, hoctave, hp⟩
    obtain rfl := pure_eq_ok_iff.1 hp
    exact ⟨narrow_eq_ok_iff.1 hoctave, rfl⟩
  · rintro ⟨hoctave, hp⟩
    exact ⟨p.octave, narrow_eq_ok_iff.2 hoctave, pure_eq_ok_iff.2 hp.symm⟩

/-- There is a canonical pitch for every value whose octave has a word. -/
theorem exists_canonical_eq_ok_iff : (∃ p, canonical v = .ok p) ↔ IsWord (v / octaveWidth) := by
  rw [← exists_narrow_eq_ok_iff]
  constructor
  · rintro ⟨p, hp⟩
    exact ⟨p.octave, narrow_eq_ok_iff.2 (canonical_eq_ok_iff.1 hp).1⟩
  · rintro ⟨octave, hoctave⟩
    exact ⟨spelled v octave, canonical_eq_ok_iff.2 ⟨narrow_eq_ok_iff.1 hoctave, rfl⟩⟩

theorem eq_pitchOverflow_of_canonical {fault : Error} (h : canonical v = .error fault) :
    fault = .pitchOverflow := by
  rw [canonical, bind_eq_error_iff] at h
  obtain hoctave | ⟨octave, -, h⟩ := h
  · exact eq_pitchOverflow_of_narrow hoctave
  · exact absurd h pure_ne_error

theorem residue_spelled (v : Int) (octave : Int32) : (spelled v octave).residue = v % octaveWidth := by
  have hspelling := spelling_residue (v % octaveWidth).toNat (by simp only [octaveWidth]; omega)
  show (spelling (v % octaveWidth).toNat).1.semitones + (spelling (v % octaveWidth).toNat).2.toInt = _
  rw [hspelling]
  simp only [octaveWidth]
  omega

/-- A pitch keeps its class when it is spelled canonically. -/
theorem residue_of_canonical (h : canonical v = .ok p) : p.residue = v % octaveWidth := by
  rw [(canonical_eq_ok_iff.1 h).2]
  exact residue_spelled v p.octave

/-- The octave of a word is a word, since it is a quotient. -/
theorem octave_ofInt32 (n : Int32) : (ofInt32 n).octave.toInt = n.toInt / octaveWidth := by
  have hlow := n.le_toInt
  have hhigh := n.toInt_lt
  show (Int32.ofInt (n.toInt / octaveWidth)).toInt = _
  simp only [octaveWidth]
  exact Int32.toInt_ofInt_of_le (by omega) (by omega)

/-- Whole octaves above a canonical pitch stands the canonical pitch of so many semitones more. -/
theorem octaveShifted_ofInt32 (n octaves : Int32) :
    (ofInt32 n).octaveShifted octaves = canonical (n.toInt + octaveWidth * octaves.toInt) := by
  have hoctave : (n.toInt + octaveWidth * octaves.toInt) / octaveWidth =
      n.toInt / octaveWidth + octaves.toInt := by
    simp only [octaveWidth]
    omega
  -- whole octaves leave the remainder, and with it letter and accidental, alone
  have hspelled (octave : Int32) :
      ({ ofInt32 n with octave } : Pitch) = spelled (n.toInt + octaveWidth * octaves.toInt) octave := by
    rw [spelled, Int.add_mul_emod_self_left]
    rfl
  rw [octaveShifted, canonical, octave_ofInt32, hoctave]
  simp only [hspelled]

/-! ## Spelling -/

/-- Whether letter and accidental are the preferred spelling of one of the twelve residues. -/
def IsCanonical (p : Pitch) : Prop := ∃ r < 12, spelling r = (p.letter, p.accidental)

instance (p : Pitch) : Decidable p.IsCanonical :=
  inferInstanceAs (Decidable (∃ r < 12, spelling r = (p.letter, p.accidental)))

/-- A preferred spelling belongs to its own residue, so that value and octave tell each other. -/
theorem eq_spelled_of_isCanonical (h : p.IsCanonical) :
    p.octave.toInt = p.value / octaveWidth ∧ p = spelled p.value p.octave := by
  obtain ⟨r, hr, hspelling⟩ := h
  -- the letter and the accidental come from the table, so the residue is below an octave and the octave is
  -- exact
  have hresidue : p.residue = r := by
    have hr := spelling_residue r hr
    rw [hspelling] at hr
    exact hr
  have hvalue : p.value = r + octaveWidth * p.octave.toInt := by
    rw [value, hresidue]
  have hmod : (p.value % octaveWidth).toNat = r := by
    simp only [hvalue, octaveWidth]
    omega
  refine ⟨?_, ?_⟩
  · simp only [hvalue, octaveWidth]
    omega
  · rw [spelled, hmod, hspelling]

/-- The canonical pitch of a value is the one that is canonically spelled and has the value. -/
theorem canonical_eq_ok_iff_isCanonical : canonical v = .ok p ↔ p.IsCanonical ∧ p.value = v := by
  constructor
  · intro h
    refine ⟨⟨(v % octaveWidth).toNat, ?_, ?_⟩, value_of_canonical h⟩
    · simp only [octaveWidth]
      omega
    · rw [(canonical_eq_ok_iff.1 h).2]
      rfl
  · rintro ⟨hcanonical, rfl⟩
    exact canonical_eq_ok_iff.2 (eq_spelled_of_isCanonical hcanonical)

/-- Pitches of one value become one pitch when they are moved, however they are spelled. -/
theorem transposed_of_value_eq (h : p.value = q.value) (delta : Int32) :
    p.transposed delta = q.transposed delta := by
  rw [transposed, transposed, moved, moved, h]

end Pitch

end Melody
