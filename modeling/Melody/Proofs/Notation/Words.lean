import Melody.Notation.Token
import Melody.Proofs.Notation.PitchToken
import Melody.Proofs.Outcome

/-!
# Words of the notation

The words that chords and lengths are written with, and what each is taken for. A chord is written with
slashes between its pitches or with nothing between them; both are cut into the same pieces, since a pitch
has no slash in it and no letter but its first.

## The architecture

* **`openingWord`**: a subdivision, read back by **`activeLength_openingWord`**.
* **`chordWord`**: the pitches of a chord, read back by **`chordPitches_chordWord`**.
* **`ofWord_openingWord`** and **`ofWord_chordWord`**: neither word is taken for another token.
-/

namespace Melody.Notation

open Outcome

/-! ## Opening words -/

/-- The word that opens a group of a subdivision. -/
def openingWord (n : UInt32) : List Char := Decimal.digits n.toNat ++ ['(']

/-- A word with an opening parenthesis at its end opens a group. -/
theorem ofWord_append (front : List Char) :
    Token.ofWord (front ++ ['(']) = .opening (front ++ ['(']) := by
  rw [Token.ofWord, if_pos List.getLast?_concat]

theorem ofWord_openingWord (n : UInt32) : Token.ofWord (openingWord n) = .opening (openingWord n) :=
  ofWord_append (Decimal.digits n.toNat)

/-- The length that a word sets is the one it was written for. -/
theorem activeLength_openingWord {n : UInt32} (hn : n ≠ 0) :
    activeLength (openingWord n) = .ok (subdivided n) := by
  have hpos : n.toNat ≠ 0 := by
    intro h0
    exact hn (UInt32.toNat_inj.1 h0)
  have hsubdivision : subdivision (openingWord n) = .ok n := by
    rw [subdivision, openingWord, List.dropLast_concat, Decimal.digits?_digits]
    dsimp only
    rw [if_neg hpos, if_pos n.toNat_lt, UInt32.ofNat_toNat]
  rw [activeLength, hsubdivision]

/-! ## Chord words -/

/-- The word of a chord: a dot for a rest, else its pitches, with slashes in between or without. -/
def chordWord (slashed : Bool) : List Pitch → List Char
  | [] => ['.']
  | p :: rest =>
    if slashed then ['/'].intercalate ((p :: rest).map Pitch.chars)
    else ((p :: rest).map Pitch.chars).flatten

/-- The characters that pitches are written with, and the slash between them. -/
def isChordChar (c : Char) : Bool := Letter.isLetter c || Pitch.isMark c || c == '/'

/-- A pitch is written without slashes. -/
theorem isChordChar_of_mem_chars {p : Pitch} {c : Char} (h : c ∈ p.chars) :
    c ≠ '/' ∧ isChordChar c = true := by
  rw [Pitch.chars_eq, List.mem_cons] at h
  -- the letter, or one of the marks behind it
  rcases h with rfl | h
  · refine ⟨(Pitch.toChar_apart p.letter).2.2, ?_⟩
    rw [isChordChar, Letter.isLetter_toChar]
    rfl
  · have hmark := p.isMark_of_mem_marksText h
    refine ⟨?_, ?_⟩
    · rintro rfl
      exact absurd hmark (by decide)
    · rw [isChordChar, hmark, Bool.or_true]
      rfl

/-- The characters of a chord are those of its pitches, and slashes. -/
theorem isChordChar_of_mem_chordWord {slashed : Bool} {p : Pitch} {rest : List Pitch} {c : Char}
    (h : c ∈ chordWord slashed (p :: rest)) : isChordChar c = true := by
  have hpiece : ∀ piece ∈ (p :: rest).map Pitch.chars, c ∈ piece → isChordChar c = true := by
    intro piece hpiece hc
    obtain ⟨q, -, rfl⟩ := List.mem_map.1 hpiece
    exact (isChordChar_of_mem_chars hc).2
  rw [chordWord] at h
  -- with slashes between the pieces, or without
  split at h
  · rcases Text.mem_intercalate h with hc | ⟨piece, hmem, hc⟩
    · rw [List.mem_singleton.1 hc]
      decide
    · exact hpiece piece hmem hc
  · obtain ⟨piece, hmem, hc⟩ := List.mem_flatten.1 h
    exact hpiece piece hmem hc

/-- A chord starts with the letter of its first pitch. -/
theorem chordWord_cons (slashed : Bool) (p : Pitch) (rest : List Pitch) :
    ∃ more, chordWord slashed (p :: rest) = p.letter.toChar :: more := by
  rw [chordWord, List.map_cons, p.chars_eq]
  -- slashes only come behind the first pitch
  split
  · cases rest with
    | nil =>
      rw [List.map_nil, List.intercalate_singleton]
      exact ⟨_, rfl⟩
    | cons q rest =>
      rw [List.map_cons, List.intercalate_cons_cons]
      exact ⟨_, rfl⟩
  · exact ⟨_, rfl⟩

/-- No word of a chord is taken for another token. -/
theorem ofWord_chordWord (slashed : Bool) (p : Pitch) (rest : List Pitch) :
    Token.ofWord (chordWord slashed (p :: rest)) = .chord (chordWord slashed (p :: rest)) := by
  obtain ⟨more, hword⟩ := chordWord_cons slashed p rest
  have hlast : (chordWord slashed (p :: rest)).getLast? ≠ some '(' := by
    intro hlast
    have hparen := isChordChar_of_mem_chordWord (List.mem_of_getLast? hlast)
    exact absurd hparen (by decide)
  -- the other words are a single character that is no letter
  have hother {c : Char} (hc : Letter.isLetter c = false) : chordWord slashed (p :: rest) ≠ [c] := by
    intro hsingle
    rw [hword, List.cons.injEq] at hsingle
    rw [← hsingle.1, Letter.isLetter_toChar] at hc
    cases hc
  rw [Token.ofWord, if_neg hlast, if_neg (hother (by decide)), if_neg (hother (by decide)),
    if_neg (hother (by decide))]

/-- Pitches without anything in between are cut at their letters. -/
theorem chordPieces_flatten (pitches : List Pitch) :
    chordPieces (pitches.map Pitch.chars).flatten = pitches.map Pitch.chars := by
  have hslash : '/' ∉ (pitches.map Pitch.chars).flatten := by
    intro hmem
    obtain ⟨piece, hpiece, hc⟩ := List.mem_flatten.1 hmem
    obtain ⟨q, -, rfl⟩ := List.mem_map.1 hpiece
    exact (isChordChar_of_mem_chars hc).1 rfl
  rw [chordPieces, if_neg hslash]
  -- what is left is that each written pitch is a group: a letter, and no letter behind it
  apply Text.groupsFrom_flatten
  intro piece hpiece
  obtain ⟨q, -, rfl⟩ := List.mem_map.1 hpiece
  exact q.isGroup_chars

/-- Pitches with slashes in between are cut at the slashes. -/
theorem chordPieces_intercalate (p q : Pitch) (rest : List Pitch) :
    chordPieces (['/'].intercalate ((p :: q :: rest).map Pitch.chars)) =
      (p :: q :: rest).map Pitch.chars := by
  -- with two pitches there is a slash
  have hslash : '/' ∈ ['/'].intercalate ((p :: q :: rest).map Pitch.chars) := by
    rw [List.map_cons, List.map_cons, List.intercalate_cons_cons, List.append_assoc]
    exact List.mem_append_right _ (List.mem_cons_self)
  rw [chordPieces, if_pos hslash]
  apply Text.fields_intercalate (by decide)
  · intro piece hpiece
    obtain ⟨r, -, rfl⟩ := List.mem_map.1 hpiece
    exact r.isGroup_chars.ne_nil
  · intro piece hpiece c hc
    obtain ⟨r, -, rfl⟩ := List.mem_map.1 hpiece
    rw [beq_eq_false_iff_ne]
    exact (isChordChar_of_mem_chars hc).1

/-- Both ways of writing a chord are cut into its pitches. -/
theorem chordPieces_chordWord (slashed : Bool) (p : Pitch) (rest : List Pitch) :
    chordPieces (chordWord slashed (p :: rest)) = (p :: rest).map Pitch.chars := by
  cases slashed with
  | false => exact chordPieces_flatten (p :: rest)
  | true =>
    cases rest with
    | nil =>
      -- a single pitch has no slash behind it, and is cut as if there were none to come
      have hsingle := chordPieces_flatten [p]
      rw [List.map_singleton, List.flatten_singleton] at hsingle
      show chordPieces (['/'].intercalate [p.chars]) = _
      rw [List.intercalate_singleton]
      exact hsingle
    | cons q rest => exact chordPieces_intercalate p q rest

/-- **The pitches of a chord are read back** from its word, if their octaves may be marked. -/
theorem chordPitches_chordWord (slashed : Bool) {p : Pitch} {rest : List Pitch}
    (h : ∀ q ∈ p :: rest, q.octave.toInt.natAbs ≤ Pitch.maxOctave) :
    chordPitches (chordWord slashed (p :: rest)) = .ok (p :: rest) := by
  rw [chordPitches, chordPieces_chordWord]
  show ((p :: rest).map Pitch.chars).mapM Pitch.parseChars = _
  rw [mapM_eq_ok_iff, List.forall₂_map_left_iff, List.forall₂_same]
  intro q hq
  exact Pitch.parseChars_chars (h q hq)

end Melody.Notation
