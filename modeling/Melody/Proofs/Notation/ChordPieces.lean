import Melody.Notation.Token
import Melody.Proofs.Notation.PitchToken
import Melody.Proofs.Outcome
import Melody.Proofs.Text.Stretches

/-!
# Pieces of a chord word

A chord word is cut at its slashes, or where it has none in front of its letters. Nothing but slashes is lost, and
nothing is cut that could stay together. A word of which no piece is left holds no pitch, and it is refused for
that and for no other reason.

## The architecture

* **`ne_nil_of_mem_chordPieces`**: no piece is empty, and so none is refused for that.
* **`chordPieces_eq_nil_iff`** and **`chordPitches_eq_emptyPitch_iff`**: the words without pieces.
* **`chordPieces_lossless`**: which pieces there are.
-/

namespace Melody.Notation

open Outcome

variable {word piece : List Char}

theorem ne_nil_of_mem_chordPieces (h : piece ∈ chordPieces word) : piece ≠ [] := by
  rw [chordPieces] at h
  split at h
  · exact Text.ne_nil_of_mem_fields h
  · exact (Text.isGrouping_groupsFrom Letter.isLetter word).ne_nil piece h

/-- Slashes alone leave no piece. -/
theorem chordPieces_eq_nil_iff : chordPieces word = [] ↔ ∀ c ∈ word, c = '/' := by
  rw [chordPieces]
  split
  · rw [Text.fields_eq_nil_iff]
    simp only [beq_iff_eq]
  · -- a word without a slash is all slashes only when it is empty
    next hslash =>
    rw [Text.groupsFrom, List.splitBy_eq_nil]
    constructor
    · rintro rfl
      exact List.forall_mem_nil _
    · intro hall
      exact List.eq_nil_iff_forall_not_mem.2 fun c hc => hslash (hall c hc ▸ hc)

/-- Only a word without pieces is an empty pitch: in a piece there is at least a letter to read. -/
theorem chordPitches_eq_emptyPitch_iff : chordPitches word = .error .emptyPitch ↔ chordPieces word = [] := by
  rw [chordPitches]
  split
  · next hpieces => exact iff_of_true rfl hpieces
  · next hpieces =>
    refine iff_of_false ?_ hpieces
    intro h
    -- no piece is empty, so no piece can be at fault for that
    obtain ⟨before, piece, after, heq, -, hpiece⟩ := mapM_eq_error_iff.1 h
    have hmem : piece ∈ chordPieces word := by
      rw [heq]
      exact List.mem_append_right before List.mem_cons_self
    exact ne_nil_of_mem_chordPieces hmem (Pitch.parseChars_eq_emptyPitch_iff.1 hpiece)

/-- **The pieces of a chord word.** Without a slash they are the word again, put one after the other; a piece
begins with every letter of the word and nowhere else but with the word, and no other cut is like that. With a
slash they are the longest stretches without slashes, all of them and from front to back. There is none exactly
if the word is nothing but slashes, and exactly then it is refused for having no pitch. -/
theorem chordPieces_lossless (word : List Char) :
    ('/' ∉ word → ∀ pieces, chordPieces word = pieces ↔ Text.IsGrouping Letter.isLetter word pieces) ∧
    ('/' ∈ word → ∃ stretches : List (Text.Stretch (· == '/') word), Text.ListsStretches stretches ∧
      chordPieces word = stretches.map Text.Stretch.word) ∧
    (chordPieces word = [] ↔ ∀ c ∈ word, c = '/') ∧
    (chordPitches word = .error .emptyPitch ↔ ∀ c ∈ word, c = '/') := by
  -- the two ways of taking a word apart, then the two forms of the empty word
  refine ⟨fun hslash pieces => ?_, fun hslash => ?_, chordPieces_eq_nil_iff, ?_⟩
  · rw [chordPieces, if_neg hslash]
    exact Text.groupsFrom_eq_iff
  · rw [chordPieces, if_pos hslash]
    exact Text.exists_stretches (· == '/') word
  · rw [chordPitches_eq_emptyPitch_iff]
    exact chordPieces_eq_nil_iff

/-- What stands in front of the first letter is a piece, and a slash cuts where a letter does not. -/
example : chordPieces "é#CE_1".toList = ["é#".toList, "C".toList, "E_1".toList] ∧
    chordPieces "/CE//é/".toList = ["CE".toList, "é".toList] := by
  decide

end Melody.Notation
