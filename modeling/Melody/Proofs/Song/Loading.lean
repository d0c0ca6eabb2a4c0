import Melody.Proofs.Json.Refusals
import Melody.Proofs.Song.Document

/-!
# Which documents of songs are loaded

Every song is written as a document, and not every document that is written is loaded. A length that is not
finite is written as the missing value, which is no length, so that the whole document is refused. It is the
only thing that a document is refused for.

## The architecture

* The `answers_document` lemmas: chords, tracks and songs, each read under the condition that the lengths in it
  are finite.
* **`Song.ofJson_toJson_eq_error`**: a single length that is not finite is enough for a song to be refused, and
  **`Song.ofJson_toJson_cases`**: it is the only reason.
-/

namespace Melody

open Json

/-- A chord is read back exactly if its length is finite: nothing else of it can be refused. -/
theorem Chord.answers_document (c : Chord) : document.Answers c (c.length.value.isFinite = true) := by
  have hpitches : List.Forall₂ Pitch.document.Rereads c.pitches c.pitches :=
    List.forall₂_same.2 fun p _ => p.rereads_document
  have hlength := Row.answers_done.required (Codec.answers_float c.length.value)
    (show "length" ∉ ([] : List String) by decide)
  have hall := hlength.required (Codec.rereads_list hpitches).answers (show "pitches" ∉ ["length"] by decide)
  have hchord : document.Answers c _ := Codec.Answers.map hall.codec
  exact hchord.congr (by simp)

/-- A track is read back exactly if all of its chords are. -/
theorem Track.answers_document (t : Track) :
    document.Answers t (∀ c ∈ t.chords, c.length.value.isFinite = true) := by
  have hchords := Codec.Answers.list fun c (_ : c ∈ t.chords) => c.answers_document
  have hvelocity := Row.answers_done.required (Codec.rereads_int32 t.velocity).answers
    (show "velocity" ∉ ([] : List String) by decide)
  have hoctave := hvelocity.required (Codec.rereads_int32 t.octave).answers
    (show "octave" ∉ ["velocity"] by decide)
  have hall := hoctave.required hchords (show "chords" ∉ ["octave", "velocity"] by decide)
  have htrack : document.Answers t _ := Codec.Answers.map hall.codec
  exact htrack.congr (by simp)

namespace Song

/-- And a song exactly if all of its tracks are. -/
theorem answers_document (s : Song) :
    document.Answers s (∀ t ∈ s.tracks, ∀ c ∈ t.chords, c.length.value.isFinite = true) := by
  have hlist := Codec.Answers.list fun t (_ : t ∈ s.tracks) => t.answers_document
  -- field by field from the last to the first, as the row is built
  have htracks := Row.answers_done.required hlist (show "tracks" ∉ ([] : List String) by decide)
  have hresolution := htracks.required (Codec.rereads_uint16 s.ticksPerQuarter).answers
    (show "ticks_per_quarter" ∉ ["tracks"] by decide)
  have htempo := hresolution.required (Codec.rereads_uint32 s.tempo).answers
    (show "tempo" ∉ ["ticks_per_quarter", "tracks"] by decide)
  have hall := htempo.required (Codec.rereads_string s.name).answers
    (show "name" ∉ ["tempo", "ticks_per_quarter", "tracks"] by decide)
  have hsong : document.Answers s _ := Codec.Answers.map hall.codec
  exact hsong.congr (by simp)

/-- One length that is not finite is enough. -/
theorem ofJson_toJson_eq_error {s : Song} {t : Track} {c : Chord} (ht : t ∈ s.tracks) (hc : c ∈ t.chords)
    (hlength : c.length.value.isFinite = false) : ofJson s.toJson = .error (.document .mismatched) := by
  have hrefused := s.answers_document.refused fun hall =>
    absurd (hall t ht c hc) (by rw [hlength]; exact Bool.false_ne_true)
  rw [ofJson, readDocument, toJson, Value.indented, String.toList_ofList, hrefused.ofText]
  rfl

/-- **What is saved is loaded** if all of its lengths are finite, however they came about, and a length that is
not makes the document one that is not loaded. -/
theorem ofJson_toJson_cases (s : Song) :
    ((∀ t ∈ s.tracks, ∀ c ∈ t.chords, c.length.value.isFinite = true) → ∃ t, ofJson s.toJson = .ok t) ∧
    ((∃ t ∈ s.tracks, ∃ c ∈ t.chords, c.length.value.isFinite = false) →
      ofJson s.toJson = .error (.document .mismatched)) := by
  constructor
  · intro hfinite
    obtain ⟨t, ht⟩ := s.answers_document.reread hfinite
    exact ⟨t, ofJson_of_rereads ht⟩
  · intro hlength
    obtain ⟨t, ht, c, hc, hlength⟩ := hlength
    exact ofJson_toJson_eq_error ht hc hlength

/-- A note resized by infinity: it is written, and not loaded again. -/
theorem ofJson_toJson_endless :
    ∃ t s, Track.ofNotation "C" 5 64 = .ok t ∧ s = ofTracks [t.resized ⟨Binary64.infinityBits⟩] 120 ∧
      ofJson s.toJson = .error (.document .mismatched) := by
  have htrack : Track.ofNotation "C" 5 64 = .ok ⟨[⟨[⟨.c, 0, 0⟩], .ofFloat 1⟩], 5, 64⟩ := by decide +kernel
  refine ⟨_, _, htrack, rfl, ?_⟩
  exact ofJson_toJson_eq_error List.mem_cons_self List.mem_cons_self (by decide +kernel)

end Song

end Melody
