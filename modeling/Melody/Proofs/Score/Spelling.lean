import Melody.Proofs.Notation.Steps
import Melody.Proofs.Pitch.Canonical
import Melody.Score

/-!
# Scores by their sound

A song does not show how the pitches of its score were spelled. Every track is transposed before anything
else is done to it, even if by nothing, and the pitches that come out of that are spelled by their values
alone.

## The architecture

* **`Chord.transposed_of_soundsLike`**: chords that sound alike are one chord after a transposition. Their
  lengths have no minus sign (**`Chord.length_of_soundsLike`**), so that equal lengths are the same length.
* **`TrackSpec.IsRespelling`** and **`Score.IsRespelling`**: descriptions with the same settings, whose lines
  can be read and sound alike. **`TrackSpec.build_of_isRespelling`** is the track of both.
* **`Score.compile_of_isRespelling`** puts this together.
-/

namespace Melody

open Outcome

/-! ## Chords -/

namespace Chord

/-- The comparison of pitch lists says what it should: equal values at each place. -/
theorem forall₂_of_pitchesSoundLike {ps qs : List Pitch} (h : pitchesSoundLike ps qs = true) :
    List.Forall₂ (fun p q => p.value = q.value) ps qs := by
  fun_induction pitchesSoundLike ps qs with
  | case1 => exact .nil
  | case2 p ps q qs ih =>
    rw [Bool.and_eq_true] at h
    exact .cons (beq_iff_eq.1 h.1) (ih h.2)
  | case3 => cases h

variable {c d : Chord}

/-- Lengths without a minus sign that compare as equal are equal bit by bit. -/
theorem length_of_soundsLike (h : c.soundsLike d = true) (hc : c.Measured) (hd : d.Measured) :
    c.length = d.length := by
  rw [soundsLike, Bool.and_eq_true] at h
  obtain ⟨x, hx, hxu⟩ := hc
  obtain ⟨y, hy, hyu⟩ := hd
  rw [hx, hy, Binary64.value_ofFloat, Binary64.value_ofFloat] at h
  rw [hx, hy, Decimal.eq_of_beq_of_isUnsigned hxu hyu h.2]

/-- Chords that sound alike are transposed to the same chord, since transposing respells. -/
theorem transposed_of_soundsLike (h : c.soundsLike d = true) (hc : c.Measured) (hd : d.Measured)
    (delta : Int32) : c.transposed delta = d.transposed delta := by
  have hlength := length_of_soundsLike h hc hd
  rw [soundsLike, Bool.and_eq_true] at h
  -- a transposed pitch depends on the value only
  have hpitches : c.pitches.mapM (·.transposed delta) = d.pitches.mapM (·.transposed delta) := by
    apply mapM_eq_mapM
    exact (forall₂_of_pitchesSoundLike h.1).imp fun p q hpq => Pitch.transposed_of_value_eq hpq delta
  rw [transposed, transposed, mapPitches, mapPitches, hpitches, hlength]

end Chord

/-! ## Tracks -/

/-- The comparison of chord lists, too, is made place by place. -/
theorem Track.forall₂_of_chordsSoundLike {cs ds : List Chord} (h : chordsSoundLike cs ds = true) :
    List.Forall₂ (fun c d => c.soundsLike d = true) cs ds := by
  fun_induction chordsSoundLike cs ds with
  | case1 => exact .nil
  | case2 c cs d ds ih =>
    rw [Bool.and_eq_true] at h
    exact .cons h.1 (ih h.2)
  | case3 => cases h

/-- Chords that sound alike one by one become the same chords when they are moved. -/
theorem Track.mapM_transposed_of_chordsSoundLike {cs ds : List Chord} (h : chordsSoundLike cs ds = true)
    (hcs : ∀ c ∈ cs, c.Measured) (hds : ∀ d ∈ ds, d.Measured) (delta : Int32) :
    cs.mapM (·.transposed delta) = ds.mapM (·.transposed delta) := by
  -- chord by chord the results are equal, faults included
  apply mapM_eq_mapM
  have hall := forall₂_of_chordsSoundLike h
  clear h
  induction hall with
  | nil => exact .nil
  | cons hcd _ ih =>
    rw [List.forall_mem_cons] at hcs hds
    exact .cons (Chord.transposed_of_soundsLike hcd hcs.1 hds.1 delta) (ih hcs.2 hds.2)

namespace TrackSpec

variable {a b : TrackSpec}

/-- The same track in two spellings: all that differs are lines that can be read and sound alike. -/
structure IsRespelling (a b : TrackSpec) : Prop where
  settings : b = { a with line := b.line }
  sound : ∃ cs ds, Notation.parse a.line = .ok cs ∧ Notation.parse b.line = .ok ds ∧
    Track.chordsSoundLike cs ds = true

/-- What is done to chords once they have been moved. -/
def finish (a : TrackSpec) (moved : List Chord) : Result Track :=
  let track : Track := ⟨moved, a.octave, a.velocity⟩
  let track := match a.resizing with
    | some factor => track.resized (.ofFloat factor)
    | none => track
  track.repeated a.repetitions

/-- A track is built from its chords by transposing them and then finishing. -/
theorem build_of_parse {chords : List Chord} (h : Notation.parse a.line = .ok chords) :
    a.build = chords.mapM (·.transposed a.transposition) >>= a.finish := by
  rw [build, Track.ofNotation, Track.withNotation, h]
  show (chords.mapM (·.transposed a.transposition) >>= fun moved =>
    (pure ⟨moved, a.octave, a.velocity⟩ : Result Track)) >>= _ = _
  rw [bind_assoc]
  rfl

/-- A respelled track is built the same. This is where the floats of two parses must be equal and not only
compare so. -/
theorem build_of_isRespelling (h : a.IsRespelling b) : a.build = b.build := by
  obtain ⟨cs, ds, hcs, hds, hsound⟩ := h.sound
  have hmoved := Track.mapM_transposed_of_chordsSoundLike hsound (Notation.measured_of_parse hcs)
    (Notation.measured_of_parse hds) a.transposition
  rw [build_of_parse hcs, build_of_parse hds, h.settings, hmoved]
  rfl

end TrackSpec

/-! ## Scores -/

namespace Score

/-- The same score in two spellings, track by track. -/
structure IsRespelling (s t : Score) : Prop where
  settings : t = { s with tracks := t.tracks }
  tracks : List.Forall₂ TrackSpec.IsRespelling s.tracks t.tracks

/-- **Spelling does not show in a song:** two spellings of one score compile to the same song, field by
field, or fail alike. -/
theorem compile_of_isRespelling {s t : Score} (h : s.IsRespelling t) :
    s.compile false = t.compile false := by
  have htracks : s.tracks.mapM (buildTrack false) = t.tracks.mapM (buildTrack false) := by
    apply mapM_eq_mapM
    exact h.tracks.imp fun a b hab => TrackSpec.build_of_isRespelling hab
  rw [compile, compile, htracks, h.settings]

/-- A score of one track that is resized, repeated and moved from C major into D minor. -/
def inDMinor (line : String) : Score where
  name := none
  tempo := 120
  ticksPerQuarter := 96
  tracks := [⟨line, 5, 64, 2, 0, some 0.5⟩]
  modulation := some ⟨.mode "C" "major", .mode "D" "natural_minor"⟩
  transposition := 1

/-- Two spellings of one line, in pitches and in octaves. -/
theorem isRespelling_inDMinor : (inDMinor "8( Cb/Fb - ) B#").IsRespelling (inDMinor "8( B_1/E - ) C^1") := by
  have hflat : Notation.parse "8( Cb/Fb - ) B#" =
      .ok [⟨[⟨.c, -1, 0⟩, ⟨.f, -1, 0⟩], .ofFloat 1⟩, ⟨[⟨.b, 1, 0⟩], .ofFloat 1⟩] := by decide +kernel
  have hplain : Notation.parse "8( B_1/E - ) C^1" =
      .ok [⟨[⟨.b, 0, -1⟩, ⟨.e, 0, 0⟩], .ofFloat 1⟩, ⟨[⟨.c, 0, 1⟩], .ofFloat 1⟩] := by decide +kernel
  exact ⟨rfl, .cons ⟨rfl, _, _, hflat, hplain, by decide +kernel⟩ .nil⟩

/-- Of these spellings only one has letters and accidentals that a key change looks for. -/
theorem compile_of_isRespelling_inDMinor :
    (inDMinor "8( Cb/Fb - ) B#").compile false =
      .ok ⟨"Untitled", 120, 96, [⟨[⟨[⟨.c, 1, 0⟩, ⟨.f, 1, 0⟩], .ofFloat 0.5⟩, ⟨[⟨.e, -1, 1⟩], .ofFloat 0.5⟩,
        ⟨[⟨.c, 1, 0⟩, ⟨.f, 1, 0⟩], .ofFloat 0.5⟩, ⟨[⟨.e, -1, 1⟩], .ofFloat 0.5⟩], 5, 64⟩]⟩ := by
  rw [compile_of_isRespelling isRespelling_inDMinor]
  decide +kernel

end Score

end Melody
