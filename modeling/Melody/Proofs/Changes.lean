import Melody.Proofs.Outcome
import Melody.Song

/-!
# Changes that reach every pitch

A change of a chord, a track or a song is a change of each of its pitches, chords or tracks, and nothing else
about it changes. One lemma for each layer says so, and one says when the change can be made; none of the
changes has to be opened again.

Nor does it matter whether the lengths are changed before or after, or the chords repeated
(`Track.mapChords_resized`, `Track.mapChords_repeated`).
-/

namespace Melody

open Outcome

/-- A change of a chord is a change of each of its pitches, and leaves the length. -/
theorem Chord.mapPitches_eq_ok_iff {ε : Type} {f : Pitch → Except ε Pitch} {c d : Chord} :
    c.mapPitches f = .ok d ↔ c.pitches.mapM f = .ok d.pitches ∧ d.length = c.length := by
  rw [mapPitches, bind_eq_ok_iff]
  constructor
  · rintro ⟨pitches, hpitches, hd⟩
    obtain rfl := pure_eq_ok_iff.1 hd
    exact ⟨hpitches, rfl⟩
  · rintro ⟨hpitches, hlength⟩
    refine ⟨d.pitches, hpitches, ?_⟩
    -- the record built from `c` is `d`, field by field
    rw [← hlength]
    rfl

theorem Chord.exists_mapPitches_eq_ok_iff {ε : Type} {f : Pitch → Except ε Pitch} {c : Chord} :
    (∃ d, c.mapPitches f = .ok d) ↔ ∀ p ∈ c.pitches, ∃ q, f p = .ok q := by
  rw [← exists_mapM_eq_ok_iff]
  constructor
  · rintro ⟨d, hd⟩
    exact ⟨d.pitches, (mapPitches_eq_ok_iff.1 hd).1⟩
  · rintro ⟨pitches, hpitches⟩
    exact ⟨⟨pitches, c.length⟩, mapPitches_eq_ok_iff.2 ⟨hpitches, rfl⟩⟩

/-- A chord fails for one of its pitches. -/
theorem Chord.exists_of_mapPitches_eq_error {ε : Type} {f : Pitch → Except ε Pitch} {c : Chord} {fault : ε}
    (h : c.mapPitches f = .error fault) : ∃ p ∈ c.pitches, f p = .error fault := by
  rw [mapPitches, bind_eq_error_iff] at h
  obtain hpitches | ⟨_, -, h⟩ := h
  · -- the change goes from left to right and stops at the pitch that fails
    obtain ⟨before, p, after, hc, -, hp⟩ := mapM_eq_error_iff.1 hpitches
    exact ⟨p, by rw [hc]; simp, hp⟩
  · exact absurd h pure_ne_error

/-- A change of a track is a change of each of its chords, and leaves octave and velocity. -/
theorem Track.mapChords_eq_ok_iff {f : Chord → Result Chord} {t u : Track} :
    t.mapChords f = .ok u ↔
      t.chords.mapM f = .ok u.chords ∧ u.octave = t.octave ∧ u.velocity = t.velocity := by
  rw [mapChords, bind_eq_ok_iff]
  constructor
  · rintro ⟨chords, hchords, hu⟩
    obtain rfl := pure_eq_ok_iff.1 hu
    exact ⟨hchords, rfl, rfl⟩
  · rintro ⟨hchords, hoctave, hvelocity⟩
    refine ⟨u.chords, hchords, ?_⟩
    rw [← hoctave, ← hvelocity]
    rfl

theorem Track.exists_mapChords_eq_ok_iff {f : Chord → Result Chord} {t : Track} :
    (∃ u, t.mapChords f = .ok u) ↔ ∀ c ∈ t.chords, ∃ d, f c = .ok d := by
  rw [← exists_mapM_eq_ok_iff]
  constructor
  · rintro ⟨u, hu⟩
    exact ⟨u.chords, (mapChords_eq_ok_iff.1 hu).1⟩
  · rintro ⟨chords, hchords⟩
    exact ⟨{ t with chords }, mapChords_eq_ok_iff.2 ⟨hchords, rfl, rfl⟩⟩

/-- A track fails for one of its chords. -/
theorem Track.exists_of_mapChords_eq_error {f : Chord → Result Chord} {t : Track} {fault : Error}
    (h : t.mapChords f = .error fault) : ∃ c ∈ t.chords, f c = .error fault := by
  rw [mapChords, bind_eq_error_iff] at h
  obtain hchords | ⟨_, -, h⟩ := h
  · obtain ⟨before, c, after, ht, -, hc⟩ := mapM_eq_error_iff.1 hchords
    exact ⟨c, by rw [ht]; simp, hc⟩
  · exact absurd h pure_ne_error

/-- A change of a song is a change of each of its tracks, and leaves name, tempo and resolution. -/
theorem Song.mapTracks_eq_ok_iff {f : Track → Result Track} {s u : Song} :
    s.mapTracks f = .ok u ↔ s.tracks.mapM f = .ok u.tracks ∧ u = { s with tracks := u.tracks } := by
  rw [mapTracks, bind_eq_ok_iff]
  constructor
  · rintro ⟨tracks, htracks, hu⟩
    obtain rfl := pure_eq_ok_iff.1 hu
    exact ⟨htracks, rfl⟩
  · rintro ⟨htracks, hu⟩
    exact ⟨u.tracks, htracks, pure_eq_ok_iff.2 hu.symm⟩

theorem Song.exists_mapTracks_eq_ok_iff {f : Track → Result Track} {s : Song} :
    (∃ u, s.mapTracks f = .ok u) ↔ ∀ t ∈ s.tracks, ∃ u, f t = .ok u := by
  rw [← exists_mapM_eq_ok_iff]
  constructor
  · rintro ⟨u, hu⟩
    exact ⟨u.tracks, (mapTracks_eq_ok_iff.1 hu).1⟩
  · rintro ⟨tracks, htracks⟩
    exact ⟨{ s with tracks }, mapTracks_eq_ok_iff.2 ⟨htracks, rfl⟩⟩

/-- A change of key is one table for all chords. -/
theorem Track.modulated_eq_ok_iff {source dest : Scale} {t u : Track} :
    t.modulated source dest = .ok u ↔
      ∃ table, source.shiftsTo dest = .ok table ∧ t.mapChords (·.shifted table) = .ok u := by
  rw [modulated, bind_eq_ok_iff]

/-! ## Lengths and repetitions -/

/-- The length of a chord plays no part in a change of its pitches. -/
theorem Chord.mapPitches_resized {ε : Type} (f : Pitch → Except ε Pitch) (c : Chord) (factor : Binary64) :
    (c.resized factor).mapPitches f = (c.mapPitches f).map (·.resized factor) := by
  rw [mapPitches, mapPitches]
  show (c.pitches.mapM f >>= _) = _
  cases c.pitches.mapM f with
  | error fault => rfl
  | ok pitches => rfl

namespace Track

/-- Lengths play no part in a change of pitches. -/
theorem mapChords_resized {f : Chord → Result Chord} {factor : Binary64}
    (hf : ∀ c : Chord, f (c.resized factor) = (f c).map (·.resized factor)) (t : Track) :
    (t.resized factor).mapChords f = (t.mapChords f).map (·.resized factor) := by
  have hchords := mapM_map_of_comm (l := t.chords) fun c _ => hf c
  rw [mapChords, mapChords]
  show ((t.chords.map (·.resized factor)).mapM f >>= _) = _
  rw [hchords]
  -- the chords fail or succeed alike, and the resizing comes behind
  cases t.chords.mapM f with
  | error fault => rfl
  | ok chords => rfl

/-- A number of copies that is not negative can be made of every track. -/
theorem repeated_of_nonneg {factor : Int32} (hfactor : 0 ≤ factor.toInt) (t : Track) :
    t.repeated factor = .ok { t with chords := (List.replicate factor.toInt.toNat t.chords).flatten } := by
  rw [repeated, if_neg (by omega)]

/-- A number of copies below zero is the one thing that repeating refuses. -/
theorem repeated_of_neg {factor : Int32} (hfactor : factor.toInt < 0) (t : Track) :
    t.repeated factor = .error (.negativeRepeat factor) := by
  rw [repeated, if_pos hfactor]

/-- Copies one behind the other are all that repeating makes. -/
theorem repeated_eq_ok_iff {t u : Track} {factor : Int32} :
    t.repeated factor = .ok u ↔ 0 ≤ factor.toInt ∧
      { t with chords := (List.replicate factor.toInt.toNat t.chords).flatten } = u := by
  by_cases hsign : factor.toInt < 0
  · rw [repeated_of_neg hsign]
    exact iff_of_false (fun h => by cases h) fun h => absurd h.1 (by omega)
  · rw [repeated_of_nonneg (by omega), Except.ok.injEq, and_iff_right (by omega)]

/-- All repetitions are changed, or fail, as the first one. -/
theorem mapChords_repeated {factor : Int32} (hfactor : 0 < factor.toInt) (f : Chord → Result Chord) (t : Track) :
    (t.repeated factor >>= (·.mapChords f)) = t.mapChords f >>= (·.repeated factor) := by
  have hchords := mapM_flatten_replicate (f := f) (l := t.chords) (n := factor.toInt.toNat) (by omega)
  have hrepeated := repeated_of_nonneg (Int.le_of_lt hfactor)
  rw [hrepeated]
  show (((List.replicate factor.toInt.toNat t.chords).flatten.mapM f) >>= _) = _
  rw [hchords, mapChords]
  -- both sides run over the chords once and then copy, or fail at the same chord
  simp only [hrepeated]
  cases t.chords.mapM f with
  | error fault => rfl
  | ok chords => rfl

end Track

end Melody
