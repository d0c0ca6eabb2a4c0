import Melody.Proofs.InPlace
import Melody.Proofs.Scale.Modulation
import Melody.Score

/-!
# Pairs of keys that cannot be used

A change of key needs two scales of one size whose degrees are not too far apart, and it must not move a pitch
out of the range of octaves. The scales are looked at once for each track, and not at all for a song that has
none: such a song can be moved between any two keys.

## The architecture

* **`exists_shiftsTo_iff`**: when there is a table between two scales.
* **`hit?`** is how far a pitch is moved, and **`exists_shifted_iff`** says when it can be.
* **`IsUsable`** puts both together, for a track by **`Track.exists_modulated_iff`** and for a song by
  **`Song.exists_modulated_iff`**, where a song without tracks is the exception.
* **`Score.compile_eq_modulated`** finds the change of key in a score.
* **`modulate_succeeds_iff`** puts this together.
-/

namespace Melody

open Outcome

namespace Scale

variable {source dest : Scale} {table : ShiftTable}

/-! ## Tables -/

/-- The table of shifts can be made exactly if every distance is in range. Induction over the pairs of
degrees. -/
theorem exists_foldlM_addShift_iff {moves : List (Int32 × Int32)} {t : ShiftTable} :
    (∃ t', moves.foldlM (fun t move => addShift t move.1 move.2) t = .ok t') ↔
      ∀ move ∈ moves, IsWord (distance move) := by
  -- move by move: the table only grows, and never keeps a move from being added
  induction moves generalizing t with
  | nil => exact iff_of_true ⟨t, rfl⟩ nofun
  | cons move rest ih =>
    rw [List.forall_mem_cons, List.foldlM_cons]
    constructor
    · rintro ⟨t', ht'⟩
      obtain ⟨t₁, hfirst, hrest⟩ := bind_eq_ok_iff.1 ht'
      obtain ⟨delta, hdelta, -⟩ := addShift_eq_ok_iff.1 hfirst
      exact ⟨exists_narrow_eq_ok_iff.1 ⟨delta, narrow_eq_ok_iff.2 hdelta⟩, ih.1 ⟨t', hrest⟩⟩
    · rintro ⟨hmove, hrest⟩
      obtain ⟨delta, hdelta⟩ := exists_narrow_eq_ok_iff.2 hmove
      have hfirst := (addShift_eq_ok_iff (t := t)).2 ⟨delta, narrow_eq_ok_iff.1 hdelta, rfl⟩
      obtain ⟨t', ht'⟩ := ih.2 hrest
      exact ⟨t', bind_eq_ok_iff.2 ⟨_, hfirst, ht'⟩⟩

theorem exists_shiftsTo_iff :
    (∃ table, source.shiftsTo dest = .ok table) ↔ source.size = dest.size ∧
      ∀ move ∈ source.degrees.zip dest.degrees, IsWord (distance move) := by
  simp only [shiftsTo_eq_ok_iff, exists_and_left, exists_foldlM_addShift_iff]

/-- Scales of two sizes are refused, with both sizes in the error. -/
theorem shiftsTo_of_size_ne (h : source.size ≠ dest.size) :
    source.shiftsTo dest = .error (.scaleSizeMismatch source.size dest.size) := by
  rw [shiftsTo, if_pos h]

/-! ## Pitches -/

/-- How far a pitch is moved: as far as the last degree that leaves its class. -/
def hit? (source dest : Scale) (p : Pitch) : Option Int :=
  ((source.degrees.zip dest.degrees).filter (leaves p.residue)).getLast?.map distance

/-- The table between two scales moves a pitch as far as the last move of its class. -/
theorem shifted_eq_hit? (htable : source.shiftsTo dest = .ok table) (p : Pitch) :
    p.shifted table =
      match source.hit? dest p with
      | some d => Pitch.canonical (p.value + d)
      | none => .ok p := by
  rw [hit?, ← get?_shiftsTo htable, Pitch.shifted]
  cases table.get? p.residue with
  | none => rfl
  | some delta => rfl

/-- A pitch can be shifted exactly if its new octave is in range; a pitch that is not hit stays. -/
theorem exists_shifted_iff (htable : source.shiftsTo dest = .ok table) (p : Pitch) :
    (∃ q, p.shifted table = .ok q) ↔
      ∀ d, source.hit? dest p = some d → IsWord ((p.value + d) / octaveWidth) := by
  rw [shifted_eq_hit? htable]
  -- a pitch that nothing moves stays as it is, and that never fails
  cases source.hit? dest p with
  | none =>
    refine iff_of_true ⟨p, rfl⟩ ?_
    intro d hd
    cases hd
  | some distance =>
    show (∃ q, Pitch.canonical (p.value + distance) = .ok q) ↔ _
    rw [Pitch.exists_canonical_eq_ok_iff]
    constructor
    · intro h d hd
      rwa [← Option.some.inj hd]
    · intro h
      exact h _ rfl

/-- Two scales between which some pitches can be moved. -/
structure IsUsable (source dest : Scale) (pitches : List Pitch) : Prop where
  size : source.size = dest.size
  distances : ∀ move ∈ source.degrees.zip dest.degrees, IsWord (distance move)
  octaves : ∀ p ∈ pitches, ∀ d, source.hit? dest p = some d → IsWord ((p.value + d) / octaveWidth)

end Scale

/-! ## Tracks and songs -/

def Track.pitches (t : Track) : List Pitch := t.chords.flatMap (·.pitches)

/-- A track can be modulated exactly if the scales are usable for its pitches. -/
theorem Track.exists_modulated_iff {source dest : Scale} {t : Track} :
    (∃ u, t.modulated source dest = .ok u) ↔ source.IsUsable dest t.pitches := by
  -- once there is a table, only the octaves of the moved pitches matter
  have hmoved {table : ShiftTable} (htable : source.shiftsTo dest = .ok table) :
      (∃ u, t.mapChords (·.shifted table) = .ok u) ↔ ∀ p ∈ t.pitches, ∀ d,
        source.hit? dest p = some d → IsWord ((p.value + d) / octaveWidth) := by
    simp only [exists_mapChords_eq_ok_iff, Chord.shifted, Chord.exists_mapPitches_eq_ok_iff,
      Scale.exists_shifted_iff htable, pitches, List.mem_flatMap, forall_exists_index, and_imp]
    exact ⟨fun h p c hc hp => h c hc p hp, fun h c hc p hp => h p c hc hp⟩
  constructor
  · rintro ⟨u, hu⟩
    obtain ⟨table, htable, hu⟩ := modulated_eq_ok_iff.1 hu
    obtain ⟨hsize, hdistances⟩ := Scale.exists_shiftsTo_iff.1 ⟨table, htable⟩
    exact ⟨hsize, hdistances, (hmoved htable).1 ⟨u, hu⟩⟩
  · intro h
    obtain ⟨table, htable⟩ := Scale.exists_shiftsTo_iff.2 ⟨h.size, h.distances⟩
    obtain ⟨u, hu⟩ := (hmoved htable).2 h.octaves
    exact ⟨u, modulated_eq_ok_iff.2 ⟨table, htable, hu⟩⟩

namespace Song

variable {source dest : Scale} {s : Song}

def pitches (s : Song) : List Pitch := s.tracks.flatMap (·.pitches)

/-- A key pair that is usable for each track is so for the song; a song without tracks asks for nothing. -/
theorem exists_modulated_iff :
    (∃ u, s.modulated source dest = .ok u) ↔ s.tracks = [] ∨ source.IsUsable dest s.pitches := by
  rw [modulated, exists_mapTracks_eq_ok_iff]
  simp only [Track.exists_modulated_iff]
  constructor
  · intro h
    cases htracks : s.tracks with
    | nil => exact .inl rfl
    | cons first rest =>
      -- the first track has looked at the scales
      have hfirst := h first (by rw [htracks]; exact List.mem_cons_self)
      refine .inr ⟨hfirst.size, hfirst.distances, ?_⟩
      intro p hp
      obtain ⟨t, ht, hp⟩ := List.mem_flatMap.1 hp
      exact (h t ht).octaves p hp
  · rintro (hnone | h) t ht
    · rw [hnone] at ht
      cases ht
    · exact ⟨h.size, h.distances, fun p hp => h.octaves p (List.mem_flatMap.2 ⟨t, ht, hp⟩)⟩

theorem modulated_of_size_ne (htracks : s.tracks ≠ []) (h : source.size ≠ dest.size) :
    s.modulated source dest = .error (.scaleSizeMismatch source.size dest.size) := by
  obtain ⟨first, rest, hs⟩ := List.exists_cons_of_ne_nil htracks
  rw [modulated, mapTracks, hs, List.mapM_cons, Track.modulated, Scale.shiftsTo_of_size_ne h]
  rfl

/-- A song without tracks is left as it is, whatever the scales are. -/
theorem modulated_of_tracks_eq_nil (h : s.tracks = []) : s.modulated source dest = .ok s := by
  rw [modulated, mapTracks_eq_ok_iff, h]
  exact ⟨rfl, by rw [← h]⟩

end Song

/-! ## Scores -/

namespace Score

variable {score : Score} {strict : Bool} {tracks : List Track} {keys : Modulation} {source dest : Scale}

/-- The song of a score before it is moved. -/
def unmoved (score : Score) (tracks : List Track) : Song :=
  { Song.blank score.tempo score.ticksPerQuarter with name := score.name.getD "Untitled", tracks }

/-- A score with a modulation is compiled by building its tracks, modulating and then transposing the song. -/
theorem compile_eq_modulated (htracks : score.tracks.mapM (buildTrack strict) = .ok tracks)
    (hkeys : score.modulation = some keys) (hsource : keys.source.scale = .ok source)
    (hdest : keys.dest.scale = .ok dest) :
    score.compile strict =
      (score.unmoved tracks).modulated source dest >>= fun song => song.transposed score.transposition := by
  rw [compile, htracks, hkeys]
  dsimp only [bind, Except.bind]
  rw [hsource, hdest]
  rfl

/-- A score that asks for a move from C major to its triad. -/
def toTriad (tracks : List TrackSpec) : Score :=
  ⟨none, 120, 120, tracks, some ⟨.mode "C" "major", .pitches "C E G"⟩, 0⟩

end Score

namespace Song

/-- **A pair of keys that cannot be used is refused by every song that has a track.** A song can be moved
from one key into another when the scales are of one size, no degree is too far from its match, and every
pitch that is hit stays within the octaves. The sizes are looked at first. A song without tracks is not asked,
and so can be moved between any two keys. All this holds of the change of key in a score. -/
theorem modulate_succeeds_iff (source dest : Scale) :
    (∀ s : Song,
      (((modulate source dest).on s).1 = .ok () ↔ s.tracks = [] ∨ source.IsUsable dest s.pitches) ∧
      (s.tracks ≠ [] → source.size ≠ dest.size →
        (modulate source dest).on s = (.error (.scaleSizeMismatch source.size dest.size), s)) ∧
      (s.tracks = [] → (modulate source dest).on s = (.ok (), s))) ∧
    ∀ (score : Score) (strict : Bool) (tracks : List Track) (keys : Modulation),
      score.tracks.mapM (Score.buildTrack strict) = .ok tracks → score.modulation = some keys →
      keys.source.scale = .ok source → keys.dest.scale = .ok dest →
      score.compile strict = (score.unmoved tracks).modulated source dest >>=
        (fun song => song.transposed score.transposition) ∧
      ((∃ song, (score.unmoved tracks).modulated source dest = .ok song) ↔
        tracks = [] ∨ source.IsUsable dest (score.unmoved tracks).pitches) ∧
      (tracks ≠ [] → source.size ≠ dest.size →
        score.compile strict = .error (.scaleSizeMismatch source.size dest.size)) ∧
      (tracks = [] → score.compile strict = .ok (score.unmoved [])) := by
  refine ⟨?_, ?_⟩
  · intro s
    refine ⟨?_, ?_, ?_⟩
    · rw [(replaces_modulate source dest).succeeds_iff, exists_modulated_iff]
    · intro htracks hsize
      exact (replaces_modulate source dest).on_of_error (modulated_of_size_ne htracks hsize)
    · intro htracks
      exact (replaces_modulate source dest).on_of_ok (modulated_of_tracks_eq_nil htracks)
  · intro score strict tracks keys htracks hkeys hsource hdest
    -- once its tracks are built, a score is a song
    have hcompile := Score.compile_eq_modulated htracks hkeys hsource hdest
    refine ⟨hcompile, exists_modulated_iff, ?_, ?_⟩
    · intro hne hsize
      rw [hcompile, modulated_of_size_ne hne hsize]
      rfl
    · rintro rfl
      rw [hcompile, modulated_of_tracks_eq_nil rfl]
      rfl

/-- No song with a track can be moved from C major to its triad. -/
theorem modulate_succeeds_iff_triad :
    (Score.toTriad [⟨"C", 5, 64, 1, 0, none⟩]).compile true = .error (.scaleSizeMismatch 7 3) ∧
      ∀ s : Song, s.tracks ≠ [] →
        (modulate ⟨[0, 2, 4, 5, 7, 9, 11]⟩ ⟨[0, 4, 7]⟩).on s = (.error (.scaleSizeMismatch 7 3), s) := by
  have htracks : (Score.toTriad [⟨"C", 5, 64, 1, 0, none⟩]).tracks.mapM (Score.buildTrack true) =
      .ok [⟨[⟨[⟨.c, 0, 0⟩], .ofFloat 1⟩], 5, 64⟩] := by decide +kernel
  have hsource : (ScaleSpec.mode "C" "major").scale = .ok ⟨[0, 2, 4, 5, 7, 9, 11]⟩ := by decide +kernel
  have hdest : (ScaleSpec.pitches "C E G").scale = .ok ⟨[0, 4, 7]⟩ := by decide +kernel
  have hsizes : (⟨[0, 2, 4, 5, 7, 9, 11]⟩ : Scale).size ≠ (⟨[0, 4, 7]⟩ : Scale).size := by decide
  obtain ⟨hsong, hscore⟩ := modulate_succeeds_iff ⟨[0, 2, 4, 5, 7, 9, 11]⟩ ⟨[0, 4, 7]⟩
  obtain ⟨-, -, hcompile, -⟩ := hscore _ true _ _ htracks rfl hsource hdest
  refine ⟨hcompile (List.cons_ne_nil _ _) hsizes, ?_⟩
  intro s htracks
  exact (hsong s).2.1 htracks hsizes

/-- The same pair of keys is refused neither by a song nor by a score that has no tracks. -/
theorem modulate_blank_triad :
    (⟨[0, 2, 4, 5, 7, 9, 11]⟩ : Scale).size ≠ (⟨[0, 4, 7]⟩ : Scale).size ∧
      (modulate ⟨[0, 2, 4, 5, 7, 9, 11]⟩ ⟨[0, 4, 7]⟩).on (blank 120 120) = (.ok (), blank 120 120) ∧
      (Score.toTriad []).compile true = .ok (blank 120 120) :=
  ⟨by decide, rfl, by decide +kernel⟩

end Song

end Melody
