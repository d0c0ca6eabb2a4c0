import Melody.Proofs.InPlace

/-!
# One track behind another

A track that is put behind another takes over its octave, and its pitches are moved by the difference. So they
sound where they sounded before, and it does not matter in which order more than two tracks are joined: the
pitches of the third may be moved once or twice, and come to the same spelling.

## The architecture

* **`above`** is how far the pitches have to be moved, and **`appended_eq_ok_iff`** says all that joining does.
  **`exists_appended_iff`** says when it can be done (**`CanFollow`**), and the only failure is an overflow
  (**`eq_pitchOverflow_of_appended`**).
* **`sounding`** is what there is to hear of a track in its octave. Moved pitches in the new octave sound like
  the pitches in the old one (**`Chord.sounding_of_isTransposed`**).
* **`Chord.isTransposed_of_isTransposed`**: of two transpositions of one chord the second is a transposition of
  the first. This makes joining associative (**`appended_assoc`**).
* **`joined_keeps_sounding`** puts this together.
-/

namespace Melody

open Outcome

/-! ## Transpositions of one chord -/

namespace Chord

variable {m n : Int} {c d e : Chord}

/-- A chord has one transposition by some semitones at most. -/
theorem rightUnique_isTransposed (n : Int) : Relator.RightUnique (IsTransposed n) := by
  rintro c ⟨ps, _⟩ ⟨qs, _⟩ ⟨rfl, hps⟩ ⟨rfl, hqs⟩
  obtain rfl : ps = qs := by
    refine List.right_unique_forall₂' ?_ hps hqs
    intro p q r hq hr
    exact Except.ok.inj (hq.symm.trans hr)
  rfl

/-- Two transpositions of one chord are as far apart as their distances. -/
theorem isTransposed_of_isTransposed (hd : c.IsTransposed m d) (he : c.IsTransposed n e) :
    d.IsTransposed (n - m) e := by
  refine ⟨he.length.trans hd.length.symm, forall₂_of_common hd.pitches he.pitches ?_⟩
  intro p q r hq hr
  have hsum : q.value + (n - m) = p.value + n := by
    rw [Pitch.value_of_canonical hq]
    omega
  rw [hsum, hr]

/-- What there is to hear of a chord in an octave. -/
def sounding (octave : Int32) (c : Chord) : List Int × Binary64 :=
  (c.pitches.map fun p => p.value + octaveWidth * octave.toInt, c.length)

/-- A chord that is moved by the difference of two octaves sounds in one as it did in the other. -/
theorem sounding_of_isTransposed {octave octave' : Int32}
    (h : c.IsTransposed (octaveWidth * (octave'.toInt - octave.toInt)) d) :
    c.sounding octave' = d.sounding octave := by
  -- what the transposition adds is what the track octave takes off
  have hpitches : c.pitches.map (fun p => p.value + octaveWidth * octave'.toInt) =
      d.pitches.map fun p => p.value + octaveWidth * octave.toInt := by
    refine map_eq_map_of_forall₂ (h.pitches.imp ?_)
    intro p q hq
    rw [Pitch.value_of_canonical hq]
    simp only [octaveWidth]
    omega
  rw [sounding, sounding, hpitches, h.length]

end Chord

/-! ## Joining -/

namespace Track

variable {a b c u : Track}

/-- How far the pitches of one track have to be moved to sound in the octave of another as in their own. -/
def above (b a : Track) : Int := octaveWidth * (b.octave.toInt - a.octave.toInt)

/-- What joining does: the settings and the chords of the first track stay, and those of the second are moved. -/
structure IsAppended (a b u : Track) : Prop where
  octave : u.octave = a.octave
  velocity : u.velocity = a.velocity
  chords : ∃ moved, u.chords = a.chords ++ moved ∧ List.Forall₂ (Chord.IsTransposed (b.above a)) b.chords moved

/-- The distance has a word, and so have the octaves of all moved pitches. -/
structure CanFollow (b a : Track) : Prop where
  distance : IsWord (b.above a)
  octaves : ∀ c ∈ b.chords, ∀ p ∈ c.pitches, IsWord ((p.value + b.above a) / octaveWidth)

/-- Joining in three steps: the distance of the octaves, the transposition, and the chords put behind. -/
theorem appended_eq_bind (a b : Track) :
    a.appended b = (narrow (b.above a) >>= fun shift =>
      b.transposed shift >>= fun moved => pure (a.extended moved.chords)) := by
  rw [appended, Int.mul_comm]
  rfl

/-- What joining makes: the distance must be a word, and the chords of the second track are transposed by it.
-/
theorem appended_eq_ok_iff : a.appended b = .ok u ↔ IsWord (b.above a) ∧ a.IsAppended b u := by
  rw [appended_eq_bind, bind_eq_ok_iff, ← exists_narrow_eq_ok_iff]
  constructor
  · rintro ⟨shift, hshift, h⟩
    obtain ⟨moved, hmoved, hu⟩ := bind_eq_ok_iff.1 h
    obtain rfl := pure_eq_ok_iff.1 hu
    have hchords := (transposed_eq_ok_iff.1 hmoved).chords
    -- the shift is a word, so it stands for the distance between the two track octaves
    rw [narrow_eq_ok_iff.1 hshift] at hchords
    exact ⟨⟨shift, hshift⟩, rfl, rfl, moved.chords, rfl, hchords⟩
  · rintro ⟨⟨shift, hshift⟩, hoctave, hvelocity, chords, hu, hchords⟩
    rw [← narrow_eq_ok_iff.1 hshift] at hchords
    refine ⟨shift, hshift, bind_eq_ok_iff.2 ⟨{ b with chords }, transposed_eq_ok_iff.2 ⟨rfl, rfl, hchords⟩, ?_⟩⟩
    rw [pure_eq_ok_iff, extended, ← hu, ← hoctave, ← hvelocity]

/-- When it can be made: besides the distance every moved pitch must have an octave. -/
theorem exists_appended_iff : (∃ u, a.appended b = .ok u) ↔ b.CanFollow a := by
  -- only the transposition of the second track can fail once the distance is a word
  have hmoved {shift : Int32} (hshift : narrow (b.above a) = .ok shift) :
      (∃ moved, b.transposed shift = .ok moved) ↔
        ∀ c ∈ b.chords, ∀ p ∈ c.pitches, IsWord ((p.value + b.above a) / octaveWidth) := by
    simp only [transposed, exists_mapChords_eq_ok_iff, Chord.transposed, Chord.exists_mapPitches_eq_ok_iff,
      Pitch.transposed, Pitch.moved, Pitch.exists_canonical_eq_ok_iff, narrow_eq_ok_iff.1 hshift]
  rw [appended_eq_bind]
  constructor
  · rintro ⟨u, hu⟩
    obtain ⟨shift, hshift, h⟩ := bind_eq_ok_iff.1 hu
    obtain ⟨moved, h, -⟩ := bind_eq_ok_iff.1 h
    exact ⟨exists_narrow_eq_ok_iff.1 ⟨shift, hshift⟩, (hmoved hshift).1 ⟨moved, h⟩⟩
  · intro h
    obtain ⟨shift, hshift⟩ := exists_narrow_eq_ok_iff.2 h.distance
    obtain ⟨moved, hb⟩ := (hmoved hshift).2 h.octaves
    exact ⟨_, bind_eq_ok_iff.2 ⟨shift, hshift, bind_eq_ok_iff.2 ⟨moved, hb, rfl⟩⟩⟩

theorem eq_pitchOverflow_of_transposed {t : Track} {delta : Int32} {fault : Error}
    (h : t.transposed delta = .error fault) : fault = .pitchOverflow := by
  obtain ⟨c, -, hc⟩ := exists_of_mapChords_eq_error h
  obtain ⟨p, -, hp⟩ := Chord.exists_of_mapPitches_eq_error hc
  exact Pitch.eq_pitchOverflow_of_canonical hp

theorem eq_pitchOverflow_of_appended {fault : Error} (h : a.appended b = .error fault) :
    fault = .pitchOverflow := by
  rw [appended_eq_bind, bind_eq_error_iff] at h
  obtain hshift | ⟨shift, -, h⟩ := h
  · exact eq_pitchOverflow_of_narrow hshift
  · obtain hmoved | ⟨_, -, h⟩ := bind_eq_error_iff.1 h
    · exact eq_pitchOverflow_of_transposed hmoved
    · exact absurd h pure_ne_error

/-- Tracks that cannot be joined overflow, and nothing else goes wrong with them. -/
theorem appended_eq_pitchOverflow_iff : a.appended b = .error .pitchOverflow ↔ ¬ b.CanFollow a := by
  rw [← exists_appended_iff]
  cases h : a.appended b with
  | ok u => exact iff_of_false nofun fun hnone => hnone ⟨u, rfl⟩
  | error fault =>
    rw [eq_pitchOverflow_of_appended h]
    exact iff_of_true rfl nofun

/-! ## What is heard -/

/-- What there is to hear of a track: its chords in its octave. -/
def sounding (t : Track) : List (List Int × Binary64) := t.chords.map (·.sounding t.octave)

/-- A track behind another: the settings are those of the first, its chords stand in front as they were, and
both sound as they did. -/
structure IsJoined (a b u : Track) : Prop where
  octave : u.octave = a.octave
  velocity : u.velocity = a.velocity
  front : u.chords.take a.size = a.chords
  sounding : u.sounding = a.sounding ++ b.sounding

/-- Joined tracks sound as they did: moving the pitches makes up for the change of the octave. -/
theorem IsAppended.isJoined (h : a.IsAppended b u) : a.IsJoined b u := by
  obtain ⟨moved, hu, hmoved⟩ := h.chords
  have hsounding : b.sounding = moved.map (·.sounding a.octave) :=
    map_eq_map_of_forall₂ (hmoved.imp fun c d => Chord.sounding_of_isTransposed)
  refine ⟨h.octave, h.velocity, ?_, ?_⟩
  · rw [hu]
    exact List.take_left
  · rw [sounding, h.octave, hu, List.map_append, hsounding, sounding]

/-! ## Three tracks -/

/-- The chords of the third track are moved once on one side and twice on the other, by the same in all. -/
theorem appended_assoc {ab bc left right : Track} (hab : a.appended b = .ok ab) (hleft : ab.appended c = .ok left)
    (hbc : b.appended c = .ok bc) (hright : a.appended bc = .ok right) : left = right := by
  obtain ⟨-, habOctave, habVelocity, bs, habChords, hbs⟩ := appended_eq_ok_iff.1 hab
  obtain ⟨-, hlOctave, hlVelocity, cs, hlChords, hcs⟩ := appended_eq_ok_iff.1 hleft
  obtain ⟨-, hbcOctave, -, cs', hbcChords, hcs'⟩ := appended_eq_ok_iff.1 hbc
  obtain ⟨-, hrOctave, hrVelocity, moved, hrChords, hmoved⟩ := appended_eq_ok_iff.1 hright
  -- what was moved for the second track still has to be moved for the first, like the second itself
  have hthird : List.Forall₂ (Chord.IsTransposed (b.above a)) cs' cs := by
    refine forall₂_of_common hcs' hcs ?_
    intro chord once twice honce htwice
    have hmore := Chord.isTransposed_of_isTransposed honce htwice
    rwa [show c.above ab - c.above b = b.above a by
      simp only [above, habOctave, octaveWidth]; omega] at hmore
  -- the other order moves both of them at once, by just that
  have hsame : moved = bs ++ cs := by
    rw [show bc.above a = b.above a by rw [above, above, hbcOctave], hbcChords] at hmoved
    exact List.right_unique_forall₂' (Chord.rightUnique_isTransposed _) hmoved (List.rel_append hbs hthird)
  have hchords : left.chords = right.chords := by
    rw [hlChords, habChords, hrChords, hsame, List.append_assoc]
  obtain ⟨leftChords, leftOctave, leftVelocity⟩ := left
  obtain ⟨rightChords, rightOctave, rightVelocity⟩ := right
  dsimp only at *
  rw [hchords, hlOctave, hlVelocity, habOctave, habVelocity, hrOctave, hrVelocity]

/-- **Joining keeps every note sounding where it sounded.** The first track stays as it is, in front and in its
settings, and the second sounds in the octave of the first as it did in its own. Two tracks can be joined
exactly if the distance between their octaves, in semitones, and the octaves of all moved pitches have words;
if not, nothing is appended. Of three tracks it does not matter which two are joined first. -/
theorem joined_keeps_sounding :
    (∀ a b u : Track, a.appended b = .ok u → a.IsJoined b u) ∧
    (∀ a b : Track,
      (a.appended b = .error .pitchOverflow ↔ ¬ b.CanFollow a) ∧
      ((appendTrack b).on a = (.error .pitchOverflow, a) ↔ ¬ b.CanFollow a) ∧
      (b.CanFollow a → ∃ u, a.appended b = .ok u ∧ (appendTrack b).on a = (.ok (), u))) ∧
    ∀ a b c ab bc left right : Track, a.appended b = .ok ab → ab.appended c = .ok left →
      b.appended c = .ok bc → a.appended bc = .ok right → left = right := by
  refine ⟨?_, ?_, ?_⟩
  · intro a b u hu
    exact (appended_eq_ok_iff.1 hu).2.isJoined
  · intro a b
    refine ⟨appended_eq_pitchOverflow_iff, ?_, ?_⟩
    · rw [(replaces_appendTrack b).on_eq_error_iff, appended_eq_pitchOverflow_iff]
    · intro h
      obtain ⟨u, hu⟩ := exists_appended_iff.2 h
      exact ⟨u, hu, (replaces_appendTrack b).on_of_ok hu⟩
  · intro a b c ab bc left right hab hleft hbc hright
    exact appended_assoc hab hleft hbc hright

/-- A track in the usual octave. -/
def ground : Track := ⟨[⟨[⟨.c, 0, 0⟩, ⟨.b, 1, -1⟩], .ofFloat 1⟩], 5, 64⟩

/-- A track as far above it as joining allows, with a rest. -/
def descant : Track := ⟨[⟨[⟨.e, -1, 1⟩], .ofFloat 2⟩, ⟨[], .ofFloat 1⟩], 178956975, 100⟩

/-- One more octave is too far, and so is one in which a moved pitch has no octave. -/
theorem joined_keeps_sounding_descant :
    (∃ u, ground.appended descant = .ok u ∧ ground.IsJoined descant u ∧
      u.chords.drop 1 = [⟨[⟨.e, -1, 178956971⟩], .ofFloat 2⟩, ⟨[], .ofFloat 1⟩]) ∧
    (appendTrack { descant with octave := 178956976 }).on ground = (.error .pitchOverflow, ground) ∧
    (appendTrack ⟨[⟨[⟨.b, 0, Int32.maxValue⟩], .ofFloat 1⟩], 6, 64⟩).on ground = (.error .pitchOverflow, ground) ∧
    ∃ ab bc left right, ground.appended descant = .ok ab ∧ ab.appended ground = .ok left ∧
      descant.appended ground = .ok bc ∧ ground.appended bc = .ok right ∧ left = right := by
  obtain ⟨hjoined, hfails, hassoc⟩ := joined_keeps_sounding
  have hab : ground.appended descant = .ok ⟨[⟨[⟨.c, 0, 0⟩, ⟨.b, 1, -1⟩], .ofFloat 1⟩,
      ⟨[⟨.e, -1, 178956971⟩], .ofFloat 2⟩, ⟨[], .ofFloat 1⟩], 5, 64⟩ := by decide +kernel
  have hleft : Track.appended ⟨[⟨[⟨.c, 0, 0⟩, ⟨.b, 1, -1⟩], .ofFloat 1⟩,
      ⟨[⟨.e, -1, 178956971⟩], .ofFloat 2⟩, ⟨[], .ofFloat 1⟩], 5, 64⟩ ground =
      .ok ⟨[⟨[⟨.c, 0, 0⟩, ⟨.b, 1, -1⟩], .ofFloat 1⟩, ⟨[⟨.e, -1, 178956971⟩], .ofFloat 2⟩, ⟨[], .ofFloat 1⟩,
        ⟨[⟨.c, 0, 0⟩, ⟨.c, 0, 0⟩], .ofFloat 1⟩], 5, 64⟩ := by decide +kernel
  -- the other way round the low track is moved down as far as it goes
  have hbc : descant.appended ground = .ok ⟨[⟨[⟨.e, -1, 1⟩], .ofFloat 2⟩, ⟨[], .ofFloat 1⟩,
      ⟨[⟨.c, 0, -178956970⟩, ⟨.c, 0, -178956970⟩], .ofFloat 1⟩], 178956975, 100⟩ := by decide +kernel
  have hright : ground.appended ⟨[⟨[⟨.e, -1, 1⟩], .ofFloat 2⟩, ⟨[], .ofFloat 1⟩,
      ⟨[⟨.c, 0, -178956970⟩, ⟨.c, 0, -178956970⟩], .ofFloat 1⟩], 178956975, 100⟩ =
      .ok ⟨[⟨[⟨.c, 0, 0⟩, ⟨.b, 1, -1⟩], .ofFloat 1⟩, ⟨[⟨.e, -1, 178956971⟩], .ofFloat 2⟩, ⟨[], .ofFloat 1⟩,
        ⟨[⟨.c, 0, 0⟩, ⟨.c, 0, 0⟩], .ofFloat 1⟩], 5, 64⟩ := by decide +kernel
  refine ⟨⟨_, hab, hjoined _ _ _ hab, rfl⟩, ?_, ?_, _, _, _, _, hab, hleft, hbc, hright,
    hassoc _ _ _ _ _ _ _ hab hleft hbc hright⟩
  · refine (hfails _ _).2.1.2 fun h => ?_
    exact absurd h.distance (by decide +kernel)
  · refine (hfails _ _).2.1.2 fun h => ?_
    exact absurd (h.octaves _ (List.mem_singleton.2 rfl) _ (List.mem_singleton.2 rfl)) (by decide +kernel)

end Track

end Melody
