import Melody.Proofs.Scale.KeyPairs
import Melody.Proofs.Timeline.Transposition

/-!
# Transpositions add up

A transposition adds to the value of every pitch and spells the sum canonically. How a pitch was spelled
before does not matter, and so two transpositions are one, and it makes no difference where in a score they
are asked for.

## The architecture

* **`Pitch.transposed_eq_ok_iff`**: what a pitch is transposed to, said by its value. The checked operators are
  the same (**`Pitch.isSum_plus`**, **`Pitch.isSum_minus`**), in place too (**`Pitch.on_assign`**).
* **`Track.transposed_of_isRaised`**: tracks that are some semitones apart become one track when the difference
  is made up. Two transpositions of one track are such tracks (**`Track.isRaised_of_transposed_transposed`**).
* **`TrackSpec.isRaised_build`**: they stay so when they are resized and repeated.
* **`Score.compile_raised`** puts this together for a score, and **`transpositions_add_up`** for all of it.
-/

namespace Melody

open Outcome Midi

/-! ## Pitches -/

namespace Pitch

variable {p q : Pitch} {n : Int32}

/-- A transposed pitch is the canonical one of its value. -/
theorem transposed_eq_ok_iff :
    p.transposed n = .ok q ↔ q.IsCanonical ∧ q.value = p.value + n.toInt :=
  canonical_eq_ok_iff_isCanonical

theorem exists_transposed_iff :
    (∃ q, p.transposed n = .ok q) ↔ IsWord ((p.value + n.toInt) / octaveWidth) :=
  exists_canonical_eq_ok_iff

/-- What a checked addition comes to: the canonical pitch of the sum or, if there is none, the overflow. -/
structure IsSum (p : Pitch) (delta : Int) (result : Except Overflow Pitch) : Prop where
  ok_iff : ∀ q, result = .ok q ↔ q.IsCanonical ∧ q.value = p.value + delta
  error_iff : ∀ o, result = .error o ↔
    o = ⟨p, delta⟩ ∧ ¬∃ q : Pitch, q.IsCanonical ∧ q.value = p.value + delta

/-- The checked operators make the canonical pitch of the sum, or report the pitch and the distance. -/
theorem isSum_offset (p : Pitch) (delta : Int) : p.IsSum delta (p.offset delta) := by
  rw [offset, moved]
  -- the sum has a canonical pitch, or there is none at all
  cases hmoved : canonical (p.value + delta) with
  | ok r =>
    obtain ⟨hcanonical, hvalue⟩ := canonical_eq_ok_iff_isCanonical.1 hmoved
    refine ⟨?_, ?_⟩
    · intro q
      rw [← canonical_eq_ok_iff_isCanonical, hmoved, Except.ok.injEq, Except.ok.injEq]
    · intro o
      exact iff_of_false (fun h => by cases h) fun h => h.2 ⟨r, hcanonical, hvalue⟩
  | error fault =>
    have hnone (q : Pitch) : ¬(q.IsCanonical ∧ q.value = p.value + delta) := by
      rw [← canonical_eq_ok_iff_isCanonical, hmoved]
      exact fun h => by cases h
    refine ⟨?_, ?_⟩
    · intro q
      exact iff_of_false (fun h => by cases h) (hnone q)
    · intro o
      rw [Except.error.injEq, eq_comm, and_iff_left (not_exists.2 hnone)]

theorem isSum_plus (p : Pitch) (n : Int32) : p.IsSum n.toInt (p.plus n) := p.isSum_offset n.toInt

theorem isSum_minus (p : Pitch) (n : Int32) : p.IsSum (-n.toInt) (p.minus n) := p.isSum_offset (-n.toInt)

/-- A new pitch that is assigned, or an overflow that leaves the old one. -/
def settled (old : Pitch) : Except Overflow Pitch → Except Overflow Unit × Pitch
  | .ok made => (.ok (), made)
  | .error o => (.error o, old)

/-- Assigning a checked result changes the pitch, or leaves it and reports the overflow. -/
theorem on_assign (f : Pitch → Except Overflow Pitch) (p : Pitch) : (assign f).on p = p.settled (f p) := by
  show (((ExceptT.mk (pure (f p)) >>= fun made => set made : Assignment).run).run p).run = _
  cases f p with
  | ok made => rfl
  | error o => rfl

end Pitch

/-! ## Tracks -/

variable {n : Int}

/-- Transposing a raised chord is transposing the chord by both distances. -/
theorem Chord.transposed_of_isRaised {c d : Chord} (h : c.IsRaised n d) {e e' : Int32}
    (he : e'.toInt = n + e.toInt) : d.transposed e = c.transposed e' := by
  have hpitches : d.pitches.mapM (·.transposed e) = c.pitches.mapM (·.transposed e') := by
    refine (mapM_eq_mapM (h.pitches.imp fun p q hpq => ?_)).symm
    rw [Pitch.transposed, Pitch.transposed, Pitch.moved, Pitch.moved, hpq, he, Int.add_assoc]
  rw [transposed, transposed, mapPitches, mapPitches, hpitches, h.length]

/-- Two transpositions of a chord differ by the difference of their distances. -/
theorem Chord.isRaised_of_transposed_transposed {a b : Int32} {c d e : Chord} (hd : c.transposed a = .ok d)
    (he : c.transposed b = .ok e) : d.IsRaised (b.toInt - a.toInt) e := by
  obtain ⟨hdpitches, hdlength⟩ := mapPitches_eq_ok_iff.1 hd
  obtain ⟨hepitches, helength⟩ := mapPitches_eq_ok_iff.1 he
  refine ⟨forall₂_of_mapM hdpitches hepitches ?_, helength.trans hdlength.symm⟩
  intro p _ q r hq hr
  rw [Pitch.value_of_canonical hq, Pitch.value_of_canonical hr]
  omega

theorem Chord.IsRaised.resized {c d : Chord} (h : c.IsRaised n d) (factor : Binary64) :
    (c.resized factor).IsRaised n (d.resized factor) := by
  refine ⟨h.pitches, ?_⟩
  show d.length.times factor = c.length.times factor
  rw [h.length]

namespace Track

variable {t u : Track}

/-- Tracks that are some semitones apart become one track when one of them is moved so much less, or fail alike. -/
theorem transposed_of_isRaised (h : t.IsRaised n u) {d d' : Int32} (hd : d'.toInt = n + d.toInt) :
    u.transposed d = t.transposed d' := by
  have hchords : u.chords.mapM (·.transposed d) = t.chords.mapM (·.transposed d') :=
    (mapM_eq_mapM (h.chords.imp fun c e hce => (Chord.transposed_of_isRaised hce hd).symm)).symm
  rw [transposed, transposed, mapChords, mapChords, hchords, h.octave, h.velocity]

/-- Transposing twice is transposing by the sum, as long as the sum is in range. The first transposition has
to succeed: it may fail where the sum does not. -/
theorem transposed_transposed {a b : Int32} (h : t.transposed a = .ok u)
    (hab : IsWord (a.toInt + b.toInt)) : u.transposed b = t.transposed (a + b) :=
  transposed_of_isRaised (isRaised_of_transposed h) (toInt_add_of_isWord hab)

/-- Two transpositions of a track differ by the difference of their distances. -/
theorem isRaised_of_transposed_transposed {a b : Int32} {v : Track} (hu : t.transposed a = .ok u)
    (hv : t.transposed b = .ok v) : u.IsRaised (b.toInt - a.toInt) v := by
  obtain ⟨huchords, huoctave, huvelocity⟩ := mapChords_eq_ok_iff.1 hu
  obtain ⟨hvchords, hvoctave, hvvelocity⟩ := mapChords_eq_ok_iff.1 hv
  refine ⟨forall₂_of_mapM huchords hvchords ?_, hvoctave.trans huoctave.symm,
    hvvelocity.trans huvelocity.symm⟩
  intro c _ d e hd he
  exact Chord.isRaised_of_transposed_transposed hd he

theorem IsRaised.resized (h : t.IsRaised n u) (factor : Binary64) :
    (t.resized factor).IsRaised n (u.resized factor) := by
  refine ⟨?_, h.octave, h.velocity⟩
  show List.Forall₂ _ (t.chords.map _) (u.chords.map _)
  rw [List.forall₂_map_left_iff, List.forall₂_map_right_iff]
  exact h.chords.imp fun c d hcd => hcd.resized factor

/-- A track that is raised stays so when it is repeated. Induction over the number of copies. -/
theorem IsRaised.repeated (h : t.IsRaised n u) {factor : Int32} {t' u' : Track}
    (ht : t.repeated factor = .ok t') (hu : u.repeated factor = .ok u') : t'.IsRaised n u' := by
  obtain ⟨-, rfl⟩ := repeated_eq_ok_iff.1 ht
  obtain ⟨-, rfl⟩ := repeated_eq_ok_iff.1 hu
  refine ⟨?_, h.octave, h.velocity⟩
  show List.Forall₂ _ (List.replicate factor.toInt.toNat t.chords).flatten
    (List.replicate factor.toInt.toNat u.chords).flatten
  induction factor.toInt.toNat with
  | zero => exact .nil
  | succ k ih => exact List.rel_append h.chords ih

/-- Transposing and resizing may be done in either order. -/
theorem transposed_resized (t : Track) (factor : Binary64) (delta : Int32) :
    (t.resized factor).transposed delta = (t.transposed delta).map (·.resized factor) :=
  mapChords_resized (fun c => c.mapPitches_resized _ factor) t

/-- So may transposing and repeating, if at least one copy is left: repeating a track no times would hide that
a pitch cannot be transposed. -/
theorem transposed_repeated {factor : Int32} (hfactor : 1 ≤ factor.toInt) (t : Track) (delta : Int32) :
    (t.repeated factor >>= (·.transposed delta)) = t.transposed delta >>= (·.repeated factor) :=
  mapChords_repeated hfactor _ t

end Track

/-! ## Scores -/

/-- The description with some semitones more. -/
def TrackSpec.raised (spec : TrackSpec) (n : Int32) : TrackSpec :=
  { spec with transposition := spec.transposition + n }

namespace TrackSpec

variable {spec : TrackSpec} {n : Int32} {t u : Track} {strict : Bool}

/-- A track is built in four steps: the line is read, transposed, resized if a factor is given, and repeated.
What is known of a track that was built is obtained through this. -/
theorem build_eq_ok_iff :
    spec.build = .ok t ↔ ∃ read moved,
      Track.ofNotation spec.line spec.octave spec.velocity = .ok read ∧
      read.transposed spec.transposition = .ok moved ∧
      (match spec.resizing with
        | some factor => moved.resized (.ofFloat factor)
        | none => moved).repeated spec.repetitions = .ok t := by
  rw [build, bind_eq_ok_iff]
  refine exists_congr fun read => ?_
  exact (and_congr_right fun _ => bind_eq_ok_iff).trans exists_and_left.symm

/-- The tracks of two descriptions that differ in the transposition differ as much. -/
theorem isRaised_build (hword : IsWord (spec.transposition.toInt + n.toInt)) (ht : spec.build = .ok t)
    (hu : (spec.raised n).build = .ok u) : t.IsRaised n.toInt u := by
  obtain ⟨read, moved, hread, hmoved, ht⟩ := build_eq_ok_iff.1 ht
  obtain ⟨read', moved', hread', hmoved', hu⟩ := build_eq_ok_iff.1 hu
  obtain rfl : read = read' := Except.ok.inj (hread.symm.trans hread')
  -- both are transpositions of the line, and the other two steps keep the difference
  have hraised : moved.IsRaised n.toInt moved' := by
    have hdifference := Track.isRaised_of_transposed_transposed hmoved hmoved'
    rwa [raised, toInt_add_of_isWord hword, Int.add_comm, Int.add_sub_cancel] at hdifference
  refine Track.IsRaised.repeated ?_ ht hu
  show Track.IsRaised _ _ (match spec.resizing with
    | some factor => moved'.resized (.ofFloat factor)
    | none => moved')
  cases spec.resizing with
  | some factor => exact hraised.resized (.ofFloat factor)
  | none => exact hraised

/-- The check of the notation in strict mode only comes before the building. -/
theorem build_of_buildTrack (h : Score.buildTrack strict spec = .ok t) : spec.build = .ok t := by
  cases strict with
  | false => exact h
  | true =>
    obtain ⟨_, _, h⟩ := bind_eq_ok_iff.1 h
    exact h

end TrackSpec

/-- Songs whose tracks are some semitones apart become one song when the difference is made up. -/
theorem Song.transposed_of_isRaised {s u : Song} (h : List.Forall₂ (Track.IsRaised n) s.tracks u.tracks)
    (hu : u = { s with tracks := u.tracks }) {d d' : Int32} (hd : d'.toInt = n + d.toInt) :
    u.transposed d = s.transposed d' := by
  have htracks : u.tracks.mapM (·.transposed d) = s.tracks.mapM (·.transposed d') :=
    (mapM_eq_mapM (h.imp fun t v htv => (Track.transposed_of_isRaised htv hd).symm)).symm
  rw [transposed, transposed, mapTracks, mapTracks, htracks, hu]

namespace Score

variable {score : Score} {n : Int32} {strict : Bool}

/-- The score with some semitones more for the whole song. -/
def raised (score : Score) (n : Int32) : Score :=
  { score with transposition := score.transposition + n }

/-- The score with some semitones more for every track. -/
def tracksRaised (score : Score) (n : Int32) : Score :=
  { score with tracks := score.tracks.map (·.raised n) }

/-- Whether every track of the score can be built. -/
def Builds (score : Score) (strict : Bool) : Prop :=
  ∃ tracks, score.tracks.mapM (buildTrack strict) = .ok tracks

/-- Without a modulation a score is compiled by building its tracks and transposing the song. -/
theorem compile_of_tracks {tracks : List Track} (htracks : score.tracks.mapM (buildTrack strict) = .ok tracks)
    (hkeys : score.modulation = none) :
    score.compile strict = (score.unmoved tracks).transposed score.transposition := by
  rw [compile, htracks, hkeys]
  rfl

/-- Where all tracks can be built with the semitones and without them, they may as well be asked for last. -/
theorem compile_raised (hkeys : score.modulation = none)
    (hscore : IsWord (score.transposition.toInt + n.toInt))
    (hspecs : ∀ spec ∈ score.tracks, IsWord (spec.transposition.toInt + n.toInt))
    (hbuilds : score.Builds strict) (hraised : (score.tracksRaised n).Builds strict) :
    (score.raised n).compile strict = (score.tracksRaised n).compile strict := by
  obtain ⟨tracks, htracks⟩ := hbuilds
  obtain ⟨tracks', htracks'⟩ := hraised
  -- track by track, the second score is raised above the first
  have hapart : List.Forall₂ (Track.IsRaised n.toInt) tracks tracks' := by
    have hspecs' : score.tracks.mapM (buildTrack strict ∘ (·.raised n)) = .ok tracks' := by
      rw [← List.mapM_map]
      exact htracks'
    refine forall₂_of_mapM htracks hspecs' ?_
    intro spec hspec t u ht hu
    exact TrackSpec.isRaised_build (hspecs spec hspec) (TrackSpec.build_of_buildTrack ht)
      (TrackSpec.build_of_buildTrack hu)
  have hsum : (score.transposition + n).toInt = n.toInt + score.transposition.toInt := by
    rw [toInt_add_of_isWord hscore, Int.add_comm]
  calc (score.raised n).compile strict
      = (score.unmoved tracks).transposed (score.transposition + n) := compile_of_tracks htracks hkeys
    _ = (score.unmoved tracks').transposed score.transposition :=
        (Song.transposed_of_isRaised hapart rfl hsum).symm
    _ = (score.tracksRaised n).compile strict := (compile_of_tracks htracks' hkeys).symm

/-- **Transpositions add up.** A pitch is transposed to the canonical pitch of the sum of its value and the
semitones, and cannot be if the octave of that has no word. The checked operators do the same, subtraction with
the opposite of the semitones even for the least word. So two transpositions of a track are one, a
transposition can be made before or after the lengths are changed or the track is repeated, and a score
without a change of key asks for it in the song or in every track with the same result. -/
theorem transpositions_add_up :
    (∀ (p : Pitch) (n : Int32),
      ((∃ q, p.transposed n = .ok q) ↔ IsWord ((p.value + n.toInt) / octaveWidth)) ∧
      (∀ q, p.transposed n = .ok q ↔ q.IsCanonical ∧ q.value = p.value + n.toInt) ∧
      p.IsSum n.toInt (p.plus n) ∧ p.IsSum (-n.toInt) (p.minus n) ∧
      (Pitch.raise n).on p = p.settled (p.plus n) ∧ (Pitch.lower n).on p = p.settled (p.minus n)) ∧
    (∀ (t u : Track) (a b : Int32), t.transposed a = .ok u → IsWord (a.toInt + b.toInt) →
      u.transposed b = t.transposed (a + b)) ∧
    (∀ (t : Track) (n : Int32),
      (∀ factor, (t.resized factor).transposed n = (t.transposed n).map (·.resized factor)) ∧
      ∀ factor : Int32, 1 ≤ factor.toInt →
        (t.repeated factor >>= (·.transposed n)) = t.transposed n >>= (·.repeated factor)) ∧
    ∀ (score : Score) (n : Int32) (strict : Bool), score.modulation = none →
      IsWord (score.transposition.toInt + n.toInt) →
      (∀ spec ∈ score.tracks, IsWord (spec.transposition.toInt + n.toInt)) →
      score.Builds strict → (score.tracksRaised n).Builds strict →
      (score.raised n).compile strict = (score.tracksRaised n).compile strict := by
  -- the pitch, the track with itself, the track with its other operations, and the score
  refine ⟨?_, ?_, ?_, ?_⟩
  · intro p n
    exact ⟨Pitch.exists_transposed_iff, fun q => Pitch.transposed_eq_ok_iff, p.isSum_plus n, p.isSum_minus n,
      Pitch.on_assign _ p, Pitch.on_assign _ p⟩
  · intro t u a b hu hab
    exact Track.transposed_transposed hu hab
  · intro t n
    exact ⟨fun factor => t.transposed_resized factor n,
      fun factor hfactor => Track.transposed_repeated hfactor t n⟩
  · intro score n strict hkeys hscore hspecs hbuilds hraised
    exact compile_raised hkeys hscore hspecs hbuilds hraised

/-- Two tracks, one of them resized and repeated, to be played two semitones up. -/
def prelude : Score where
  name := none
  tempo := 120
  ticksPerQuarter := 96
  tracks := [⟨"8( C/Eb - ) .", 5, 64, 2, 3, some 0.5⟩, ⟨"B#", 4, 100, 1, -7, none⟩]
  modulation := none
  transposition := 2

/-- The prelude more than an octave down, by the song or by its tracks. A track is taken to the end of the words
and one semitone further back, and the least word is taken away from a pitch and then from a higher one. -/
theorem transpositions_add_up_prelude :
    (prelude.raised (-14)).compile true = (prelude.tracksRaised (-14)).compile true ∧
    (∃ t u, Track.ofNotation "C/Db^3 ." 5 64 = .ok t ∧ t.transposed Int32.maxValue = .ok u ∧
      u.transposed Int32.minValue = t.transposed (-1) ∧
      (t.repeated 3 >>= (·.transposed (-1))) = t.transposed (-1) >>= (·.repeated 3)) ∧
    (⟨.c, 0, Int32.minValue⟩ : Pitch).minus Int32.minValue = .ok ⟨.a, -1, -1968526678⟩ ∧
    (Pitch.lower Int32.minValue).on ⟨.b, 0, Int32.maxValue⟩ =
      (.error ⟨⟨.b, 0, Int32.maxValue⟩, 2147483648⟩, ⟨.b, 0, Int32.maxValue⟩) := by
  obtain ⟨hpitches, htracks, hcommute, hscores⟩ := transpositions_add_up
  refine ⟨?_, ?_, ?_, ?_⟩
  · -- a track that is repeated and resized, and one in another octave
    have hbuilds : prelude.tracks.mapM (buildTrack true) = .ok
        [⟨[⟨[⟨.e, -1, 0⟩, ⟨.f, 1, 0⟩], .ofFloat 0.5⟩, ⟨[], .ofFloat 0.5⟩, ⟨[⟨.e, -1, 0⟩, ⟨.f, 1, 0⟩], .ofFloat 0.5⟩,
          ⟨[], .ofFloat 0.5⟩], 5, 64⟩, ⟨[⟨[⟨.f, 0, 0⟩], .ofFloat 1⟩], 4, 100⟩] := by decide +kernel
    have hraised : (prelude.tracksRaised (-14)).tracks.mapM (buildTrack true) = .ok
        [⟨[⟨[⟨.c, 1, -1⟩, ⟨.e, 0, -1⟩], .ofFloat 0.5⟩, ⟨[], .ofFloat 0.5⟩, ⟨[⟨.c, 1, -1⟩, ⟨.e, 0, -1⟩], .ofFloat 0.5⟩,
          ⟨[], .ofFloat 0.5⟩], 5, 64⟩, ⟨[⟨[⟨.e, -1, -1⟩], .ofFloat 1⟩], 4, 100⟩] := by decide +kernel
    exact hscores prelude (-14) true rfl (by decide) (by decide) ⟨_, hbuilds⟩ ⟨_, hraised⟩
  · have hread : Track.ofNotation "C/Db^3 ." 5 64 =
        .ok ⟨[⟨[⟨.c, 0, 0⟩, ⟨.d, -1, 3⟩], .ofFloat 1⟩, ⟨[], .ofFloat 1⟩], 5, 64⟩ := by decide +kernel
    have hmoved : Track.transposed ⟨[⟨[⟨.c, 0, 0⟩, ⟨.d, -1, 3⟩], .ofFloat 1⟩, ⟨[], .ofFloat 1⟩], 5, 64⟩
        Int32.maxValue = .ok
        ⟨[⟨[⟨.g, 0, 178956970⟩, ⟨.a, -1, 178956973⟩], .ofFloat 1⟩, ⟨[], .ofFloat 1⟩], 5, 64⟩ := by
      decide +kernel
    have hback := htracks _ _ _ Int32.minValue hmoved (by decide)
    rw [show Int32.maxValue + Int32.minValue = -1 by decide] at hback
    exact ⟨_, _, hread, hmoved, hback, (hcommute _ (-1)).2 3 (by decide)⟩
  · obtain ⟨-, -, -, hminus, -, -⟩ := hpitches ⟨.c, 0, Int32.minValue⟩ Int32.minValue
    exact (hminus.ok_iff _).2 (by decide)
  · obtain ⟨-, -, -, -, -, hlower⟩ := hpitches ⟨.b, 0, Int32.maxValue⟩ Int32.minValue
    rw [hlower]
    decide

end Score

end Melody
