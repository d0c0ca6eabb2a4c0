import Melody.Proofs.Changes
import Melody.Proofs.Pitch.Canonical
import Melody.Proofs.Timeline.Order

/-!
# The timeline of a transposed song

A transposition spells every pitch anew, but all that reaches the timeline is the value of a pitch. So the
events of a transposed song are those of the song, each key moved as far, and everything else about them is
untouched: the sort does not look at keys.

A key is a sum of two parts, the value of the pitch and the transposition of the voice. Octaves may go into
either of them, and nothing in the timeline tells which, a failure of the song included.

## The architecture

* **`Event.IsRaised`** and **`TimedEvent.IsRaised`** relate the events of two timelines, **`Chord.IsRaised`** and
  **`Track.IsRaised`** what they come from. A transposition has the latter two (**`isRaised_of_transposed`**).
* **`forall₂_written`** relates the written events of chords that fit, **`forall₂_mergeSort`** the sorted ones.
* **`sounded_raised`** gives the semitones of the pitches to the voice, whether the chords fit or not.
* **`timeline_transposed`** says both of a song.
-/

namespace Melody

open Midi Outcome StableSort

/-! ## Events -/

namespace Midi

variable {n : Int}

/-- Events that differ in the key alone, which is some semitones higher. -/
inductive Event.IsRaised (n : Int) : Event → Event → Prop
  | tempo (micros : UInt32) : IsRaised n (.tempo micros) (.tempo micros)
  | noteOn {key key' : UInt8} (velocity : UInt8) (h : (key'.toNat : Int) = key.toNat + n) :
    IsRaised n (.noteOn key velocity) (.noteOn key' velocity)
  | noteOff {key key' : UInt8} (velocity : UInt8) (h : (key'.toNat : Int) = key.toNat + n) :
    IsRaised n (.noteOff key velocity) (.noteOff key' velocity)

/-- The same at one place in time, on one track of the file. -/
structure TimedEvent.IsRaised (n : Int) (a b : TimedEvent) : Prop where
  track : b.track = a.track
  tick : b.tick = a.tick
  event : a.event.IsRaised n b.event

theorem Event.rank_eq_of_isRaised {a b : Event} (h : a.IsRaised n b) : b.rank = a.rank := by
  cases h with
  | tempo => rfl
  | noteOn => rfl
  | noteOff => rfl

theorem TimedEvent.before_eq_of_isRaised {a b a' b' : TimedEvent} (ha : a.IsRaised n a')
    (hb : b.IsRaised n b') : before a' b' = before a b := by
  rw [before, before, ha.track, ha.tick, hb.track, hb.tick, Event.rank_eq_of_isRaised ha.event,
    Event.rank_eq_of_isRaised hb.event]

end Midi

/-! ## What a transposition does -/

/-- Chords whose pitches are some semitones apart, place by place. -/
structure Chord.IsRaised (n : Int) (c d : Chord) : Prop where
  pitches : List.Forall₂ (fun p q => q.value = p.value + n) c.pitches d.pitches
  length : d.length = c.length

structure Track.IsRaised (n : Int) (t u : Track) : Prop where
  chords : List.Forall₂ (Chord.IsRaised n) t.chords u.chords
  octave : u.octave = t.octave
  velocity : u.velocity = t.velocity

theorem Chord.isRaised_of_transposed {c d : Chord} {n : Int32} (h : c.transposed n = .ok d) :
    c.IsRaised n.toInt d := by
  obtain ⟨hpitches, hlength⟩ := mapPitches_eq_ok_iff.1 h
  refine ⟨?_, hlength⟩
  exact (mapM_eq_ok_iff.1 hpitches).imp fun p q hpq => Pitch.value_of_canonical hpq

theorem Track.isRaised_of_transposed {t u : Track} {n : Int32} (h : t.transposed n = .ok u) :
    t.IsRaised n.toInt u := by
  obtain ⟨hchords, hoctave, hvelocity⟩ := mapChords_eq_ok_iff.1 h
  refine ⟨?_, hoctave, hvelocity⟩
  exact (mapM_eq_ok_iff.1 hchords).imp fun c d hcd => Chord.isRaised_of_transposed hcd

/-- All that a transposition changes about a song is its tracks. -/
theorem Song.isRaised_of_transposed {s u : Song} {n : Int32} (h : s.transposed n = .ok u) :
    List.Forall₂ (Track.IsRaised n.toInt) s.tracks u.tracks ∧ u = { s with tracks := u.tracks } := by
  obtain ⟨htracks, hsong⟩ := mapTracks_eq_ok_iff.1 h
  refine ⟨?_, hsong⟩
  exact (mapM_eq_ok_iff.1 htracks).imp fun t u htu => Track.isRaised_of_transposed htu

/-! ## The events of raised chords -/

namespace Voice

variable (v : Voice) {n : Int}

/-- The keys of pitches that fit are as far apart as the pitches. -/
theorem forall₂_noteEvents {p q : Pitch} (hpq : q.value = p.value + n)
    (hp : ((v.key p).toNat : Int) = p.value + v.transposition)
    (hq : ((v.key q).toNat : Int) = q.value + v.transposition) (start stop : UInt32) :
    List.Forall₂ (TimedEvent.IsRaised n) (v.noteEvents start stop p) (v.noteEvents start stop q) := by
  have hkey : ((v.key q).toNat : Int) = (v.key p).toNat + n := by omega
  refine .cons ⟨rfl, rfl, ?_⟩ (.cons ⟨rfl, rfl, ?_⟩ .nil)
  · exact .noteOn v.velocity hkey
  · exact .noteOff v.velocity hkey

/-- The notes of a raised chord are raised one by one. -/
theorem forall₂_flatMap_noteEvents {ps qs : List Pitch}
    (h : List.Forall₂ (fun p q => q.value = p.value + n) ps qs)
    (hps : ∀ p ∈ ps, ((v.key p).toNat : Int) = p.value + v.transposition)
    (hqs : ∀ q ∈ qs, ((v.key q).toNat : Int) = q.value + v.transposition) (start stop : UInt32) :
    List.Forall₂ (TimedEvent.IsRaised n) (ps.flatMap (v.noteEvents start stop))
      (qs.flatMap (v.noteEvents start stop)) := by
  induction h with
  | nil => exact .nil
  | cons hpq _ ih =>
    rw [List.forall_mem_cons] at hps hqs
    rw [List.flatMap_cons, List.flatMap_cons]
    exact List.rel_append (v.forall₂_noteEvents hpq hps.1 hqs.1 start stop) (ih hps.2 hqs.2)

/-- What is written of raised chords is raised event by event. Induction over the chords, with the same cursor
for both. -/
theorem forall₂_written {cs ds : List Chord} (h : List.Forall₂ (Chord.IsRaised n) cs ds)
    {cursor : Float} (hcs : v.Fits cursor cs) (hds : v.Fits cursor ds) :
    List.Forall₂ (TimedEvent.IsRaised n) (v.written cursor cs) (v.written cursor ds) := by
  induction h generalizing cursor with
  | nil => exact .nil
  | cons hcd _ ih =>
    rw [fits_cons_iff] at hcs hds
    obtain ⟨⟨-, -, -, hckeys⟩, hcs⟩ := hcs
    obtain ⟨⟨-, -, -, hdkeys⟩, hds⟩ := hds
    rw [hcd.length] at hds
    -- a tick is a matter of the lengths alone
    rw [written_cons, written_cons, hcd.length]
    simp only [tick_zero]
    exact List.rel_append (v.forall₂_flatMap_noteEvents hcd.pitches hckeys hdkeys _ _) (ih hcs hds)

/-! ## Semitones of the voice -/

/-- The voice with some semitones more. -/
def raised (n : Int) : Voice := { v with transposition := v.transposition + n }

/-- A voice that is raised writes a pitch as the other writes the raised pitch, and fails where that fails. -/
theorem note_raised {p q : Pitch} (h : q.value = p.value + n) (start stop : UInt32) :
    (v.raised n).note start stop p = v.note start stop q := by
  have hkey : p.value + (v.raised n).transposition = q.value + v.transposition := by
    show p.value + (v.transposition + n) = _
    omega
  rw [note, note, hkey]
  rfl

/-- So it does with a chord. -/
theorem chord_raised {c d : Chord} (h : c.IsRaised n d) (cursor : Float) :
    (v.raised n).chord cursor c = v.chord cursor d := by
  have hnotes (start stop : UInt32) :
      c.pitches.mapM ((v.raised n).note start stop) = d.pitches.mapM (v.note start stop) := by
    apply mapM_eq_mapM
    exact h.pitches.imp fun p q hpq => v.note_raised hpq start stop
  rw [chord, chord, h.length]
  simp only [hnotes]
  rfl

/-- It is the same to raise the voice and to raise the chords, for a failure too. -/
theorem sounded_raised {cs ds : List Chord} (h : List.Forall₂ (Chord.IsRaised n) cs ds)
    (cursor : Float) : (v.raised n).sounded cursor cs = v.sounded cursor ds := by
  induction h generalizing cursor with
  | nil => rfl
  | cons hcd _ ih =>
    rw [sounded, sounded, v.chord_raised hcd]
    simp only [ih]

end Voice

/-! ## Tracks -/

namespace Track

variable {t u : Track} {n : Int} {ticksPerQuarter : UInt16}

/-- What is written of a raised track is raised event by event. -/
theorem forall₂_written (h : t.IsRaised n u) (ht : t.Fits ticksPerQuarter)
    (hu : u.Fits ticksPerQuarter) (fileTrack : Nat) :
    List.Forall₂ (TimedEvent.IsRaised n) (t.written fileTrack ticksPerQuarter)
      (u.written fileTrack ticksPerQuarter) := by
  have hvoice : u.voice fileTrack ticksPerQuarter = t.voice fileTrack ticksPerQuarter := by
    rw [voice, voice, h.octave, h.velocity]
  have hfits := hu.chords fileTrack
  rw [hvoice] at hfits
  rw [written, written, hvoice]
  exact Voice.forall₂_written _ h.chords (ht.chords fileTrack) hfits

/-- The track some octaves higher, its pitches as they are. -/
def octaveRaised (t : Track) (octaves : Int) : Track :=
  { t with octave := .ofInt (t.octave.toInt + octaves) }

/-- Whether a track that many octaves higher is still in range. -/
def HasOctave (t : Track) (octaves : Int) : Prop :=
  Int32.minValue.toInt ≤ t.octave.toInt + octaves ∧ t.octave.toInt + octaves ≤ Int32.maxValue.toInt

instance (t : Track) (octaves : Int) : Decidable (t.HasOctave octaves) :=
  inferInstanceAs (Decidable (_ ∧ _))

/-- The octave of a track is raised exactly, if there is room. -/
theorem toInt_octaveRaised {octaves : Int} (h : t.HasOctave octaves) :
    (t.octaveRaised octaves).octave.toInt = t.octave.toInt + octaves :=
  Int32.toInt_ofInt_of_le h.1 (Int.lt_add_one_of_le h.2)

/-- Octaves of the track and octaves of its pitches make the same events, and the same failures. -/
theorem events_octaveRaised {octaves : Int} (h : t.IsRaised (octaveWidth * octaves) u)
    (ht : t.HasOctave octaves) (fileTrack : Nat) :
    (t.octaveRaised octaves).events fileTrack ticksPerQuarter = u.events fileTrack ticksPerQuarter := by
  rw [events, events, toInt_octaveRaised ht, h.octave, h.velocity, Int.mul_add]
  show (noteByte .velocity t.velocity.toInt >>= fun velocity =>
    (Voice.raised ⟨fileTrack, ticksPerQuarter, octaveWidth * t.octave.toInt, velocity⟩
      (octaveWidth * octaves)).sounded 0 t.chords) = _
  simp only [Voice.sounded_raised _ h.chords]

end Track

/-! ## Songs -/

namespace Song

variable {s u : Song} {n : Int}

/-- The same for all tracks of a song. -/
theorem forall₂_writtenFrom {ts us : List Track} (h : List.Forall₂ (Track.IsRaised n) ts us)
    {ticksPerQuarter : UInt16} (hts : ∀ t ∈ ts, t.Fits ticksPerQuarter)
    (hus : ∀ u ∈ us, u.Fits ticksPerQuarter) (fileTrack : Nat) :
    List.Forall₂ (TimedEvent.IsRaised n) (writtenFrom ticksPerQuarter fileTrack ts)
      (writtenFrom ticksPerQuarter fileTrack us) := by
  -- track by track, with the number in the file going up on both sides
  induction h generalizing fileTrack with
  | nil => exact .nil
  | cons htu _ ih =>
    rw [List.forall_mem_cons] at hts hus
    rw [writtenFrom_cons, writtenFrom_cons]
    exact List.rel_append (Track.forall₂_written htu hts.1 hus.1 fileTrack) (ih hts.2 hus.2 _)

/-- Every track some octaves higher, the pitches as they are. -/
def octavesRaised (s : Song) (octaves : Int) : Song :=
  { s with tracks := s.tracks.map (·.octaveRaised octaves) }

/-- Raising the octaves of tracks writes what raising their pitches by whole octaves does, failures included.
-/
theorem trackEvents_octavesRaised {octaves : Int} {ts us : List Track}
    (h : List.Forall₂ (Track.IsRaised (octaveWidth * octaves)) ts us)
    (hts : ∀ t ∈ ts, t.HasOctave octaves) (ticksPerQuarter : UInt16) (fileTrack : Nat) :
    trackEvents ticksPerQuarter fileTrack (ts.map (·.octaveRaised octaves)) =
      trackEvents ticksPerQuarter fileTrack us := by
  induction h generalizing fileTrack with
  | nil => rfl
  | cons htu _ ih =>
    rw [List.forall_mem_cons] at hts
    rw [List.map_cons, trackEvents, trackEvents, Track.events_octaveRaised htu hts.1, ih hts.2]

/-- The timelines of a song and of the raised song agree event by event: sorting puts both in the same order.
-/
theorem forall₂_timeline (h : List.Forall₂ (Track.IsRaised n) s.tracks u.tracks)
    (hu : u = { s with tracks := u.tracks }) {events raised : List TimedEvent}
    (hevents : s.timeline = .ok events) (hraised : u.timeline = .ok raised) :
    List.Forall₂ (TimedEvent.IsRaised n) events raised := by
  have htempo : u.tempo = s.tempo := by rw [hu]
  have hresolution : u.ticksPerQuarter = s.ticksPerQuarter := by rw [hu]
  obtain ⟨micros, hmicros, hs, rfl⟩ := timeline_eq_ok_iff.1 hevents
  obtain ⟨micros', hmicros', hu, rfl⟩ := timeline_eq_ok_iff.1 hraised
  obtain rfl : micros = micros' := by
    rw [htempo, hmicros] at hmicros'
    exact Option.some.inj hmicros'
  rw [hresolution] at hu
  -- the tempo is the same, and the order depends on nothing that raising changes
  refine forall₂_mergeSort (.cons ⟨rfl, rfl, .tempo micros⟩ ?_) ?_
  · rw [written, written, hresolution]
    exact forall₂_writtenFrom h hs hu 1
  · intro a a' b b' ha hb
    exact (TimedEvent.before_eq_of_isRaised ha hb).symm

theorem timeline_octavesRaised {octaves : Int}
    (h : List.Forall₂ (Track.IsRaised (octaveWidth * octaves)) s.tracks u.tracks)
    (hu : u = { s with tracks := u.tracks }) (hs : ∀ t ∈ s.tracks, t.HasOctave octaves) :
    u.timeline = (s.octavesRaised octaves).timeline := by
  have htracks := trackEvents_octavesRaised h hs s.ticksPerQuarter 1
  rw [hu, timeline, timeline, octavesRaised]
  simp only [htracks]

/-- **A transposition moves the keys of the events and nothing else:** the timelines of a song and of the song
transposed agree event by event but for the keys, which are as many semitones apart. Where these make up whole
octaves, the tracks could have been raised instead, with the same events or the same failure. -/
theorem timeline_transposed {n : Int32} (h : s.transposed n = .ok u) :
    (∀ events raised, s.timeline = .ok events → u.timeline = .ok raised →
      List.Forall₂ (TimedEvent.IsRaised n.toInt) events raised) ∧
    ∀ octaves : Int, n.toInt = octaveWidth * octaves → (∀ t ∈ s.tracks, t.HasOctave octaves) →
      u.timeline = (s.octavesRaised octaves).timeline := by
  obtain ⟨htracks, hu⟩ := isRaised_of_transposed h
  constructor
  · intro events raised hevents hraised
    exact forall₂_timeline htracks hu hevents hraised
  · intro octaves hn hs
    rw [hn] at htracks
    exact timeline_octavesRaised htracks hu hs

/-- The duet an octave higher. The B sharp below C has become the C above it. -/
def duetAbove : Song :=
  { duet with
    tracks :=
      [⟨[⟨[⟨.c, 0, 1⟩, ⟨.c, 0, 1⟩], .ofFloat 1⟩, ⟨[⟨.c, 0, 1⟩], .ofFloat 0⟩,
          ⟨[⟨.d, 0, 1⟩], .ofFloat 2⟩], 5, 64⟩,
        ⟨[⟨[], .ofFloat 1⟩, ⟨[⟨.e, 0, 1⟩], .ofFloat 1⟩], 4, 100⟩] }

/-- The duet and the one above it, event by event. -/
theorem timeline_transposed_duet :
    duet.transposed 12 = .ok duetAbove ∧
      ∃ raised, duetAbove.timeline = .ok raised ∧ (duet.octavesRaised 1).timeline = .ok raised ∧
        List.Forall₂ (TimedEvent.IsRaised 12) duetTimeline raised := by
  have hmoved : duet.transposed 12 = .ok duetAbove := by decide +kernel
  obtain ⟨hevents, hoctaves⟩ := timeline_transposed hmoved
  have hsome : duetAbove.timeline.toOption.isSome = true := by decide +kernel
  cases hraised : duetAbove.timeline with
  | error fault =>
    rw [hraised] at hsome
    cases hsome
  | ok raised =>
    refine ⟨hmoved, raised, rfl, ?_, hevents _ _ timeline_duet hraised⟩
    rw [← hoctaves 1 (by decide) (by decide +kernel), hraised]

end Song

end Melody
