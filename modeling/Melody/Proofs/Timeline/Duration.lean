import Mathlib.Order.Bounds.Basic
import Melody.Proofs.Float.Zeros
import Melody.Proofs.Timeline.Checks

/-!
# Events and durations

The duration of a track is the sum of its lengths, and so is the place that its chords are played up to. The
two are added up apart from each other, and from different zeros, but every note of a timeline starts and ends
where the duration of the chords up to there says. Tracks of one duration end together, whatever they are made
of.

## The architecture

* **`Track.upTo`** is a track that is cut off in front of a chord. Its duration and the place of the chord are
  alike (**`alike_duration`**), and what is alike has one tick (**`tickAt_of_alike`**).
* **`Track.parts`** are the written events of a track, chord by chord, and **`Track.FollowsDuration`** says of
  such parts what their ticks are.
* **`Voice.tick_le`**: no chord ends behind the last one. So the end of the last chord is the last end of all
  (**`Track.isLastEnd_written`**).
* **`Song.followsDurations_timeline`** puts this together.
-/

namespace Melody

open Midi Decimal Outcome

/-! ## Ticks of sums -/

/-- The sign of a zero has no part in its tick. -/
theorem tickAt_of_alike {x y : Float} (h : Alike x y) (ticksPerQuarter : UInt16) :
    tickAt ticksPerQuarter x = tickAt ticksPerQuarter y := by
  obtain rfl | ⟨hx, hy⟩ := h
  · rfl
  · rw [tickAt_of_isAmount_zero (isAmount_zero_iff.2 hx), tickAt_of_isAmount_zero (isAmount_zero_iff.2 hy)]

/-- The same lengths lead from places that are alike to places that are alike. -/
theorem alike_cursorBehind {x y : Float} (h : Alike x y) {chords : List Chord}
    (hplayable : ∀ c ∈ chords, isPlayable c.length.value = true) :
    Alike (cursorBehind x chords) (cursorBehind y chords) := by
  induction chords generalizing x y with
  | nil => exact h
  | cons c rest ih =>
    rw [List.forall_mem_cons] at hplayable
    obtain ⟨u, hlength⟩ := exists_isAmount_of_isPlayable hplayable.1
    exact ih (h.add hlength) hplayable.2

namespace Voice

variable {v : Voice} {cursor : Float} {chords : List Chord} {u : Nat}

theorem exists_isAmount_cursorBehind (hcursor : IsAmount cursor u) (h : v.Fits cursor chords) :
    ∃ w, IsAmount (cursorBehind cursor chords) w := by
  induction chords generalizing cursor u with
  | nil => exact ⟨u, hcursor⟩
  | cons c rest ih =>
    obtain ⟨w, hnext, -⟩ := h.next hcursor
    exact ih hnext ((v.fits_cons_iff cursor c rest).1 h).2

/-- Ticks do not decrease from chord to chord. -/
theorem tick_le (hcursor : IsAmount cursor u) (h : v.Fits cursor chords) {j k : Nat} (hjk : j ≤ k)
    (hk : k ≤ chords.length) : v.tick cursor chords j ≤ v.tick cursor chords k := by
  induction chords generalizing cursor u j k with
  | nil =>
    obtain rfl : k = 0 := Nat.le_zero.1 hk
    obtain rfl : j = 0 := Nat.le_zero.1 hjk
    exact UInt32.le_refl _
  | cons c rest ih =>
    obtain ⟨w, hnext, hle⟩ := h.next hcursor
    have hrest := ((v.fits_cons_iff cursor c rest).1 h).2
    -- ticks are counted from the first chord on, so the step goes from it to the others
    cases k with
    | zero =>
      obtain rfl : j = 0 := Nat.le_zero.1 hjk
      exact UInt32.le_refl _
    | succ k =>
      rw [List.length_cons] at hk
      rw [tick_succ]
      cases j with
      | zero => exact UInt32.le_trans hle (ih hnext hrest (Nat.zero_le k) (by omega))
      | succ j =>
        rw [tick_succ]
        exact ih hnext hrest (by omega) (by omega)

/-- Every pitch of a chord has an end behind the chord. -/
theorem noteOff_mem_written (v : Voice) (cursor : Float) {j : Nat} {c : Chord} {p : Pitch}
    (hc : chords[j]? = some c) (hp : p ∈ c.pitches) :
    ⟨v.track, v.tick cursor chords (j + 1), .noteOff (v.key p) v.velocity⟩ ∈ v.written cursor chords := by
  refine List.mem_flatMap.2 ⟨(c, j), List.mem_zipIdx_iff_getElem?.2 hc, List.mem_flatMap.2 ⟨p, hp, ?_⟩⟩
  simp [noteEvents]

/-- All starts of a chord are at its first tick, and all ends at its last. -/
theorem tick_of_mem_flatMap {start stop : UInt32} {pitches : List Pitch} {e : TimedEvent}
    (he : e ∈ pitches.flatMap (v.noteEvents start stop)) (track : Nat) (key : UInt8) :
    (e.starts track key = true → e.tick = start) ∧ (e.ends track key = true → e.tick = stop) := by
  obtain ⟨p, -, he⟩ := List.mem_flatMap.1 he
  rw [noteEvents, List.mem_cons, List.mem_singleton] at he
  rcases he with rfl | rfl
  · simp [TimedEvent.ends]
  · simp [TimedEvent.starts]

end Voice

/-! ## Tracks -/

/-- A tick is that of the last end of a note on a track. -/
def Midi.IsLastEnd (events : List TimedEvent) (track : Nat) (tick : UInt32) : Prop :=
  IsGreatest {tick | ∃ e ∈ events, ∃ key, e.ends track key = true ∧ e.tick = tick} tick

namespace Track

/-- A track up to its chord `j`, which is not in it any more. -/
def upTo (t : Track) (j : Nat) : Track := { t with chords := t.chords.take j }

theorem upTo_length (t : Track) : t.upTo t.chords.length = t := by
  rw [upTo, List.take_length]

/-- The last chord of a track has a pitch. -/
def EndsSounding (t : Track) : Prop := ∃ c, t.chords.getLast? = some c ∧ c.pitches ≠ []

/-- Events that are given chord by chord are those of a track, each at the tick of a duration. -/
structure FollowsDuration (t : Track) (fileTrack : Nat) (ticksPerQuarter : UInt16)
    (parts : List (List TimedEvent)) : Prop where
  /-- There is one part for each chord. -/
  chords : parts.length = t.chords.length
  /-- A chord has a start and an end for each of its pitches, and a rest has nothing. -/
  notes (j : Nat) (c : Chord) (h : t.chords[j]? = some c) : ∃ start stop,
    parts[j]? = some (c.pitches.flatMap ((t.voice fileTrack ticksPerQuarter).noteEvents start stop))
  /-- It starts at the tick of the duration of everything in front of it. -/
  starts (j : Nat) (part : List TimedEvent) (h : parts[j]? = some part) (e : TimedEvent) (he : e ∈ part)
    (key : UInt8) (hkey : e.starts fileTrack key = true) :
    tickAt ticksPerQuarter (t.upTo j).duration = .ok e.tick
  /-- It ends at the tick of the duration with its own length. -/
  ends (j : Nat) (part : List TimedEvent) (h : parts[j]? = some part) (e : TimedEvent) (he : e ∈ part)
    (key : UInt8) (hkey : e.ends fileTrack key = true) :
    tickAt ticksPerQuarter (t.upTo (j + 1)).duration = .ok e.tick
  /-- The next chord starts where it ends. -/
  meets (j : Nat) (part next : List TimedEvent) (h : parts[j]? = some part)
    (hnext : parts[j + 1]? = some next) (e e' : TimedEvent) (he : e ∈ part) (he' : e' ∈ next)
    (key key' : UInt8) (hkey : e.ends fileTrack key = true) (hkey' : e'.starts fileTrack key' = true) :
    e.tick = e'.tick

/-- The written events of a track, chord by chord. -/
def parts (t : Track) (fileTrack : Nat) (ticksPerQuarter : UInt16) : List (List TimedEvent) :=
  let v := t.voice fileTrack ticksPerQuarter
  t.chords.zipIdx.map fun (c, j) =>
    c.pitches.flatMap (v.noteEvents (v.tick 0 t.chords j) (v.tick 0 t.chords (j + 1)))

variable {t : Track} {fileTrack : Nat} {ticksPerQuarter : UInt16}

/-- The parts, one per chord, make up what is written of the track. -/
theorem flatten_parts (t : Track) (fileTrack : Nat) (ticksPerQuarter : UInt16) :
    (t.parts fileTrack ticksPerQuarter).flatten = t.written fileTrack ticksPerQuarter :=
  (List.flatMap_def ..).symm

/-- A part is the notes of its chord, between the ticks before and behind it. -/
theorem getElem?_parts_eq_some_iff {j : Nat} {part : List TimedEvent} :
    (t.parts fileTrack ticksPerQuarter)[j]? = some part ↔ ∃ c, t.chords[j]? = some c ∧
      c.pitches.flatMap ((t.voice fileTrack ticksPerQuarter).noteEvents
        ((t.voice fileTrack ticksPerQuarter).tick 0 t.chords j)
        ((t.voice fileTrack ticksPerQuarter).tick 0 t.chords (j + 1))) = part := by
  simp [parts, List.getElem?_zipIdx]

/-- Behind the first chords of a track that fits the place is their duration, up to the sign of a zero. -/
theorem alike_duration (h : t.Fits ticksPerQuarter) (j : Nat) :
    Alike (t.upTo j).duration (cursorBehind 0 (t.chords.take j)) := by
  apply alike_cursorBehind alike_neg_zero
  intro c hc
  exact (h.chords 0).playable c (List.mem_of_mem_take hc)

/-- The duration of the chords so far has the tick that the cursor has, though one is summed up from a zero
with a sign. -/
theorem tickAt_duration (h : t.Fits ticksPerQuarter) (j : Nat) :
    tickAt ticksPerQuarter (t.upTo j).duration =
      tickAt ticksPerQuarter (cursorBehind 0 (t.chords.take j)) :=
  tickAt_of_alike (alike_duration h j) ticksPerQuarter

theorem Fits.exists_isAmount_duration (h : t.Fits ticksPerQuarter) : ∃ u, IsAmount t.duration u := by
  obtain ⟨u, hu⟩ := Voice.exists_isAmount_cursorBehind isAmount_zero (h.chords 0)
  have halike := alike_duration h t.chords.length
  rw [upTo_length, List.take_length] at halike
  exact ⟨u, halike.isAmount hu⟩

/-- The written events of a track that fits follow its duration. -/
theorem followsDuration_parts (h : t.Fits ticksPerQuarter) (fileTrack : Nat) :
    t.FollowsDuration fileTrack ticksPerQuarter (t.parts fileTrack ticksPerQuarter) := by
  have hfits := h.chords fileTrack
  refine ⟨?_, ?_, ?_, ?_, ?_⟩
  · simp [parts]
  · intro j c hc
    exact ⟨_, _, getElem?_parts_eq_some_iff.2 ⟨c, hc, rfl⟩⟩
  · intro j part hpart e he key hkey
    obtain ⟨c, hc, rfl⟩ := getElem?_parts_eq_some_iff.1 hpart
    obtain ⟨hj, -⟩ := List.getElem?_eq_some_iff.1 hc
    -- a start lies at the tick in front of its chord, and that is the duration so far
    rw [(Voice.tick_of_mem_flatMap he _ _).1 hkey, tickAt_duration h]
    exact hfits.starts j hj
  · intro j part hpart e he key hkey
    obtain ⟨c, hc, rfl⟩ := getElem?_parts_eq_some_iff.1 hpart
    obtain ⟨hj, -⟩ := List.getElem?_eq_some_iff.1 hc
    -- an end lies at the tick behind it
    rw [(Voice.tick_of_mem_flatMap he _ _).2 hkey, tickAt_duration h]
    exact hfits.stops j hj
  · intro j part next hpart hnext e e' he he' key key' hkey hkey'
    obtain ⟨c, -, rfl⟩ := getElem?_parts_eq_some_iff.1 hpart
    obtain ⟨d, -, rfl⟩ := getElem?_parts_eq_some_iff.1 hnext
    -- the tick behind the one chord and the tick in front of the other are one number
    rw [(Voice.tick_of_mem_flatMap he _ _).2 hkey, (Voice.tick_of_mem_flatMap he' _ _).1 hkey']

/-- A track that ends sounding ends for the last time at the tick of its duration. -/
theorem isLastEnd_written (h : t.Fits ticksPerQuarter) (hlast : t.EndsSounding) (fileTrack : Nat) :
    ∃ tick, tickAt ticksPerQuarter t.duration = .ok tick ∧
      IsLastEnd (t.written fileTrack ticksPerQuarter) fileTrack tick := by
  obtain ⟨c, hc, hpitches⟩ := hlast
  obtain ⟨p, hp⟩ := List.exists_mem_of_ne_nil _ hpitches
  have hfits := h.chords fileTrack
  rw [List.getLast?_eq_getElem?] at hc
  obtain ⟨hbound, -⟩ := List.getElem?_eq_some_iff.1 hc
  have hindex : t.chords.length - 1 + 1 = t.chords.length := by omega
  refine ⟨(t.voice fileTrack ticksPerQuarter).tick 0 t.chords t.chords.length, ?_, ?_, ?_⟩
  · have hstop := hfits.stops (t.chords.length - 1) hbound
    have hwhole := tickAt_duration h t.chords.length
    rw [hindex] at hstop
    rw [upTo_length] at hwhole
    exact hwhole.trans hstop
  · -- any pitch of the last chord ends there
    have hend := (t.voice fileTrack ticksPerQuarter).noteOff_mem_written 0 hc hp
    rw [hindex] at hend
    refine ⟨_, hend, (t.voice fileTrack ticksPerQuarter).key p, ?_, rfl⟩
    simp [TimedEvent.ends, voice]
  · -- an end belongs to some chord, and that is not behind the last one
    rintro tick ⟨e, he, key, hkey, rfl⟩
    rw [← flatten_parts] at he
    obtain ⟨part, hpart, he⟩ := List.mem_flatten.1 he
    obtain ⟨j, hj⟩ := List.mem_iff_getElem?.1 hpart
    obtain ⟨d, hd, rfl⟩ := getElem?_parts_eq_some_iff.1 hj
    obtain ⟨hj, -⟩ := List.getElem?_eq_some_iff.1 hd
    rw [(Voice.tick_of_mem_flatMap he _ _).2 hkey]
    exact Voice.tick_le isAmount_zero hfits hj (Nat.le_refl _)

end Track

/-! ## Songs -/

namespace Song

variable {s : Song} {events : List TimedEvent}

/-- How the events of a song follow the durations of its tracks. Track `i` of the song is track `i + 1` of the
file. -/
structure FollowsDurations (s : Song) (events : List TimedEvent) : Prop where
  /-- The events of a track are those of its chords, each at the tick of a duration. -/
  chords (i : Nat) (t : Track) (h : s.tracks[i]? = some t) :
    ∃ parts, t.events (i + 1) s.ticksPerQuarter = .ok parts.flatten ∧
      (events.filter (·.track == i + 1)).Perm parts.flatten ∧
      t.FollowsDuration (i + 1) s.ticksPerQuarter parts
  /-- A track that ends sounding ends at the tick of its duration. -/
  lastEnds (i : Nat) (t : Track) (h : s.tracks[i]? = some t) (hlast : t.EndsSounding) :
    ∃ tick, tickAt s.ticksPerQuarter t.duration = .ok tick ∧ IsLastEnd events (i + 1) tick
  /-- Two such tracks of one duration end on one tick. -/
  together (i j : Nat) (t u : Track) (ht : s.tracks[i]? = some t) (hu : s.tracks[j]? = some u)
    (htlast : t.EndsSounding) (hulast : u.EndsSounding) (hduration : (t.duration == u.duration) = true) :
    ∃ tick, IsLastEnd events (i + 1) tick ∧ IsLastEnd events (j + 1) tick

/-- The events of a track in the timeline are those that were written for it, in another order. -/
theorem perm_filter_timeline (h : s.timeline = .ok events) {i : Nat} {t : Track}
    (ht : s.tracks[i]? = some t) :
    (events.filter (·.track == i + 1)).Perm (t.written (i + 1) s.ticksPerQuarter) := by
  rw [filter_timeline h ht]
  exact List.mergeSort_perm _ _

/-- The last end on a track of the file is that of the track of the song behind it. -/
theorem isLastEnd_iff (h : s.timeline = .ok events) {i : Nat} {t : Track} (ht : s.tracks[i]? = some t)
    {tick : UInt32} :
    IsLastEnd events (i + 1) tick ↔ IsLastEnd (t.written (i + 1) s.ticksPerQuarter) (i + 1) tick := by
  -- an end of the track is in the timeline exactly if it was written for the track
  have hmem (e : TimedEvent) (key : UInt8) (hends : e.ends (i + 1) key = true) :
      e ∈ events ↔ e ∈ t.written (i + 1) s.ticksPerQuarter := by
    have htrack : (e.track == i + 1) = true := (Bool.and_eq_true_iff.1 hends).1
    rw [← (perm_filter_timeline h ht).mem_iff, List.mem_filter, and_iff_left htrack]
  have hticks : {tick | ∃ e ∈ events, ∃ key, e.ends (i + 1) key = true ∧ e.tick = tick} =
      {tick | ∃ e ∈ t.written (i + 1) s.ticksPerQuarter, ∃ key,
        e.ends (i + 1) key = true ∧ e.tick = tick} := by
    ext tick
    constructor
    · rintro ⟨e, he, key, hends, htick⟩
      exact ⟨e, (hmem e key hends).1 he, key, hends, htick⟩
    · rintro ⟨e, he, key, hends, htick⟩
      exact ⟨e, (hmem e key hends).2 he, key, hends, htick⟩
  unfold IsLastEnd
  rw [hticks]

/-- **A timeline follows the durations of its tracks:** the place that a track is played up to and its duration
have one tick, in front of every chord and at the end. -/
theorem followsDurations_timeline (h : s.timeline = .ok events) : s.FollowsDurations events := by
  obtain ⟨micros, -, hfits, -⟩ := timeline_eq_ok_iff.1 h
  have hlastEnds (i : Nat) (t : Track) (ht : s.tracks[i]? = some t) (hlast : t.EndsSounding) :
      ∃ tick, tickAt s.ticksPerQuarter t.duration = .ok tick ∧ IsLastEnd events (i + 1) tick := by
    obtain ⟨tick, htick, hend⟩ := Track.isLastEnd_written (hfits t (List.mem_of_getElem? ht)) hlast (i + 1)
    exact ⟨tick, htick, (isLastEnd_iff h ht).2 hend⟩
  refine ⟨?_, hlastEnds, ?_⟩
  · intro i t ht
    have htfits := hfits t (List.mem_of_getElem? ht)
    refine ⟨t.parts (i + 1) s.ticksPerQuarter, ?_, ?_, Track.followsDuration_parts htfits (i + 1)⟩
    · rw [Track.flatten_parts]
      exact Track.events_eq_ok_iff.2 ⟨htfits, rfl⟩
    · rw [Track.flatten_parts]
      exact perm_filter_timeline h ht
  · intro i j t u ht hu htlast hulast hduration
    obtain ⟨tick, htick, hend⟩ := hlastEnds i t ht htlast
    obtain ⟨tick', htick', hend'⟩ := hlastEnds j u hu hulast
    obtain ⟨x, hx⟩ := (hfits t (List.mem_of_getElem? ht)).exists_isAmount_duration
    obtain ⟨y, hy⟩ := (hfits u (List.mem_of_getElem? hu)).exists_isAmount_duration
    -- durations that compare as equal have one tick
    rw [tickAt_of_alike (alike_of_beq hx hy hduration), htick'] at htick
    obtain rfl := Except.ok.inj htick
    exact ⟨tick', hend, hend'⟩

/-- Two voices that take turns: one rests while the other sounds. The second opens with a chord of no length,
written with a minus sign, and gets along in smaller steps. -/
def hocket : Song :=
  { blank 120 120 with
    tracks :=
      [⟨[⟨[⟨.c, 0, 0⟩], .ofFloat 1.5⟩, ⟨[], .ofFloat 0.5⟩, ⟨[⟨.e, 0, 0⟩, ⟨.g, 0, 0⟩], .ofFloat 1⟩], 5, 64⟩,
        ⟨[⟨[⟨.a, 0, 0⟩], .ofFloat (-0)⟩, ⟨[], .ofFloat 0.75⟩, ⟨[], .ofFloat 0.75⟩, ⟨[⟨.b, 0, 0⟩], .ofFloat 0.5⟩,
          ⟨[], .ofFloat 0.25⟩, ⟨[⟨.d, 0, 0⟩], .ofFloat 0.75⟩], 4, 100⟩] }

/-- Two tracks of one duration, divided in different ways, which end at one tick. -/
theorem followsDurations_timeline_hocket :
    ∃ events, hocket.timeline = .ok events ∧ hocket.FollowsDurations events ∧
      IsLastEnd events 1 360 ∧ IsLastEnd events 2 360 := by
  obtain ⟨events, hevents⟩ := exists_eq_ok_of_isSome (r := hocket.timeline) (by decide +kernel)
  have hfollows := followsDurations_timeline hevents
  obtain ⟨tick, htick, hend⟩ := hfollows.lastEnds 0 _ rfl ⟨_, rfl, List.cons_ne_nil _ _⟩
  obtain ⟨tick', hend', hother⟩ := hfollows.together 0 1 _ _ rfl rfl ⟨_, rfl, List.cons_ne_nil _ _⟩
    ⟨_, rfl, List.cons_ne_nil _ _⟩ (by decide +kernel)
  obtain rfl : (360 : UInt32) = tick := Except.ok.inj (Eq.trans (by decide +kernel) htick)
  -- a track has one last end, so the common one is the one that was computed
  obtain rfl := UInt32.le_antisymm (hend.2 hend'.1) (hend'.2 hend.1)
  exact ⟨events, hevents, hfollows, hend, hother⟩

end Song

end Melody
