import Melody.Midi.Timeline
import Melody.Proofs.Outcome
import Melody.Proofs.StableSort

/-!
# The written events of a song

The events that a song asks for, said without running it: for every chord of every track and every pitch of
the chord a start and an end, in the order in which they are written. `Song.timeline` sorts them.

## The architecture

* **`cursorBehind`** is the place behind some chords, the sum of their lengths in order.
* **`Voice.tick`** and **`Voice.key`** are the numbers of an event. Both are total; `Voice.Fits` says that
  none of them was cut to fit its word.
* **`Voice.written`** lists the events of some chords, **`Track.written`** and **`Song.written`** those of a
  track and of a song.
* **`sounded_eq_ok_iff`**, **`events_eq_ok_iff`**, **`trackEvents_eq_ok_iff`** and **`timeline_eq_ok_iff`**
  say for each layer that it has events exactly when everything fits, and which.
-/

namespace Melody

open Midi Outcome StableSort

/-- The place behind some chords that start at a place. Rests count as much as other chords. -/
def cursorBehind (cursor : Float) (chords : List Chord) : Float :=
  chords.foldl (fun cursor c => cursor + c.length.value) cursor

@[simp] theorem cursorBehind_nil (cursor : Float) : cursorBehind cursor [] = cursor := rfl

@[simp] theorem cursorBehind_cons (cursor : Float) (c : Chord) (chords : List Chord) :
    cursorBehind cursor (c :: chords) = cursorBehind (cursor + c.length.value) chords := rfl

/-- A data byte is made exactly when it has the value that was asked for. -/
theorem noteByte_eq_ok_iff {what : NoteByte} {value : Int} {b : UInt8} :
    noteByte what value = .ok b ↔ (b.toNat : Int) = value := by
  unfold noteByte
  have hb := b.toNat_lt
  refine ⟨?_, ?_⟩
  · intro h
    split at h
    · next hvalue =>
      cases h
      rw [UInt8.toNat_ofNat_of_lt' (by omega)]
      omega
    · cases h
  · rintro rfl
    rw [if_pos ⟨by omega, by simp only [UInt8.size]; omega⟩]
    simp

/-! ## The chords of one track -/

namespace Voice

/-- The tick behind the first `k` chords, zero where there is none. -/
def tick (v : Voice) (cursor : Float) (chords : List Chord) (k : Nat) : UInt32 :=
  (tickAt v.ticksPerQuarter (cursorBehind cursor (chords.take k))).toOption.getD 0

/-- The data byte of a pitch. -/
def key (v : Voice) (p : Pitch) : UInt8 := UInt8.ofNat (p.value + v.transposition).toNat

/-- The start and the end of a pitch. -/
def noteEvents (v : Voice) (start stop : UInt32) (p : Pitch) : List TimedEvent :=
  [⟨v.track, start, .noteOn (v.key p) v.velocity⟩, ⟨v.track, stop, .noteOff (v.key p) v.velocity⟩]

/-- The events of chords that start at a place, chord by chord and pitch by pitch. -/
def written (v : Voice) (cursor : Float) (chords : List Chord) : List TimedEvent :=
  chords.zipIdx.flatMap fun (c, j) =>
    c.pitches.flatMap (v.noteEvents (v.tick cursor chords j) (v.tick cursor chords (j + 1)))

/-- Chords that can be played from a place: every length is playable, and every tick and every data byte is
the exact one. -/
structure Fits (v : Voice) (cursor : Float) (chords : List Chord) : Prop where
  playable : ∀ c ∈ chords, isPlayable c.length.value = true
  starts : ∀ j < chords.length,
    tickAt v.ticksPerQuarter (cursorBehind cursor (chords.take j)) = .ok (v.tick cursor chords j)
  stops : ∀ j < chords.length,
    tickAt v.ticksPerQuarter (cursorBehind cursor (chords.take (j + 1))) =
      .ok (v.tick cursor chords (j + 1))
  keys : ∀ c ∈ chords, ∀ p ∈ c.pitches, ((v.key p).toNat : Int) = p.value + v.transposition

variable (v : Voice) (cursor : Float) (c : Chord) (chords : List Chord)

theorem tick_zero : v.tick cursor chords 0 = (tickAt v.ticksPerQuarter cursor).toOption.getD 0 := by
  simp [tick]

/-- The others are those of the chords behind the first, from where it ends. -/
theorem tick_succ (k : Nat) :
    v.tick cursor (c :: chords) (k + 1) = v.tick (cursor + c.length.value) chords k := by
  simp [tick]

/-- Written are the starts and the ends of notes, and nothing else. -/
theorem exists_of_mem_written {e : TimedEvent} (h : e ∈ v.written cursor chords) :
    ∃ tick p, e = ⟨v.track, tick, .noteOn (v.key p) v.velocity⟩ ∨
      e = ⟨v.track, tick, .noteOff (v.key p) v.velocity⟩ := by
  obtain ⟨⟨c, j⟩, -, hchord⟩ := List.mem_flatMap.1 h
  obtain ⟨p, -, he⟩ := List.mem_flatMap.1 hchord
  rw [noteEvents, List.mem_cons, List.mem_singleton] at he
  rcases he with rfl | rfl
  · exact ⟨_, p, .inl rfl⟩
  · exact ⟨_, p, .inr rfl⟩

theorem written_nil : v.written cursor [] = [] := rfl

theorem written_cons :
    v.written cursor (c :: chords) =
      c.pitches.flatMap (v.noteEvents (v.tick cursor (c :: chords) 0)
        (v.tick (cursor + c.length.value) chords 0)) ++
      v.written (cursor + c.length.value) chords := by
  unfold written
  rw [List.zipIdx_cons, List.flatMap_cons, List.zipIdx_succ, List.flatMap_map]
  simp only [tick_succ]

theorem fits_nil : v.Fits cursor [] := by
  refine ⟨?_, ?_, ?_, ?_⟩
  · nofun
  · intro j hj
    exact absurd hj (Nat.not_lt_zero j)
  · intro j hj
    exact absurd hj (Nat.not_lt_zero j)
  · nofun

/-- Chords fit when the first does and the others do from the place behind it. -/
theorem fits_cons_iff :
    v.Fits cursor (c :: chords) ↔
      (isPlayable c.length.value = true ∧
        tickAt v.ticksPerQuarter cursor = .ok (v.tick cursor (c :: chords) 0) ∧
        tickAt v.ticksPerQuarter (cursor + c.length.value) =
          .ok (v.tick (cursor + c.length.value) chords 0) ∧
        ∀ p ∈ c.pitches, ((v.key p).toNat : Int) = p.value + v.transposition) ∧
      v.Fits (cursor + c.length.value) chords := by
  refine ⟨?_, ?_⟩
  · -- positions are counted from the first chord on one side and from the second on the other
    intro h
    refine ⟨⟨h.playable c (by simp), ?_, ?_, h.keys c (by simp)⟩, ?_, ?_, ?_, ?_⟩
    · simpa using h.starts 0 (by simp)
    · simpa [tick_succ] using h.stops 0 (by simp)
    · intro d hd
      exact h.playable d (List.mem_cons_of_mem c hd)
    · intro j hj
      simpa [tick_succ] using h.starts (j + 1) (by simpa using hj)
    · intro j hj
      simpa [tick_succ] using h.stops (j + 1) (by simpa using hj)
    · intro d hd
      exact h.keys d (List.mem_cons_of_mem c hd)
  · rintro ⟨⟨hplay, hstart, hstop, hkeys⟩, h⟩
    refine ⟨?_, ?_, ?_, ?_⟩
    · intro d hd
      rcases List.mem_cons.1 hd with rfl | hd
      · exact hplay
      · exact h.playable d hd
    · intro j hj
      cases j with
      | zero => simpa using hstart
      | succ j => simpa [tick_succ] using h.starts j (by simpa using hj)
    · intro j hj
      cases j with
      | zero => simpa [tick_succ] using hstop
      | succ j => simpa [tick_succ] using h.stops j (by simpa using hj)
    · intro d hd
      rcases List.mem_cons.1 hd with rfl | hd
      · exact hkeys
      · exact h.keys d hd

/-- A note is written if its key is a byte, as two events. -/
theorem note_eq_ok_iff {start stop : UInt32} {p : Pitch} {events : List TimedEvent} :
    v.note start stop p = .ok events ↔
      ((v.key p).toNat : Int) = p.value + v.transposition ∧ events = v.noteEvents start stop p := by
  unfold note
  rw [bind_eq_ok_iff]
  refine ⟨?_, ?_⟩
  · rintro ⟨key, hkey, hevents⟩
    rw [noteByte_eq_ok_iff] at hkey
    -- the byte that was accepted is the key the specification computes
    have hk : v.key p = key := by
      unfold Voice.key
      rw [← hkey]
      simp
    rw [pure_eq_ok_iff] at hevents
    refine ⟨by rw [hk, hkey], ?_⟩
    rw [← hevents, noteEvents, hk]
  · rintro ⟨hkey, rfl⟩
    exact ⟨v.key p, noteByte_eq_ok_iff.2 hkey, rfl⟩

/-- A playable chord is checked for its ticks first, then for its pitches. -/
theorem chord_of_playable (h : isPlayable c.length.value = true) :
    v.chord cursor c = (do
      let start ← tickAt v.ticksPerQuarter cursor
      let stop ← tickAt v.ticksPerQuarter (cursor + c.length.value)
      let notes ← c.pitches.mapM (v.note start stop)
      return (notes.flatten, cursor + c.length.value)) := by
  unfold chord
  rw [if_pos h]

theorem chord_of_not_playable (h : ¬ isPlayable c.length.value = true) :
    v.chord cursor c = .error (.invalidDuration c.length.value) := by
  unfold chord
  rw [if_neg h]
  rfl

/-- What one chord does: its length and its numbers are checked, its pitches are written one after the
other, and the cursor moves on by its length. -/
theorem chord_eq_ok_iff {events : List TimedEvent} {next : Float} :
    v.chord cursor c = .ok (events, next) ↔
      isPlayable c.length.value = true ∧
      ∃ start stop, tickAt v.ticksPerQuarter cursor = .ok start ∧
        tickAt v.ticksPerQuarter (cursor + c.length.value) = .ok stop ∧
        (∀ p ∈ c.pitches, ((v.key p).toNat : Int) = p.value + v.transposition) ∧
        events = c.pitches.flatMap (v.noteEvents start stop) ∧ next = cursor + c.length.value := by
  -- the notes are written one by one, and one key out of range is enough to fail
  have hnotes (start stop : UInt32) (notes : List (List TimedEvent)) :
      c.pitches.mapM (v.note start stop) = .ok notes ↔
        (∀ p ∈ c.pitches, ((v.key p).toNat : Int) = p.value + v.transposition) ∧
          notes = c.pitches.map (v.noteEvents start stop) := by
    rw [mapM_eq_ok_iff_map fun p events h => ((v.note_eq_ok_iff).1 h).2]
    simp only [note_eq_ok_iff, and_true]
  by_cases hplay : isPlayable c.length.value = true
  · rw [chord_of_playable v cursor c hplay]
    simp only [hplay, bind_eq_ok_iff, hnotes, pure_eq_ok_iff, true_and, Prod.mk.injEq]
    refine ⟨?_, ?_⟩
    · rintro ⟨start, hstart, stop, hstop, _, ⟨hkeys, rfl⟩, rfl, rfl⟩
      exact ⟨start, stop, hstart, hstop, hkeys, (List.flatMap_def ..).symm, rfl⟩
    · rintro ⟨start, stop, hstart, hstop, hkeys, rfl, rfl⟩
      exact ⟨start, hstart, stop, hstop, _, ⟨hkeys, rfl⟩, (List.flatMap_def ..).symm, rfl⟩
  · rw [chord_of_not_playable v cursor c hplay]
    simp [hplay]

/-- Chords are played exactly when they fit, and their events are the written ones. -/
theorem sounded_eq_ok_iff {events : List TimedEvent} :
    v.sounded cursor chords = .ok events ↔
      v.Fits cursor chords ∧ events = v.written cursor chords := by
  induction chords generalizing cursor events with
  | nil =>
    simp only [sounded, Except.ok.injEq, written_nil, fits_nil, true_and]
    exact eq_comm
  | cons c rest ih =>
    simp only [sounded, bind_eq_ok_iff, pure_eq_ok_iff, Prod.exists, chord_eq_ok_iff, ih]
    rw [fits_cons_iff, written_cons]
    refine ⟨?_, ?_⟩
    · rintro ⟨first, _, ⟨hplay, start, stop, hstart, hstop, hkeys, rfl, rfl⟩, _, ⟨hfits, rfl⟩, rfl⟩
      -- the ticks that were computed are the first two of the chords
      have h0 : v.tick cursor (c :: rest) 0 = start := by
        rw [tick_zero, hstart]
        rfl
      have h1 : v.tick (cursor + c.length.value) rest 0 = stop := by
        rw [tick_zero, hstop]
        rfl
      rw [h0, h1]
      exact ⟨⟨⟨hplay, hstart, hstop, hkeys⟩, hfits⟩, rfl⟩
    · rintro ⟨⟨⟨hplay, hstart, hstop, hkeys⟩, hfits⟩, rfl⟩
      exact ⟨_, _, ⟨hplay, _, _, hstart, hstop, hkeys, rfl, rfl⟩, _, ⟨hfits, rfl⟩, rfl⟩

end Voice

/-! ## Tracks -/

namespace Track

/-- How a track is played on a track of the file. -/
def voice (t : Track) (fileTrack : Nat) (ticksPerQuarter : UInt16) : Voice :=
  ⟨fileTrack, ticksPerQuarter, octaveWidth * t.octave.toInt, UInt8.ofNat t.velocity.toInt.toNat⟩

/-- The events of a track in written order, from the start of the song on. -/
def written (t : Track) (fileTrack : Nat) (ticksPerQuarter : UInt16) : List TimedEvent :=
  (t.voice fileTrack ticksPerQuarter).written 0 t.chords

/-- A track that can be played, whichever track of the file it goes to: its velocity is the exact one, and
its chords fit from the start on. -/
structure Fits (t : Track) (ticksPerQuarter : UInt16) : Prop where
  velocity (fileTrack : Nat) :
    ((t.voice fileTrack ticksPerQuarter).velocity.toNat : Int) = t.velocity.toInt
  chords (fileTrack : Nat) : (t.voice fileTrack ticksPerQuarter).Fits 0 t.chords

/-- A track is written exactly if it fits, and then as `written` says. -/
theorem events_eq_ok_iff {t : Track} {fileTrack : Nat} {ticksPerQuarter : UInt16}
    {events : List TimedEvent} :
    t.events fileTrack ticksPerQuarter = .ok events ↔
      t.Fits ticksPerQuarter ∧ events = t.written fileTrack ticksPerQuarter := by
  unfold Track.events
  rw [bind_eq_ok_iff]
  refine ⟨?_, ?_⟩
  · rintro ⟨velocity, hvelocity, hevents⟩
    rw [noteByte_eq_ok_iff] at hvelocity
    have hvoice (k : Nat) : t.voice k ticksPerQuarter =
        ⟨k, ticksPerQuarter, octaveWidth * t.octave.toInt, velocity⟩ := by
      unfold voice
      rw [← hvelocity]
      simp
    rw [← hvoice, Voice.sounded_eq_ok_iff] at hevents
    obtain ⟨hfits, hevents⟩ := hevents
    refine ⟨⟨fun k => ?_, fun k => ?_⟩, hevents⟩
    · rw [hvoice k, hvelocity]
    · -- the track of the file plays no part in what fits
      exact ⟨hfits.playable, hfits.starts, hfits.stops, hfits.keys⟩
  · rintro ⟨hfits, rfl⟩
    refine ⟨(t.voice fileTrack ticksPerQuarter).velocity,
      noteByte_eq_ok_iff.2 (hfits.velocity fileTrack), ?_⟩
    exact (Voice.sounded_eq_ok_iff ..).2 ⟨hfits.chords fileTrack, rfl⟩

/-- The events of a track stand on its track of the file. -/
theorem track_of_mem_written {t : Track} {fileTrack : Nat} {ticksPerQuarter : UInt16} {e : TimedEvent}
    (h : e ∈ t.written fileTrack ticksPerQuarter) : e.track = fileTrack := by
  obtain ⟨tick, p, rfl | rfl⟩ := Voice.exists_of_mem_written _ _ _ h
  · rfl
  · rfl

/-- On another track of the file a track is written alike. -/
theorem written_renumbered (t : Track) (j k : Nat) (ticksPerQuarter : UInt16) :
    (t.written j ticksPerQuarter).map (fun e => { e with track := k }) =
      t.written k ticksPerQuarter := by
  simp only [written, Voice.written, List.map_flatMap]
  rfl

end Track

/-! ## Songs -/

namespace Song

/-- The events of tracks from a track of the file on, one track after the other. -/
def writtenFrom (ticksPerQuarter : UInt16) (fileTrack : Nat) (tracks : List Track) :
    List TimedEvent :=
  (tracks.zipIdx fileTrack).flatMap fun (t, k) => t.written k ticksPerQuarter

/-- The note events of a song in written order: track by track, chord by chord and pitch by pitch, the start
in front of the end. Track `i` of the song is track `i + 1` of the file. -/
def written (s : Song) : List TimedEvent := writtenFrom s.ticksPerQuarter 1 s.tracks

/-- So are the tracks of a song, numbered from the first on. -/
theorem trackEvents_eq_ok_iff {ticksPerQuarter : UInt16} {fileTrack : Nat} {tracks : List Track}
    {events : List TimedEvent} :
    trackEvents ticksPerQuarter fileTrack tracks = .ok events ↔
      (∀ t ∈ tracks, t.Fits ticksPerQuarter) ∧
        events = writtenFrom ticksPerQuarter fileTrack tracks := by
  -- one track after the other, each written into the next track of the file
  induction tracks generalizing fileTrack events with
  | nil =>
    simp only [trackEvents, Except.ok.injEq, List.not_mem_nil, false_implies, implies_true, true_and]
    exact eq_comm
  | cons t rest ih =>
    simp only [trackEvents, bind_eq_ok_iff, pure_eq_ok_iff, Track.events_eq_ok_iff, ih,
      List.forall_mem_cons]
    refine ⟨?_, ?_⟩
    · rintro ⟨_, ⟨ht, rfl⟩, _, ⟨hrest, rfl⟩, rfl⟩
      exact ⟨⟨ht, hrest⟩, rfl⟩
    · rintro ⟨⟨ht, hrest⟩, rfl⟩
      exact ⟨_, ⟨ht, rfl⟩, _, ⟨hrest, rfl⟩, rfl⟩

theorem writtenFrom_cons (ticksPerQuarter : UInt16) (fileTrack : Nat) (t : Track)
    (rest : List Track) :
    writtenFrom ticksPerQuarter fileTrack (t :: rest) =
      t.written fileTrack ticksPerQuarter ++ writtenFrom ticksPerQuarter (fileTrack + 1) rest := rfl

theorem track_lt_of_mem_writtenFrom {ticksPerQuarter : UInt16} {fileTrack : Nat} {tracks : List Track}
    {e : TimedEvent} (h : e ∈ writtenFrom ticksPerQuarter fileTrack tracks) :
    fileTrack ≤ e.track ∧ e.track < fileTrack + tracks.length := by
  obtain ⟨⟨t, k⟩, hk, he⟩ := List.mem_flatMap.1 h
  have hbounds := List.mem_zipIdx hk
  rw [Track.track_of_mem_written he]
  omega

/-- A song has a timeline exactly when its tempo can be written and all of its tracks fit. The timeline is
the tempo and the written events, sorted. -/
theorem timeline_eq_ok_iff {s : Song} {events : List TimedEvent} :
    s.timeline = .ok events ↔
      ∃ micros, microsPerQuarter? s.tempo = some micros ∧
        (∀ t ∈ s.tracks, t.Fits s.ticksPerQuarter) ∧
        events = (⟨0, 0, .tempo micros⟩ :: s.written).mergeSort TimedEvent.before := by
  unfold timeline
  split
  · next hmicros => simp [hmicros]
  · -- with a tempo there is, all that can fail is a track
    next micros hmicros =>
    simp only [bind_eq_ok_iff, pure_eq_ok_iff, trackEvents_eq_ok_iff, hmicros, Option.some.injEq,
      exists_eq_left']
    refine ⟨?_, ?_⟩
    · rintro ⟨_, ⟨hfits, rfl⟩, rfl⟩
      exact ⟨hfits, rfl⟩
    · rintro ⟨hfits, rfl⟩
      exact ⟨_, ⟨hfits, rfl⟩, rfl⟩

/-- Each track of the file holds what the track of the song behind it has written, and nothing else. -/
theorem filter_writtenFrom (ticksPerQuarter : UInt16) {fileTrack : Nat} {tracks : List Track} {i : Nat}
    {t : Track} (h : tracks[i]? = some t) :
    (writtenFrom ticksPerQuarter fileTrack tracks).filter (·.track == fileTrack + i) =
      t.written (fileTrack + i) ticksPerQuarter := by
  induction tracks generalizing fileTrack i with
  | nil => cases h
  | cons u rest ih =>
    rw [writtenFrom_cons, List.filter_append]
    cases i with
    | zero =>
      -- the first track is the one that is looked for, and the others stand behind it
      obtain rfl : u = t := by simpa using h
      have hown : (u.written fileTrack ticksPerQuarter).filter (·.track == fileTrack + 0) =
          u.written fileTrack ticksPerQuarter :=
        filter_number_eq_self fun e he => Track.track_of_mem_written he
      have hothers : (writtenFrom ticksPerQuarter (fileTrack + 1) rest).filter
          (·.track == fileTrack + 0) = [] := by
        apply filter_number_eq_nil
        intro e he
        have := track_lt_of_mem_writtenFrom he
        omega
      rw [hown, hothers, List.append_nil, Nat.add_zero]
    | succ i =>
      -- the first track is another one and gives nothing
      have hown : (u.written fileTrack ticksPerQuarter).filter (·.track == fileTrack + (i + 1)) =
          [] := by
        apply filter_number_eq_nil
        intro e he
        rw [Track.track_of_mem_written he]
        omega
      rw [hown, List.nil_append, show fileTrack + (i + 1) = fileTrack + 1 + i from by omega]
      exact ih (by simpa using h)

end Song

end Melody
