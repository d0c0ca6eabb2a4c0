import Melody.Proofs.Midi.Events
import Melody.Proofs.Timeline.Order

/-!
# Songs read back

The file of a song, read again, is the timeline of the song, track by track: no event is lost, added, moved
or taken for another one.

## The architecture

* **`Song.sheet`** is what the events of a song are collected on. The events of a timeline name tracks that are
  there, and those of one track are in order of ticks already (**`pairwise_tick_filter`**).
* **`Transcribable`** says what a file has room for. The tempo is not part of it: a song whose tempo has no
  room has no timeline. The rest is what **`Transcribable.hasRoom`** says of the events.
* **`inspect_midi`** is then what `Sheet.inspect_ofEvents` says of the events of any file.
-/

namespace Melody

open Midi Outcome StableSort

/-! ## Timelines by track -/

/-- A tempo that is written fits its three bytes. -/
theorem Midi.toNat_microsPerQuarter?_le {bpm micros : UInt32} (h : microsPerQuarter? bpm = some micros) :
    micros.toNat ≤ maxTempoMicros := by
  rw [microsPerQuarter?] at h
  split at h
  · cases h
  · dsimp only at h
    split at h
    · next hle =>
      obtain rfl := Option.some.inj h
      rw [UInt32.toNat_ofNat']
      exact Nat.le_trans (Nat.mod_le _ _) hle
    · cases h

theorem Midi.TimedEvent.tick_le_of_place_le {a b : TimedEvent} (h : a.place ≤ b.place) :
    a.tick ≤ b.tick := by
  rw [place, place, Prod.Lex.toLex_le_toLex] at h
  rw [UInt32.le_iff_toNat_le]
  rcases h with hlt | ⟨heq, -⟩
  · exact Nat.le_of_lt hlt
  · exact Nat.le_of_eq heq

namespace Song

variable {s : Song} {events : List TimedEvent} {bytes : List UInt8}

/-- The timeline uses the tempo track and one track for each track of the song. -/
theorem track_lt_of_timeline (h : s.timeline = .ok events) :
    ∀ e ∈ events, e.track < s.trackCount + 1 := by
  obtain ⟨micros, -, rfl⟩ := timeline_eq_cons h
  rw [List.forall_mem_cons]
  refine ⟨Nat.succ_pos _, ?_⟩
  intro e he
  have hbounds := track_lt_of_mem_writtenFrom (List.mem_mergeSort.1 he)
  rw [trackCount]
  omega

theorem pairwise_tick_filter (h : s.timeline = .ok events) (k : Nat) :
    (events.filter (·.track == k)).Pairwise fun a b => a.tick ≤ b.tick := by
  obtain ⟨micros, -, -, rfl⟩ := timeline_eq_ok_iff.1 h
  have hsorted := TimedEvent.pairwise_place_mergeSort (⟨0, 0, .tempo micros⟩ :: s.written)
  exact (hsorted.imp TimedEvent.tick_le_of_place_le).filter _

theorem ne_tempo_of_mem_written {e : TimedEvent} (h : e ∈ s.written) (micros : UInt32) :
    e.event ≠ .tempo micros := by
  obtain ⟨⟨t, k⟩, -, he⟩ := List.mem_flatMap.1 h
  obtain ⟨tick, p, rfl | rfl⟩ := Voice.exists_of_mem_written _ _ _ he
  · exact Event.noConfusion
  · exact Event.noConfusion

/-- The events of a timeline have room in a file, if the data bytes of the notes have. -/
theorem fits_of_timeline (h : s.timeline = .ok events)
    (hdata : ∀ e ∈ events, ∀ b ∈ e.event.data, b ≤ 127) : ∀ e ∈ events, e.event.Fits := by
  obtain ⟨micros, hmicros, rfl⟩ := timeline_eq_cons h
  intro e he
  refine ⟨hdata e he, ?_⟩
  intro m hm
  -- the only tempo is the one in front
  rcases List.mem_cons.1 he with rfl | he
  · obtain rfl := Event.tempo.inj hm
    exact toNat_microsPerQuarter?_le hmicros
  · exact absurd hm (ne_tempo_of_mem_written (List.mem_mergeSort.1 he) m)

/-! ## Sheets of songs -/

/-- The sheet that the events of a song are collected on. -/
def sheet (s : Song) (events : List TimedEvent) : Sheet :=
  .ofEvents (s.trackCount + 1) s.ticksPerQuarter events

/-- The file is made from the timeline, and fails for the same reasons or for its number of tracks. -/
theorem midi_eq_ok_iff :
    s.midi = .ok bytes ↔ ∃ events, s.timeline = .ok events ∧ (s.sheet events).file? = .ok bytes := by
  rw [midi, bind_eq_ok_iff]
  rfl

theorem ticksPerQuarter_sheet : (s.sheet events).ticksPerQuarter = s.ticksPerQuarter :=
  Sheet.ticksPerQuarter_ofEvents

theorem trackCount_sheet (h : s.timeline = .ok events) :
    (s.sheet events).trackCount = s.trackCount + 1 :=
  Sheet.trackCount_ofEvents (track_lt_of_timeline h)

/-- Each track of the sheet is a part of the timeline, which is in order already. -/
theorem bodies_sheet (h : s.timeline = .ok events) :
    (s.sheet events).bodies = (List.range (s.trackCount + 1)).map fun k =>
      deltaTimed 0 ((events.filter (·.track == k)).map TimedEvent.entry) ++ endOfTrack :=
  Sheet.bodies_ofEvents (track_lt_of_timeline h) (pairwise_tick_filter h)

/-! ## Reading back -/

/-- What a file has room for. -/
structure Transcribable (s : Song) (events : List TimedEvent) : Prop where
  /-- The top bit of the resolution has another meaning. -/
  resolution : s.ticksPerQuarter < 0x8000
  data : ∀ e ∈ events, ∀ b ∈ e.event.data, b ≤ 127
  gaps (track : Nat) : ∀ gap ∈ gaps 0 (events.filter (·.track == track)), gap < 2 ^ 28
  bodies : ∀ body ∈ (s.sheet events).bodies, body.length < 2 ^ 32

/-- A song that can be transcribed leaves room for its events. -/
theorem Transcribable.hasRoom (h : s.timeline = .ok events) (hroom : s.Transcribable events) :
    HasRoom (s.trackCount + 1) events where
  track := track_lt_of_timeline h
  fits := fits_of_timeline h hroom.data
  ascending := pairwise_tick_filter h
  gaps := hroom.gaps

/-- **A song comes back from its file:** its resolution, its tracks and one more for the tempo, and its
timeline, track by track and otherwise in its own order. -/
theorem inspect_midi (h : s.timeline = .ok events) (hmidi : s.midi = .ok bytes)
    (hroom : s.Transcribable events) :
    inspect bytes = .ok ⟨s.ticksPerQuarter, s.tracks.length + 1,
      events.mergeSort fun a b => a.track ≤ b.track⟩ := by
  obtain ⟨_, hevents, hfile⟩ := midi_eq_ok_iff.1 hmidi
  obtain rfl : events = _ := Except.ok.inj (h.symm.trans hevents)
  exact Sheet.inspect_ofEvents (hroom.hasRoom h) hfile hroom.resolution hroom.bodies

/-- The conditions, checked one by one. -/
theorem transcribable_duet : duet.Transcribable duetTimeline := by
  refine ⟨by decide, ?_, ?_, ?_⟩
  · have hdata : duetTimeline.all (fun e => e.event.data.all fun b => decide (b ≤ 127)) = true := by
      decide
    intro e he b hb
    exact of_decide_eq_true (List.all_eq_true.1 (List.all_eq_true.1 hdata e he) b hb)
  · -- no gap is larger than the latest tick
    intro track gap hgap
    obtain ⟨e, he, hle⟩ := exists_tick_of_mem_gaps hgap
    have hticks : ∀ e ∈ duetTimeline, e.tick.toNat < 2 ^ 28 := by decide
    exact Nat.lt_of_le_of_lt hle (hticks e (List.mem_filter.1 he).1)
  · intro body hbody
    rw [bodies_sheet timeline_duet] at hbody
    have hlengths : ∀ body ∈ (List.range 3).map fun k =>
        deltaTimed 0 ((duetTimeline.filter (·.track == k)).map TimedEvent.entry) ++ endOfTrack,
        body.length < 2 ^ 32 := by
      decide +kernel
    exact hlengths body hbody

/-- The duet is read back note by note, a pitch twice in a chord and a chord of no length among them. -/
theorem inspect_midi_duet :
    ∃ bytes, duet.midi = .ok bytes ∧ inspect bytes = .ok ⟨120, 3,
      [⟨0, 0, .tempo 500000⟩, ⟨1, 0, .noteOn 60 64⟩, ⟨1, 0, .noteOn 60 64⟩, ⟨1, 120, .noteOn 60 64⟩,
        ⟨1, 120, .noteOn 62 64⟩, ⟨1, 120, .noteOff 60 64⟩, ⟨1, 120, .noteOff 60 64⟩,
        ⟨1, 120, .noteOff 60 64⟩, ⟨1, 360, .noteOff 62 64⟩, ⟨2, 120, .noteOn 52 100⟩,
        ⟨2, 240, .noteOff 52 100⟩]⟩ := by
  have hfile := Sheet.file?_eq_ok_iff.2 ⟨(by rw [trackCount_sheet timeline_duet]; decide), rfl⟩
  have hmidi := midi_eq_ok_iff.2 ⟨duetTimeline, timeline_duet, hfile⟩
  refine ⟨_, hmidi, ?_⟩
  rw [inspect_midi timeline_duet hmidi transcribable_duet]
  -- sorting by track is not evaluated by the kernel
  exact congrArg (fun events => Except.ok (Inspection.mk 120 3 events)) (by cbv)

end Song

end Melody
