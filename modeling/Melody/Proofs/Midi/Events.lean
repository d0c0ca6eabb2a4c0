import Melody.Proofs.Midi.Container
import Melody.Proofs.StableSort

/-!
# Events collected on a sheet

Events are put on the tracks that they name, and the file of the sheet gives them back track by track. They
may come from a song or from another file; all that counts is that a file has room for them.

## The architecture

* **`Sheet.ofEvents`** is the sheet that events are collected on. Its tracks hold the events that name them
  (**`entries_ofEvents`**).
* **`HasRoom`** says what is asked of the events, and **`bodies_ofEvents`** what the bodies of their tracks are.
* **`numberedEvents_ofEvents`**: the bodies read one after the other, and **`inspect_ofEvents`**: the file.
-/

namespace Melody.Midi

open StableSort

/-- The events of tracks that are made by number. Induction over the number of tracks, the first one taken
off. -/
theorem numberedEvents_map_range (body : Nat → List UInt8) (n track : Nat) :
    numberedEvents track ((List.range n).map body) =
      (List.range n).flatMap fun k => trackEvents (track + k) (body k) := by
  -- the first body is taken off in front, and the numbers of the others move up by one
  induction n generalizing body track with
  | zero => rfl
  | succ n ih =>
    rw [List.range_succ_eq_map, List.map_cons, List.map_map, numberedEvents, ih, List.flatMap_cons,
      List.flatMap_map]
    simp only [Function.comp_apply, Nat.succ_eq_add_one, Nat.add_zero]
    congr 3
    funext k
    rw [Nat.add_right_comm, Nat.add_assoc]

/-- Events that a file of a number of tracks has room for, those of each track in order of ticks. -/
structure HasRoom (trackCount : Nat) (events : List TimedEvent) : Prop where
  track : ∀ e ∈ events, e.track < trackCount
  fits : ∀ e ∈ events, e.event.Fits
  ascending (track : Nat) : (events.filter (·.track == track)).Pairwise fun a b => a.tick ≤ b.tick
  gaps (track : Nat) : ∀ gap ∈ gaps 0 (events.filter (·.track == track)), gap < 2 ^ 28

namespace Sheet

variable {trackCount : Nat} {ticksPerQuarter : UInt16} {events : List TimedEvent}

/-- The sheet that events are collected on, with some tracks to begin with. -/
def ofEvents (trackCount : Nat) (ticksPerQuarter : UInt16) (events : List TimedEvent) : Sheet :=
  events.foldl addEvent (blank trackCount ticksPerQuarter)

theorem ticksPerQuarter_ofEvents :
    (ofEvents trackCount ticksPerQuarter events).ticksPerQuarter = ticksPerQuarter := by
  rw [ofEvents, foldl_addEvent, ticksPerQuarter_record]
  rfl

/-- Adding events on tracks that there are does not make more tracks. -/
theorem trackCount_ofEvents (h : ∀ e ∈ events, e.track < trackCount) :
    (ofEvents trackCount ticksPerQuarter events).trackCount = trackCount := by
  rw [ofEvents, foldl_addEvent, trackCount_record]
  · exact trackCount_blank _ _
  · intro c hc
    obtain ⟨e, he, rfl⟩ := List.mem_map.1 hc
    rw [trackCount_blank]
    exact h e he

/-- A track holds its own events, in the order they were added in. -/
theorem entries_ofEvents (k : Nat) :
    (ofEvents trackCount ticksPerQuarter events).entries k =
      (events.filter (·.track == k)).map TimedEvent.entry := by
  rw [ofEvents, entries_foldl_addEvent, entries_blank, List.nil_append]

/-- The events of a track are in order already, so writing them moves none. -/
theorem bodies_ofEvents (htrack : ∀ e ∈ events, e.track < trackCount)
    (hascending : ∀ k, (events.filter (·.track == k)).Pairwise fun a b => a.tick ≤ b.tick) :
    (ofEvents trackCount ticksPerQuarter events).bodies = (List.range trackCount).map fun k =>
      deltaTimed 0 ((events.filter (·.track == k)).map TimedEvent.entry) ++ endOfTrack := by
  rw [bodies, trackCount_ofEvents htrack]
  apply List.map_congr_left
  intro k _
  rw [entries_ofEvents, trackBody_of_sorted]
  exact List.pairwise_map.2 (hascending k)

/-- The tracks of the sheet are read back one after the other, each with its events. -/
theorem numberedEvents_ofEvents (h : HasRoom trackCount events) :
    numberedEvents 0 (ofEvents trackCount ticksPerQuarter events).bodies =
      (List.range trackCount).flatMap fun k => events.filter (·.track == k) := by
  -- each track is read back by itself
  have htrack (k : Nat) :
      trackEvents k
        (deltaTimed 0 ((events.filter (·.track == k)).map TimedEvent.entry) ++ endOfTrack) =
          events.filter (·.track == k) := by
    apply trackEvents_deltaTimed
    · intro e he
      exact beq_iff_eq.1 (List.mem_filter.1 he).2
    · intro e he
      exact h.fits e (List.mem_filter.1 he).1
    · exact h.ascending k
    · exact h.gaps k
  rw [bodies_ofEvents h.track h.ascending, numberedEvents_map_range]
  simp only [Nat.zero_add, htrack]

/-- Events that a file has room for are read back from it track by track, and otherwise in their own order. -/
theorem inspect_ofEvents {bytes : List UInt8} (h : HasRoom trackCount events)
    (hfile : (ofEvents trackCount ticksPerQuarter events).file? = .ok bytes)
    (hdivision : ticksPerQuarter < 0x8000)
    (hbodies : ∀ body ∈ (ofEvents trackCount ticksPerQuarter events).bodies, body.length < 4294967296) :
    inspect bytes = .ok ⟨ticksPerQuarter, trackCount, events.mergeSort fun a b => a.track ≤ b.track⟩ := by
  have hread := inspect_of_file? hfile (by rw [ticksPerQuarter_ofEvents]; exact hdivision) hbodies
  -- the bodies give track after track, which is what a stable sort by track gives
  rw [hread, ticksPerQuarter_ofEvents, trackCount_ofEvents h.track, numberedEvents_ofEvents h,
    mergeSort_by_number _ _ _ h.track]

end Sheet

end Melody.Midi
