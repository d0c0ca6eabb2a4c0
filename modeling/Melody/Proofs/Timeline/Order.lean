import Mathlib.Data.List.Permutation
import Mathlib.Data.Prod.Lex
import Melody.Proofs.StableSort
import Melody.Proofs.Timeline.Written

/-!
# The order of a timeline

A timeline is the written events of a song, complete and in one order: by tick, then by track, then tempo
before starts before ends. Events of one place keep their written order.

## The architecture

* **`TimedEvent.place`** is what events are sorted by, as one value of a linear order; `before` compares it
  (`before_iff_place_le`).
* **`timeline_eq_cons`**: the tempo stands in front, and the notes behind it are sorted among themselves.
* **`filter_timeline`**: a track of the file holds what the track of the song behind it has written, sorted,
  whatever the other tracks hold.
* **`completeAndOrdered_timeline`** puts this together.
-/

namespace Melody

open Midi Outcome StableSort

namespace Midi.TimedEvent

/-- The place of an event: its tick, then its track, then its rank. -/
def place (e : TimedEvent) : Nat ×ₗ Nat ×ₗ Nat := toLex (e.tick.toNat, toLex (e.track, e.event.rank))

/-- The order of the timeline is the lexicographic one of the places. -/
theorem before_iff_place_le {a b : TimedEvent} : a.before b = true ↔ a.place ≤ b.place := by
  unfold before place
  rw [Prod.Lex.toLex_le_toLex, Prod.Lex.toLex_le_toLex]
  simp only [Bool.or_eq_true, Bool.and_eq_true, decide_eq_true_eq, beq_iff_eq, UInt32.lt_iff_toNat_lt,
    ← UInt32.toNat_inj]

/-- So any two events are comparable, though different events may have one place. -/
theorem isPreorder_before : IsPreorder before := by
  refine ⟨?_, ?_⟩
  · intro a b c hab hbc
    rw [before_iff_place_le] at hab hbc ⊢
    exact hab.trans hbc
  · intro a b
    rw [Bool.or_eq_true, before_iff_place_le, before_iff_place_le]
    exact le_total _ _

theorem pairwise_place_mergeSort (l : List TimedEvent) :
    (l.mergeSort before).Pairwise fun a b => a.place ≤ b.place := by
  have h := List.pairwise_mergeSort isPreorder_before.trans isPreorder_before.total l
  exact h.imp before_iff_place_le.1

/-- The events of one place come out of the sort as they went in. -/
theorem filter_place_mergeSort (l : List TimedEvent) (place : Nat ×ₗ Nat ×ₗ Nat) :
    (l.mergeSort before).filter (fun e => decide (e.place = place)) =
      l.filter fun e => decide (e.place = place) := by
  apply filter_mergeSort_of_alike isPreorder_before
  intro a b ha hb
  rw [decide_eq_true_eq] at ha hb
  rw [before_iff_place_le, ha, hb]

/-- A tempo at the first tick of the first track may stand before everything. -/
theorem tempo_before (micros : UInt32) (e : TimedEvent) :
    before ⟨0, 0, .tempo micros⟩ e = true := by
  rw [before_iff_place_le]
  unfold place
  rw [Prod.Lex.toLex_le_toLex, Prod.Lex.toLex_le_toLex]
  simp only [Event.rank, UInt32.toNat_zero]
  omega

/-- A new track number for all events of a track changes nothing in their order. -/
theorem before_renumbered {a b : TimedEvent} (h : a.track = b.track) (k : Nat) :
    before { a with track := k } { b with track := k } = before a b := by
  simp [before, h]

end Midi.TimedEvent

namespace Song

variable {s : Song} {events : List TimedEvent}

/-- The tempo comes first, whatever the tracks are. -/
theorem timeline_eq_cons (h : s.timeline = .ok events) :
    ∃ micros, microsPerQuarter? s.tempo = some micros ∧
      events = ⟨0, 0, .tempo micros⟩ :: s.written.mergeSort TimedEvent.before := by
  obtain ⟨micros, hmicros, -, rfl⟩ := timeline_eq_ok_iff.1 h
  refine ⟨micros, hmicros, ?_⟩
  apply mergeSort_cons_of_le_all TimedEvent.isPreorder_before
  intro e _
  exact TimedEvent.tempo_before micros e

/-- The events of a track are sorted among themselves, since sorting is stable and the other tracks are only
left out. -/
theorem filter_timeline (h : s.timeline = .ok events) {i : Nat} {t : Track}
    (ht : s.tracks[i]? = some t) :
    events.filter (·.track == i + 1) =
      (t.written (i + 1) s.ticksPerQuarter).mergeSort TimedEvent.before := by
  obtain ⟨micros, -, rfl⟩ := timeline_eq_cons h
  rw [List.filter_cons_of_neg (by simp), filter_mergeSort TimedEvent.isPreorder_before, written]
  rw [show (fun e : TimedEvent => e.track == i + 1) = fun e => e.track == 1 + i from by
    rw [Nat.add_comm]]
  rw [filter_writtenFrom _ ht, Nat.add_comm]

/-- A track that fits can be played alone, in the settings of the song. -/
theorem timeline_alone (h : s.timeline = .ok events) {t : Track} (ht : t ∈ s.tracks) :
    ∃ solo, ({ s with tracks := [t] } : Song).timeline = .ok solo := by
  obtain ⟨micros, hmicros, hfits, -⟩ := timeline_eq_ok_iff.1 h
  refine ⟨_, timeline_eq_ok_iff.2 ⟨micros, hmicros, ?_, rfl⟩⟩
  intro u hu
  rw [List.mem_singleton.1 hu]
  exact hfits t ht

/-- What the events of a song are to be. -/
structure CompleteAndOrdered (s : Song) (events : List TimedEvent) : Prop where
  /-- They stand in the order of their places. -/
  ordered : events.Pairwise fun a b => a.place ≤ b.place
  /-- One tempo stands in front, at the first tick of the first track. Behind it stand the written notes,
  those of one place in written order. -/
  complete : ∃ micros notes, microsPerQuarter? s.tempo = some micros ∧
    events = ⟨0, 0, .tempo micros⟩ :: notes ∧
    notes.Perm s.written ∧
    ∀ place, notes.filter (fun e => decide (e.place = place)) =
      s.written.filter fun e => decide (e.place = place)
  /-- All ticks and data bytes of the written notes are exact. -/
  exact : ∀ t ∈ s.tracks, t.Fits s.ticksPerQuarter
  /-- A track of the file holds what its track of the song would put there if it were played alone. -/
  apart : ∀ i t, s.tracks[i]? = some t →
    ∃ solo, ({ s with tracks := [t] } : Song).timeline = .ok solo ∧
      events.filter (·.track == i + 1) =
        (solo.filter (·.track == 1)).map fun e => { e with track := i + 1 }

/-- **A timeline is complete and ordered:** for every track, every chord and every pitch one start at the tick
in front of the chord and one end at the tick behind it, next to one tempo, sorted by tick, track and rank. -/
theorem completeAndOrdered_timeline (h : s.timeline = .ok events) : s.CompleteAndOrdered events := by
  obtain ⟨micros, hmicros, hfits, hsorted⟩ := timeline_eq_ok_iff.1 h
  refine ⟨?_, ?_, hfits, ?_⟩
  · rw [hsorted]
    exact TimedEvent.pairwise_place_mergeSort _
  · obtain ⟨micros, hmicros, hevents⟩ := timeline_eq_cons h
    refine ⟨micros, _, hmicros, hevents, List.mergeSort_perm _ _, ?_⟩
    exact TimedEvent.filter_place_mergeSort s.written
  · intro i t ht
    obtain ⟨solo, hsolo⟩ := timeline_alone h (List.mem_of_getElem? ht)
    refine ⟨solo, hsolo, ?_⟩
    -- both sides are the sorted events of the track; alone it is the first behind the tempo
    have hown : solo.filter (·.track == 1) =
        (t.written 1 s.ticksPerQuarter).mergeSort TimedEvent.before :=
      filter_timeline hsolo (i := 0) rfl
    rw [filter_timeline h ht, hown]
    rw [List.map_mergeSort (s := TimedEvent.before), Track.written_renumbered]
    intro a ha b hb
    symm
    apply TimedEvent.before_renumbered
    rw [Track.track_of_mem_written ha, Track.track_of_mem_written hb]

/-- Two tracks that meet at one tick, with a pitch twice in a chord, a chord of no length and a rest. The
first track has the last word. -/
def duet : Song :=
  { blank 120 120 with
    tracks :=
      [⟨[⟨[⟨.c, 0, 0⟩, ⟨.b, 1, -1⟩], .ofFloat 1⟩, ⟨[⟨.c, 0, 0⟩], .ofFloat 0⟩,
          ⟨[⟨.d, 0, 0⟩], .ofFloat 2⟩], 5, 64⟩,
        ⟨[⟨[], .ofFloat 1⟩, ⟨[⟨.e, 0, 0⟩], .ofFloat 1⟩], 4, 100⟩] }

def duetTimeline : List TimedEvent :=
  [⟨0, 0, .tempo 500000⟩, ⟨1, 0, .noteOn 60 64⟩, ⟨1, 0, .noteOn 60 64⟩, ⟨1, 120, .noteOn 60 64⟩,
    ⟨1, 120, .noteOn 62 64⟩, ⟨1, 120, .noteOff 60 64⟩, ⟨1, 120, .noteOff 60 64⟩,
    ⟨1, 120, .noteOff 60 64⟩, ⟨2, 120, .noteOn 52 100⟩, ⟨2, 240, .noteOff 52 100⟩,
    ⟨1, 360, .noteOff 62 64⟩]

/-- The timeline of the duet, event by event. -/
theorem timeline_duet : duet.timeline = .ok duetTimeline := by
  obtain ⟨events, hevents⟩ := exists_eq_ok_of_isSome (r := duet.timeline) (by decide +kernel)
  obtain ⟨micros, hmicros, -, rfl⟩ := timeline_eq_ok_iff.1 hevents
  obtain rfl : (500000 : UInt32) = micros := by
    rw [show microsPerQuarter? duet.tempo = some 500000 from by decide +kernel] at hmicros
    exact Option.some.inj hmicros
  rw [show duet.written =
    [⟨1, 0, .noteOn 60 64⟩, ⟨1, 120, .noteOff 60 64⟩, ⟨1, 0, .noteOn 60 64⟩,
      ⟨1, 120, .noteOff 60 64⟩, ⟨1, 120, .noteOn 60 64⟩, ⟨1, 120, .noteOff 60 64⟩,
      ⟨1, 120, .noteOn 62 64⟩, ⟨1, 360, .noteOff 62 64⟩, ⟨2, 120, .noteOn 52 100⟩,
      ⟨2, 240, .noteOff 52 100⟩] from by decide +kernel] at hevents
  -- merging sorted lists is not evaluated by the kernel
  exact hevents.trans (congrArg Except.ok (by cbv))

/-- At the tick where the tracks meet, the first comes with its starts and then its ends, and the second
behind it. -/
theorem completeAndOrdered_timeline_duet : duet.CompleteAndOrdered duetTimeline :=
  completeAndOrdered_timeline timeline_duet

end Song

end Melody
