import Melody.Proofs.Float.Amount
import Melody.Proofs.Timeline.Order

/-!
# Starts and ends of notes

At no moment of a timeline have more notes of a pitch ended on a track than have started there, and in the
end all have ended.

## The architecture

* **`tickAt_le`**: ticks keep the order of places in time, so a chord that takes no less than nothing does
  not end before it starts. Places are amounts (`Decimal.IsAmount`), and so nothing is assumed of floats.
* **`Paired`** says of events in any order that up to every place fewer have ended than have started before
  it. Written notes are paired one by one, and pairing adds up (**`paired_written`**).
* **`Paired.countP_le`** turns this into a statement on prefixes, for events in the order of their places.
-/

namespace Melody

open Midi Decimal

/-! ## Ticks -/

/-- The tick of a position is the nearest whole number, if that is a word. -/
theorem tickAt_eq_ok_iff {ticksPerQuarter : UInt16} {position : Float} {tick : UInt32} :
    tickAt ticksPerQuarter position = .ok tick ↔
      nearestInt? (ticksPerQuarter.toFloat * position) = some (tick.toNat : Int) := by
  have htick : tick.toNat < 4294967296 := tick.toNat_lt
  unfold tickAt
  refine ⟨?_, ?_⟩
  · intro h
    split at h
    · cases h
    · next k hk =>
      split at h
      · next hrange =>
        cases h
        -- in range, the tick is the rounded product itself
        have hlt : k.toNat < 4294967296 := by
          simp only [UInt32.size] at hrange
          omega
        rw [hk, UInt32.toNat_ofNat_of_lt' hlt]
        congr 1
        omega
      · cases h
  · intro h
    rw [h]
    dsimp only
    rw [if_pos ⟨by omega, by simp only [UInt32.size]; omega⟩]
    simp

theorem finite_of_tickAt {ticksPerQuarter : UInt16} {position : Float} {tick : UInt32}
    (h : tickAt ticksPerQuarter position = .ok tick) :
    Dyadic.ofFloat? (ticksPerQuarter.toFloat * position) ≠ none := by
  intro hnone
  rw [tickAt_eq_ok_iff, nearestInt?, hnone] at h
  cases h

/-- The tick of a place, by the units of the place. -/
theorem toNat_of_tickAt {ticksPerQuarter : UInt16} {position : Float} {u : Nat} {tick : UInt32}
    (hposition : IsAmount position u) (h : tickAt ticksPerQuarter position = .ok tick) :
    tick.toNat = roundDiv .up (roundUnits (ticksPerQuarter.toNat * u)) unitsOfOne := by
  have hproduct := hposition.toFloat_mul ticksPerQuarter (finite_of_tickAt h)
  rw [tickAt_eq_ok_iff, hproduct.nearestInt?] at h
  exact (Int.ofNat.inj (Option.some.inj h)).symm

/-- A later place has no earlier tick. -/
theorem tickAt_le {ticksPerQuarter : UInt16} {x y : Float} {u v : Nat} {a b : UInt32}
    (hx : IsAmount x u) (hy : IsAmount y v) (huv : u ≤ v) (ha : tickAt ticksPerQuarter x = .ok a)
    (hb : tickAt ticksPerQuarter y = .ok b) : a ≤ b := by
  rw [UInt32.le_iff_toNat_le, toNat_of_tickAt hx ha, toNat_of_tickAt hy hb]
  apply roundDiv_mono
  apply roundUnits_mono
  exact Nat.mul_le_mul_left _ huv

theorem exists_isAmount_of_isPlayable {length : Float} (h : isPlayable length = true) :
    ∃ u, IsAmount length u := by
  unfold isPlayable at h
  rw [Bool.and_eq_true, decide_eq_true_eq] at h
  exact exists_isAmount h.1 h.2

/-! ## Pairing -/

namespace Midi

namespace TimedEvent

/-- Whether an event starts a note of a pitch on a track. -/
def starts (track : Nat) (key : UInt8) (e : TimedEvent) : Bool :=
  e.track == track && match e.event with
    | .noteOn k _ => k == key
    | _ => false

/-- Whether an event ends a note of a pitch on a track. -/
def ends (track : Nat) (key : UInt8) (e : TimedEvent) : Bool :=
  e.track == track && match e.event with
    | .noteOff k _ => k == key
    | _ => false

end TimedEvent

/-- At every moment no more notes of a pitch have ended on a track than have started there, and in the end
all of them have ended. -/
structure Balanced (events : List TimedEvent) : Prop where
  never_ahead (moment : List TimedEvent) (h : moment <+: events) (track : Nat) (key : UInt8) :
    moment.countP (·.ends track key) ≤ moment.countP (·.starts track key)
  all_ended (track : Nat) (key : UInt8) :
    events.countP (·.ends track key) = events.countP (·.starts track key)

/-- As many notes end as start, and of those that end up to a place as many start before it. The order of
the list plays no part. -/
structure Paired (events : List TimedEvent) : Prop where
  led (place : Nat ×ₗ Nat ×ₗ Nat) (track : Nat) (key : UInt8) :
    events.countP (fun e => e.ends track key && decide (e.place ≤ place)) ≤
      events.countP fun e => e.starts track key && decide (e.place < place)
  matched (track : Nat) (key : UInt8) :
    events.countP (·.ends track key) = events.countP (·.starts track key)

variable {l l' : List TimedEvent}

theorem paired_nil : Paired [] := by
  refine ⟨?_, ?_⟩
  · simp
  · simp

theorem Paired.append (h : Paired l) (h' : Paired l') : Paired (l ++ l') := by
  refine ⟨?_, ?_⟩
  · intro place track key
    rw [List.countP_append, List.countP_append]
    exact Nat.add_le_add (h.led place track key) (h'.led place track key)
  · intro track key
    rw [List.countP_append, List.countP_append, h.matched, h'.matched]

/-- Pairing does not look at the order of the list: places are compared instead. -/
theorem Paired.perm (h : Paired l) (hperm : l.Perm l') : Paired l' := by
  refine ⟨?_, ?_⟩
  · intro place track key
    rw [← hperm.countP_eq, ← hperm.countP_eq]
    exact h.led place track key
  · intro track key
    rw [← hperm.countP_eq, ← hperm.countP_eq]
    exact h.matched track key

theorem paired_flatMap {α : Type} {items : List α} {f : α → List TimedEvent}
    (h : ∀ a ∈ items, Paired (f a)) : Paired (items.flatMap f) := by
  induction items with
  | nil => exact paired_nil
  | cons a rest ih =>
    rw [List.flatMap_cons]
    rw [List.forall_mem_cons] at h
    exact h.1.append (ih h.2)

theorem paired_tempo (track : Nat) (tick micros : UInt32) : Paired [⟨track, tick, .tempo micros⟩] := by
  refine ⟨?_, ?_⟩
  · simp [TimedEvent.ends]
  · simp [TimedEvent.ends, TimedEvent.starts]

/-- In order of place, pairing holds at every moment: what has ended by the last place of a prefix has
started before it, and so within the prefix. -/
theorem Paired.countP_le (h : Paired l) (hsorted : l.Pairwise fun a b => a.place ≤ b.place)
    {moment : List TimedEvent} (hmoment : moment <+: l) (track : Nat) (key : UInt8) :
    moment.countP (·.ends track key) ≤ moment.countP (·.starts track key) := by
  obtain ⟨later, rfl⟩ := hmoment
  rcases List.eq_nil_or_concat moment with rfl | ⟨init, last, rfl⟩
  · simp
  · rw [List.concat_eq_append] at hsorted h ⊢
    rw [List.pairwise_append] at hsorted
    obtain ⟨hwithin, -, hacross⟩ := hsorted
    rw [List.pairwise_append] at hwithin
    -- no event of the prefix stands behind the last one, and none of the others in front of it
    have hupto : ∀ e ∈ init ++ [last], e.place ≤ last.place := by
      intro e he
      rcases List.mem_append.1 he with he | he
      · exact hwithin.2.2 e he last (by simp)
      · rw [List.mem_singleton.1 he]
    have hbehind : ∀ e ∈ later, last.place ≤ e.place := by
      intro e he
      exact hacross last (by simp) e he
    calc (init ++ [last]).countP (·.ends track key)
        = (init ++ [last]).countP fun e => e.ends track key && decide (e.place ≤ last.place) := by
          apply List.countP_congr
          intro e he
          simp [hupto e he]
      _ ≤ ((init ++ [last]) ++ later).countP
            fun e => e.ends track key && decide (e.place ≤ last.place) := by
          exact (List.prefix_append _ later).sublist.countP_le
      _ ≤ ((init ++ [last]) ++ later).countP
            fun e => e.starts track key && decide (e.place < last.place) := h.led ..
      _ = (init ++ [last]).countP fun e => e.starts track key && decide (e.place < last.place) := by
          rw [List.countP_append, Nat.add_eq_left, List.countP_eq_zero]
          intro e he
          simp [hbehind e he]
      _ ≤ (init ++ [last]).countP (·.starts track key) := by
          apply List.countP_mono_left
          intro e _ he
          exact (Bool.and_eq_true_iff.1 he).1

/-- Events in the order of their places are balanced when they are paired. -/
theorem Paired.balanced (h : Paired l) (hsorted : l.Pairwise fun a b => a.place ≤ b.place) :
    Balanced l := by
  refine ⟨?_, h.matched⟩
  intro moment hmoment track key
  exact h.countP_le hsorted hmoment track key

end Midi

/-! ## Written notes -/

namespace Voice

variable {v : Voice} {cursor : Float} {chords : List Chord}

/-- The start of a pitch stands in front of its end, also where both have one tick. -/
theorem paired_noteEvents {start stop : UInt32} (h : start ≤ stop) (p : Pitch) :
    Paired (v.noteEvents start stop p) := by
  have hplace : TimedEvent.place ⟨v.track, start, .noteOn (v.key p) v.velocity⟩ <
      TimedEvent.place ⟨v.track, stop, .noteOff (v.key p) v.velocity⟩ := by
    rw [UInt32.le_iff_toNat_le] at h
    unfold TimedEvent.place
    rw [Prod.Lex.toLex_lt_toLex]
    rcases Nat.lt_or_eq_of_le h with hlt | heq
    · exact .inl hlt
    · -- at one tick the rank decides
      refine .inr ⟨heq, ?_⟩
      rw [Prod.Lex.toLex_lt_toLex]
      exact .inr ⟨rfl, Nat.one_lt_two⟩
  unfold noteEvents
  refine ⟨?_, ?_⟩
  · intro place track key
    -- an end up to a place needs a start before it, and that is in front of the end
    simp only [List.countP_cons, List.countP_nil, TimedEvent.starts, TimedEvent.ends]
    by_cases hkey : (v.track == track && v.key p == key) = true
    · by_cases hstop : TimedEvent.place ⟨v.track, stop, .noteOff (v.key p) v.velocity⟩ ≤ place
      · have hstart := lt_of_lt_of_le hplace hstop
        simp [hkey, hstop, hstart]
      · simp [hstop]
    · simp [hkey]
  · intro track key
    simp [List.countP_cons, TimedEvent.starts, TimedEvent.ends]

/-- The place behind the first chord is an amount as well, and its tick is no earlier. -/
theorem Fits.next {c : Chord} {u : Nat} (hcursor : IsAmount cursor u) (h : v.Fits cursor (c :: chords)) :
    ∃ w, IsAmount (cursor + c.length.value) w ∧
      v.tick cursor (c :: chords) 0 ≤ v.tick (cursor + c.length.value) chords 0 := by
  obtain ⟨⟨hplayable, hstart, hstop, -⟩, -⟩ := (v.fits_cons_iff cursor c chords).1 h
  obtain ⟨w, hlength⟩ := exists_isAmount_of_isPlayable hplayable
  have hnext := hcursor.add hlength (ofFloat?_ne_none_of_mul (finite_of_tickAt hstop))
  exact ⟨_, hnext, tickAt_le hcursor hnext (hcursor.le_add w) hstart hstop⟩

/-- Chords that fit are written in pairs. -/
theorem paired_written {u : Nat} (hcursor : IsAmount cursor u) (h : v.Fits cursor chords) :
    Paired (v.written cursor chords) := by
  induction chords generalizing cursor u with
  | nil => exact paired_nil
  | cons c rest ih =>
    obtain ⟨w, hnext, hle⟩ := h.next hcursor
    rw [written_cons]
    refine Paired.append (paired_flatMap ?_) (ih hnext ((v.fits_cons_iff cursor c rest).1 h).2)
    intro p _
    exact paired_noteEvents hle p

end Voice

namespace Song

variable {s : Song} {events : List TimedEvent}

/-- Everything that is written of a song is paired, since each note is. -/
theorem paired_written (h : ∀ t ∈ s.tracks, t.Fits s.ticksPerQuarter) : Paired s.written := by
  apply paired_flatMap
  intro numbered hnumbered
  have hfits := h numbered.1 (List.fst_mem_of_mem_zipIdx hnumbered)
  exact Voice.paired_written isAmount_zero (hfits.chords numbered.2)

/-- **A timeline is balanced:** no note ends before it has started, and none is left sounding. -/
theorem balanced_timeline (h : s.timeline = .ok events) : Balanced events := by
  obtain ⟨micros, -, hfits, rfl⟩ := timeline_eq_ok_iff.1 h
  have hpaired := (paired_tempo 0 0 micros).append (paired_written hfits)
  apply Paired.balanced
  · exact hpaired.perm (List.mergeSort_perm _ _).symm
  · exact TimedEvent.pairwise_place_mergeSort _

/-- Four events in, all three notes of a pitch that is struck three times are sounding. -/
theorem balanced_timeline_duet :
    Balanced duetTimeline ∧
      (duetTimeline.take 4).countP (·.starts 1 60) = 3 ∧ (duetTimeline.take 4).countP (·.ends 1 60) = 0 :=
  ⟨balanced_timeline timeline_duet, by decide, by decide⟩

end Song

end Melody
