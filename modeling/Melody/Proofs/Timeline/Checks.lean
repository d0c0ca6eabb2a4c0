import Melody.Midi.File
import Melody.Proofs.Float.Amount
import Melody.Proofs.Timeline.Pairing

/-!
# What a song is checked for

A song is played only if a number of things about it are in order, and otherwise it fails with the first of
them that is not. The things are known beforehand: they are a list, in reading order, and to look at one of
them nothing has to be played.

## The architecture

* **`Check`** is one of the things, with the error that it is reported by, and **`Song.checks`** is the list.
* **`Decides`** says that checks decide a result: it fails exactly as the first check that does not pass, and
  has a value if all pass. It is composed like the results are (**`Decides.bind`**, **`decides_mapM`**).
* The `decides` lemmas go through the layers of the timeline, from one byte to the song.
* **`Song.timeline_checked`** puts them together, with what passing means (**`Song.Playable`**) and with what a
  sink and a file get from a song that fails.
-/

namespace Melody

open Midi Decimal Outcome

/-! ## Checks -/

/-- Whether something is in order, and the error if it is not. -/
structure Check where
  passes : Bool
  fault : Error

namespace Check

/-- The error of the first check that does not pass. -/
def firstFault? (checks : List Check) : Option Error := (checks.find? (!·.passes)).map fault

theorem firstFault?_eq_none_iff {checks : List Check} :
    firstFault? checks = none ↔ ∀ c ∈ checks, c.passes = true := by
  simp [firstFault?]

/-- The first fault of two lists is that of the first list, if it has one. -/
theorem firstFault?_append (front back : List Check) :
    firstFault? (front ++ back) = (firstFault? front).or (firstFault? back) := by
  rw [firstFault?, List.find?_append, Option.map_or]
  rfl

/-- Checks decide a result that fails exactly as the first of them does that does not pass. -/
def Decides {α : Type} (checks : List Check) (result : Result α) : Prop :=
  ∀ e, result = .error e ↔ firstFault? checks = some e

section Decides

variable {α β : Type} {front back : List Check} {result : Result α} {next : α → Result β}

/-- A computation that is decided by its checks succeeds if they all pass. -/
theorem Decides.ok_iff (h : Decides front result) :
    (∃ a, result = .ok a) ↔ ∀ c ∈ front, c.passes = true := by
  rw [← firstFault?_eq_none_iff]
  cases result with
  | ok a =>
    refine iff_of_true ⟨a, rfl⟩ (Option.eq_none_iff_forall_ne_some.2 fun e he => ?_)
    exact nomatch (h e).2 he
  | error e =>
    have hfault := (h e).1 rfl
    simp [hfault]

theorem decides_ok (a : α) : Decides [] (.ok a) := by
  intro e
  simp [firstFault?]

theorem Decides.cons {c : Check} (h : Decides back result) (hc : c.passes = true) :
    Decides (c :: back) result := by
  intro e
  rw [h e, firstFault?, firstFault?, List.find?_cons_of_neg (by rw [hc]; decide)]

theorem decides_error {c : Check} (hc : c.passes = false) (back : List Check) :
    Decides (c :: back) (.error c.fault : Result α) := by
  intro e
  rw [firstFault?, List.find?_cons_of_pos (by rw [hc]; rfl), Option.map_some, Option.some.injEq,
    Except.error.injEq]

/-- A computation with one check. -/
theorem decides_singleton {c : Check} (hpass : c.passes = true → ∃ a, result = .ok a)
    (hfail : c.passes = false → result = .error c.fault) : Decides [c] result := by
  cases hc : c.passes with
  | true =>
    obtain ⟨a, rfl⟩ := hpass hc
    exact (decides_ok a).cons hc
  | false =>
    rw [hfail hc]
    exact decides_error hc []

/-- One computation after another: the checks of the second follow those of the first. -/
theorem Decides.bind (hfirst : Decides front result)
    (hnext : ∀ a, result = .ok a → Decides back (next a)) : Decides (front ++ back) (result >>= next) := by
  intro e
  rw [firstFault?_append]
  -- a fault of the first part is the first of all; otherwise the second part decides
  cases result with
  | error fault =>
    rw [(hfirst fault).1 rfl, Option.some_or, Option.some.injEq]
    exact Except.error.injEq fault e ▸ Iff.rfl
  | ok a =>
    have hnone : firstFault? front = none := firstFault?_eq_none_iff.2 (hfirst.ok_iff.1 ⟨a, rfl⟩)
    rw [hnone, Option.none_or]
    exact hnext a rfl e

/-- What is done with the result afterwards does not matter. -/
theorem Decides.bind_pure (hfirst : Decides front result) (f : α → β) :
    Decides front (result >>= fun a => pure (f a)) := by
  have h : Decides (front ++ []) (result >>= fun a => pure (f a)) :=
    hfirst.bind fun a _ => decides_ok (f a)
  rwa [List.append_nil] at h

/-- Over a list the checks are made element by element, in the order of the list. -/
theorem decides_mapM {checks : α → List Check} {f : α → Result β} {l : List α}
    (h : ∀ a ∈ l, Decides (checks a) (f a)) : Decides (l.flatMap checks) (l.mapM f) := by
  induction l with
  | nil => exact decides_ok []
  | cons a l ih =>
    rw [List.forall_mem_cons] at h
    rw [List.mapM_cons, List.flatMap_cons]
    exact h.1.bind fun b _ => (ih h.2).bind_pure (b :: ·)

end Decides

/-! ## Bytes and ticks -/

def byte (what : NoteByte) (value : Int) : Check :=
  ⟨decide (0 ≤ value ∧ value ≤ 255), .byteRange what value⟩

def length (c : Chord) : Check :=
  ⟨c.length.value.isFinite && decide (0 ≤ c.length.value), .invalidDuration c.length.value⟩

def tick (ticksPerQuarter : UInt16) (position : Float) : Check :=
  ⟨(nearestInt? (ticksPerQuarter.toFloat * position)).any fun tick => decide (0 ≤ tick ∧ tick ≤ 4294967295),
    .tickOverflow⟩

/-- A key or a velocity must be a byte. -/
theorem decides_noteByte (what : NoteByte) (value : Int) :
    Decides [byte what value] (noteByte what value) := by
  have hsize : (0 ≤ value ∧ value < UInt8.size) ↔ 0 ≤ value ∧ value ≤ 255 := by
    simp only [UInt8.size]
    omega
  refine decides_singleton ?_ ?_
  · intro h
    rw [noteByte, if_pos (hsize.2 (of_decide_eq_true h))]
    exact ⟨_, rfl⟩
  · intro h
    rw [noteByte, if_neg (mt hsize.1 (of_decide_eq_false h))]
    rfl

/-- A tick must be a number and a word. -/
theorem decides_tickAt (ticksPerQuarter : UInt16) (position : Float) :
    Decides [tick ticksPerQuarter position] (tickAt ticksPerQuarter position) := by
  have hsize (k : Int) : (0 ≤ k ∧ k < UInt32.size) ↔ 0 ≤ k ∧ k ≤ 4294967295 := by
    simp only [UInt32.size]
    omega
  unfold tick tickAt
  cases nearestInt? (ticksPerQuarter.toFloat * position) with
  -- a position that is no number has no tick at all
  | none => exact decides_singleton nofun fun _ => rfl
  | some k =>
    refine decides_singleton ?_ ?_
    · intro h
      dsimp only
      rw [if_pos ((hsize k).2 (of_decide_eq_true h))]
      exact ⟨_, rfl⟩
    · intro h
      dsimp only
      rw [if_neg (mt (hsize k).1 (of_decide_eq_false h))]

end Check

open Check

/-- A zero, of whatever sign, has a tick in every resolution. -/
theorem tickAt_of_isAmount_zero {position : Float} (h : IsAmount position 0) (ticksPerQuarter : UInt16) :
    tickAt ticksPerQuarter position = .ok 0 := by
  have hproduct : IsAmount (ticksPerQuarter.toFloat * position) 0 := by
    have hparts := holds_mul (isAmount_toFloat ticksPerQuarter) h
    rw [Nat.mul_zero, roundUnits_zero] at hparts
    exact isAmount_pack hparts (ofFloat?_pack_ne_none hparts
      (Nat.mul_pos (Nat.two_pow_pos 53) (Nat.mul_pos topUnit_pos unitsOfOne_pos)))
  rw [tickAt_eq_ok_iff, hproduct.nearestInt?]
  simp [roundDiv, unitsOfOne_pos]

/-- The first position of a track is such a zero. -/
theorem tickAt_zero (ticksPerQuarter : UInt16) : tickAt ticksPerQuarter 0 = .ok 0 :=
  tickAt_of_isAmount_zero isAmount_zero ticksPerQuarter

/-! ## Songs -/

/-- What a chord is checked for whose end is at a position. Its start was the end of the chord before it. -/
def Chord.checks (ticksPerQuarter : UInt16) (transposition : Int) (stop : Float) (c : Chord) :
    List Check :=
  Check.length c :: Check.tick ticksPerQuarter stop ::
    c.pitches.map fun p => Check.byte .pitch (p.value + transposition)

/-- What chords are checked for that follow one another from a position on. -/
def Chord.checksFrom (ticksPerQuarter : UInt16) (transposition : Int) (cursor : Float) :
    List Chord → List Check
  | [] => []
  | c :: rest =>
    let stop := cursor + c.length.value
    c.checks ticksPerQuarter transposition stop ++ checksFrom ticksPerQuarter transposition stop rest

def Track.checks (ticksPerQuarter : UInt16) (t : Track) : List Check :=
  Check.byte .velocity t.velocity.toInt ::
    Chord.checksFrom ticksPerQuarter (octaveWidth * t.octave.toInt) 0 t.chords

def Song.checks (s : Song) : List Check :=
  ⟨(microsPerQuarter? s.tempo).isSome, .invalidTempo s.tempo⟩ ::
    s.tracks.flatMap (Track.checks s.ticksPerQuarter)

namespace Voice

variable (v : Voice) {cursor : Float}

theorem decides_note (start stop : UInt32) (p : Pitch) :
    Decides [Check.byte .pitch (p.value + v.transposition)] (v.note start stop p) :=
  (decides_noteByte _ _).bind_pure _

/-- A chord is decided by its own checks where its start has a tick. -/
theorem decides_chord (c : Chord) (hstart : ∃ start, tickAt v.ticksPerQuarter cursor = .ok start) :
    Decides (c.checks v.ticksPerQuarter v.transposition (cursor + c.length.value))
      (v.chord cursor c) := by
  obtain ⟨start, hstart⟩ := hstart
  have hpitches (stop : UInt32) :
      Decides (c.pitches.map fun p => Check.byte .pitch (p.value + v.transposition))
        (c.pitches.mapM (v.note start stop)) := by
    rw [List.map_eq_flatMap]
    exact decides_mapM fun p _ => v.decides_note start stop p
  -- the length is checked first, then the tick behind the chord and then the keys
  by_cases hplay : isPlayable c.length.value = true
  · rw [v.chord_of_playable cursor c hplay, hstart]
    exact Decides.cons ((decides_tickAt v.ticksPerQuarter (cursor + c.length.value)).bind
      fun stop _ => (hpitches stop).bind_pure _) hplay
  · rw [v.chord_of_not_playable cursor c hplay]
    exact decides_error (c := Check.length c) (eq_false_of_ne_true hplay) _

/-- The end of a chord that was played is where the next one starts, and has a tick. -/
theorem decides_sounded {chords : List Chord}
    (hstart : ∃ start, tickAt v.ticksPerQuarter cursor = .ok start) :
    Decides (Chord.checksFrom v.ticksPerQuarter v.transposition cursor chords)
      (v.sounded cursor chords) := by
  induction chords generalizing cursor with
  | nil => exact decides_ok []
  | cons c rest ih =>
    refine (v.decides_chord c hstart).bind ?_
    rintro ⟨events, next⟩ hchord
    obtain ⟨-, -, stop, -, hstop, -, -, rfl⟩ := (v.chord_eq_ok_iff cursor c).1 hchord
    exact (ih ⟨stop, hstop⟩).bind_pure _

end Voice

/-- A track has its velocity checked and then its chords in their order. -/
theorem Track.decides_events (t : Track) (fileTrack : Nat) (ticksPerQuarter : UInt16) :
    Decides (t.checks ticksPerQuarter) (t.events fileTrack ticksPerQuarter) :=
  (decides_noteByte _ _).bind fun velocity _ =>
    Voice.decides_sounded ⟨fileTrack, ticksPerQuarter, octaveWidth * t.octave.toInt, velocity⟩
      ⟨0, tickAt_zero ticksPerQuarter⟩

namespace Song

theorem decides_trackEvents (ticksPerQuarter : UInt16) (fileTrack : Nat) (tracks : List Track) :
    Decides (tracks.flatMap (Track.checks ticksPerQuarter))
      (trackEvents ticksPerQuarter fileTrack tracks) := by
  induction tracks generalizing fileTrack with
  | nil => exact decides_ok []
  | cons t rest ih =>
    exact (t.decides_events fileTrack ticksPerQuarter).bind fun events _ =>
      (ih (fileTrack + 1)).bind_pure _

/-- The tempo comes before all tracks. With this the whole timeline is decided by one list of checks. -/
theorem decides_timeline (s : Song) : Decides s.checks s.timeline := by
  unfold timeline checks
  cases microsPerQuarter? s.tempo with
  | none => exact decides_error rfl _
  | some micros => exact ((decides_trackEvents _ _ _).bind_pure _).cons rfl

/-! ## What passing means -/

/-- What a song has to be for its events: a tempo that can be written, velocities and pitches that are data
bytes, lengths that are finite and not negative, and a tick behind every chord. -/
structure Playable (s : Song) : Prop where
  tempo : ∃ micros, microsPerQuarter? s.tempo = some micros
  velocities : ∀ t ∈ s.tracks, 0 ≤ t.velocity.toInt ∧ t.velocity.toInt ≤ 255
  lengths : ∀ t ∈ s.tracks, ∀ c ∈ t.chords, c.length.value.isFinite = true ∧ 0 ≤ c.length.value
  ticks : ∀ t ∈ s.tracks, ∀ j < t.chords.length,
    ∃ tick, nearestInt? (s.ticksPerQuarter.toFloat * cursorBehind 0 (t.chords.take (j + 1))) = some tick ∧
      0 ≤ tick ∧ tick ≤ 4294967295
  pitches : ∀ t ∈ s.tracks, ∀ c ∈ t.chords, ∀ p ∈ c.pitches,
    0 ≤ p.value + octaveWidth * t.octave.toInt ∧ p.value + octaveWidth * t.octave.toInt ≤ 255

end Song

theorem Check.passes_tick_iff {ticksPerQuarter : UInt16} {position : Float} :
    (Check.tick ticksPerQuarter position).passes = true ↔
      ∃ tick, nearestInt? (ticksPerQuarter.toFloat * position) = some tick ∧
        0 ≤ tick ∧ tick ≤ 4294967295 := by
  rw [Check.tick, Option.any_eq_true]
  simp only [decide_eq_true_eq]

/-- Chords are in order when their lengths and pitches are, and the positions behind them. -/
theorem Chord.passes_checksFrom_iff {ticksPerQuarter : UInt16} {transposition : Int} {cursor : Float}
    {chords : List Chord} :
    (∀ c ∈ checksFrom ticksPerQuarter transposition cursor chords, c.passes = true) ↔
      (∀ c ∈ chords, c.length.value.isFinite = true ∧ 0 ≤ c.length.value) ∧
      (∀ j < chords.length, ∃ tick,
        nearestInt? (ticksPerQuarter.toFloat * cursorBehind cursor (chords.take (j + 1))) = some tick ∧
          0 ≤ tick ∧ tick ≤ 4294967295) ∧
      ∀ c ∈ chords, ∀ p ∈ c.pitches, 0 ≤ p.value + transposition ∧ p.value + transposition ≤ 255 := by
  induction chords generalizing cursor with
  | nil => simp [checksFrom]
  | cons c rest ih =>
    -- the checks of the first chord, and those of the others from behind it
    simp only [checksFrom, checks, List.cons_append, List.forall_mem_cons, List.forall_mem_append, ih,
      Check.passes_tick_iff, List.forall_mem_map, List.length_cons, Nat.forall_lt_succ_left,
      List.take_succ_cons, List.take_zero, cursorBehind_cons, cursorBehind_nil, Check.length, Check.byte,
      Bool.and_eq_true, decide_eq_true_eq]
    constructor
    · rintro ⟨hlength, htick, hpitches, hlengths, hticks, hrest⟩
      exact ⟨⟨hlength, hlengths⟩, ⟨htick, hticks⟩, hpitches, hrest⟩
    · rintro ⟨⟨hlength, hlengths⟩, ⟨htick, hticks⟩, hpitches, hrest⟩
      exact ⟨hlength, htick, hpitches, hlengths, hticks, hrest⟩

namespace Song

variable {s : Song} {e : Error}

/-- The checks, taken together, are the conditions under which a song can be played. -/
theorem passes_checks_iff : (∀ c ∈ s.checks, c.passes = true) ↔ s.Playable := by
  simp only [checks, Track.checks, List.forall_mem_cons, List.forall_mem_flatMap,
    Chord.passes_checksFrom_iff, Option.isSome_iff_exists, Check.byte, decide_eq_true_eq]
  constructor
  · rintro ⟨htempo, h⟩
    exact ⟨htempo, fun t ht => (h t ht).1, fun t ht => (h t ht).2.1, fun t ht => (h t ht).2.2.1,
      fun t ht => (h t ht).2.2.2⟩
  · intro h
    exact ⟨h.tempo, fun t ht => ⟨h.velocities t ht, h.lengths t ht, h.ticks t ht, h.pitches t ht⟩⟩

/-! ## What a failing song leaves behind -/

/-- A sink gets the events in order, or nothing at all. -/
theorem run_emitInto {σ : Type} (s : Song) (add : σ → Nat → UInt32 → List UInt8 → σ) (sink : σ) :
    (s.emitInto add).run.run sink =
      match s.timeline with
      | .error e => (.error e, sink)
      | .ok events =>
        (.ok (), events.foldl (fun sink e => add sink e.track e.tick e.event.bytes) sink) := by
  unfold emitInto
  cases s.timeline with
  | error e => rfl
  | ok events =>
    show StateT.run (ExceptT.run (forIn events PUnit.unit _ >>= _)) sink = _
    -- the sink sees the events one by one, and nothing else fails
    induction events generalizing sink with
    | nil => rfl
    | cons e rest ih =>
      rw [List.forIn_cons]
      exact ih _

/-- The file of a song is made by handing its events to a sheet. -/
theorem midi_eq_emitInto (s : Song) :
    s.midi = (match (s.emitInto Sheet.add).run.run (.blank (s.trackCount + 1) s.ticksPerQuarter) with
      | (.error e, _) => .error e
      | (.ok (), sheet) => sheet.file?) := by
  rw [run_emitInto, midi]
  cases s.timeline with
  | error e => rfl
  | ok events => rfl

/-- **A song fails with the first thing that is not in order.** It has events exactly if everything is, its
error is that of the first check in reading order that does not pass, and then no sink has been given
anything and there is no file. -/
theorem timeline_checked (s : Song) :
    ((∃ events, s.timeline = .ok events) ↔ s.Playable) ∧
    (∀ e, s.timeline = .error e ↔ firstFault? s.checks = some e) ∧
    ∀ e, s.timeline = .error e → s.midi = .error e ∧
      ∀ (σ : Type) (add : σ → Nat → UInt32 → List UInt8 → σ) (sink : σ),
        (s.emitInto add).run.run sink = (.error e, sink) := by
  refine ⟨?_, s.decides_timeline, ?_⟩
  · rw [s.decides_timeline.ok_iff, passes_checks_iff]
  · intro e h
    -- the events are only written when all of them are there, so a fault leaves the sink alone
    have hsink (σ : Type) (add : σ → Nat → UInt32 → List UInt8 → σ) (sink : σ) :
        (s.emitInto add).run.run sink = (.error e, sink) := by
      rw [run_emitInto, h]
    refine ⟨?_, hsink⟩
    rw [midi_eq_emitInto, hsink]

/-- Several things are wrong at once. A rest of the first track runs past the last tick, in front of a pitch
that is far too high and of a length below zero, and the second track has no velocity for a byte. -/
def overrun : Song :=
  { blank 120 120 with
    tracks :=
      [⟨[⟨[⟨.c, 0, 0⟩], .ofFloat 1⟩, ⟨[], .ofFloat 40000000⟩, ⟨[⟨.c, 0, 2147483647⟩], .ofFloat (-1)⟩], 5, 64⟩,
        ⟨[], 5, 256⟩] }

/-- Of several faults the first in the order of the checks is reported: the tick behind the rest. -/
theorem timeline_checked_overrun :
    overrun.timeline = .error .tickOverflow ∧ ¬ overrun.Playable ∧ overrun.midi = .error .tickOverflow ∧
    (overrun.emitInto fun calls track tick bytes => calls ++ [(track, tick, bytes)]).run.run [] =
      (.error .tickOverflow, []) := by
  obtain ⟨hplayable, hfault, hnothing⟩ := timeline_checked overrun
  have h : overrun.timeline = .error .tickOverflow := (hfault _).2 (by decide +kernel)
  refine ⟨h, ?_, (hnothing _ h).1, (hnothing _ h).2 _ _ []⟩
  rw [← hplayable, h]
  nofun

end Song

end Melody
