import Mathlib
import Melody.Proofs.Midi.Container
import Melody.Proofs.Outcome
import Melody.Proofs.StableSort

/-!
# The layout of a file

What stands in the file of a sheet, byte by byte, said of the recordings that were made and in whatever order
they came.

## The architecture

* **`Timed`** puts recorded entries in the order of their ticks, with the ticks that pass before each:
  **`timed_mergeSort`**. Added up again, these are the ticks (**`scanl_deltas`**), so that none is cut off.
* **`IsBody`** and **`IsFile`** say what the body of a track is and what a file of bodies is;
  **`isBody_trackBody`** and **`isFile_header_chunks`** are their proofs.
* **`trackCount_record_eq`** counts the tracks, **`mergeSort_tick_congr`** is why the order of recordings at
  different places does not matter.
* **`file?_record`** puts this together.
-/

namespace Melody.Midi

open StableSort

/-! ## Tracks -/

/-- Recorded entries in the order in which they are written, and the ticks in front of each. -/
structure Timed (recorded written : List Entry) (deltas : List Nat) : Prop where
  perm : written.Perm recorded
  ascending : written.Pairwise fun a b => a.tick ≤ b.tick
  stable (tick : UInt32) : written.filter (·.tick == tick) = recorded.filter (·.tick == tick)
  /-- The running sums of the deltas are the ticks, the first counted from zero. -/
  sums : deltas.scanl (· + ·) 0 = 0 :: written.map (·.tick.toNat)

/-- The body of a track on which some entries were recorded: each of them behind the ticks since the one
before, and then the end of the track. -/
def IsBody (recorded : List Entry) (body : List UInt8) : Prop :=
  ∃ written deltas, Timed recorded written deltas ∧
    body = (List.zipWith (fun delta e => Quantity.encode delta ++ e.bytes) deltas written).flatten ++
      [0x00, 0xFF, 0x2F, 0x00]

/-- The deltas add up to the ticks. Induction over the entries, each delta being taken from the tick before.
-/
theorem scanl_deltas {last : Nat} {entries : List Entry} (hlast : ∀ e ∈ entries, last ≤ e.tick.toNat)
    (hascending : entries.Pairwise fun a b => a.tick ≤ b.tick) :
    (deltas last entries).scanl (· + ·) last = last :: entries.map (·.tick.toNat) := by
  induction entries generalizing last with
  | nil => exact List.scanl_nil
  | cons e rest ih =>
    rw [List.forall_mem_cons] at hlast
    rw [List.pairwise_cons] at hascending
    have hnext : ∀ e' ∈ rest, e.tick.toNat ≤ e'.tick.toNat := hascending.1
    -- a delta added to the tick it counts from is the next tick: subtraction loses nothing in ascending order
    rw [deltas, List.scanl_cons, Nat.add_sub_cancel' hlast.1, ih hnext hascending.2]
    rfl

/-- A track is the codes of its deltas, each followed by the bytes of its event. -/
theorem deltaTimed_eq (last : Nat) (entries : List Entry) :
    deltaTimed last entries =
      (List.zipWith (fun delta e => Quantity.encode delta ++ e.bytes) (deltas last entries)
        entries).flatten := by
  induction entries generalizing last with
  | nil => rfl
  | cons e rest ih => rw [deltaTimed, ih, deltas, List.zipWith_cons_cons, List.flatten_cons]

/-- The ticks order the entries of a track, those of one tick being left alike. -/
theorem isPreorder_tick : IsPreorder fun a b : Entry => decide (a.tick ≤ b.tick) :=
  isPreorder_of_number fun e : Entry => e.tick.toNat

/-- The sorted entries are those recorded, in the order of their ticks, and in their own order within a tick.
-/
theorem timed_mergeSort (recorded : List Entry) :
    Timed recorded (recorded.mergeSort fun a b => a.tick ≤ b.tick)
      (deltas 0 (recorded.mergeSort fun a b => a.tick ≤ b.tick)) := by
  have hsorted := List.pairwise_mergeSort isPreorder_tick.trans isPreorder_tick.total recorded
  have hascending := hsorted.imp fun h => of_decide_eq_true h
  refine ⟨List.mergeSort_perm _ _, hascending, ?_, ?_⟩
  · -- entries of one tick are alike to the sort, so it keeps their order
    intro tick
    apply filter_mergeSort_of_alike isPreorder_tick
    intro a b ha hb
    rw [beq_iff_eq.1 ha, beq_iff_eq.1 hb]
    exact decide_eq_true (UInt32.le_refl tick)
  · exact scanl_deltas (fun _ _ => Nat.zero_le _) hascending

/-- The mark at the end of a track is the one the format asks for. -/
theorem endOfTrack_eq : endOfTrack = [0x00, 0xFF, 0x2F, 0x00] := by decide +kernel

/-- A body is laid out as it should be, for any list of entries. -/
theorem isBody_trackBody (recorded : List Entry) : IsBody recorded (trackBody recorded) := by
  refine ⟨_, _, timed_mergeSort recorded, ?_⟩
  rw [trackBody, deltaTimed_eq, endOfTrack_eq]

/-- Entries are put in one order if those of every tick were recorded in one order. -/
theorem mergeSort_tick_congr {l m : List Entry}
    (h : ∀ tick, (l.filter (·.tick == tick)).map (·.bytes) = (m.filter (·.tick == tick)).map (·.bytes)) :
    l.mergeSort (fun a b => a.tick ≤ b.tick) = m.mergeSort fun a b => a.tick ≤ b.tick := by
  have hgroup (a : Entry) : (fun b : Entry => decide (a.tick ≤ b.tick) && decide (b.tick ≤ a.tick)) =
      fun b => b.tick == a.tick := by
    funext b
    rw [Bool.eq_iff_iff, Bool.and_eq_true, decide_eq_true_eq, decide_eq_true_eq, beq_iff_eq,
      UInt32.le_iff_toNat_le, UInt32.le_iff_toNat_le, ← UInt32.toNat_inj]
    omega
  -- an entry of a tick is known by its bytes
  have hentries (tick : UInt32) (l : List Entry) :
      ((l.filter (·.tick == tick)).map (·.bytes)).map (Entry.mk tick) = l.filter (·.tick == tick) := by
    rw [List.map_map]
    refine Eq.trans (List.map_congr_left ?_) (List.map_id _)
    intro e he
    rw [← beq_iff_eq.1 (List.mem_filter.1 he).2]
    rfl
  apply eq_of_sorted_of_groups isPreorder_tick
  · exact List.pairwise_mergeSort isPreorder_tick.trans isPreorder_tick.total l
  · exact List.pairwise_mergeSort isPreorder_tick.trans isPreorder_tick.total m
  · intro a
    rw [filter_group_mergeSort isPreorder_tick, filter_group_mergeSort isPreorder_tick, hgroup,
      ← hentries a.tick l, ← hentries a.tick m, h]

/-! ## Files -/

/-- The bytes of a number in a field of some width, high byte first. -/
def IsField (width n : Nat) (field : List UInt8) : Prop := field.length = width ∧ bigEndian field = n

theorem isField_word16 {n : Nat} (h : n < 2 ^ 16) : IsField 2 n (word16 n) := ⟨rfl, bigEndian_word16 h⟩

theorem isField_word32 (n : Nat) : IsField 4 (n % 2 ^ 32) (word32 n) := ⟨rfl, bigEndian_word32 n⟩

/-- A track chunk: its letters, the length of its body as far as four bytes can tell it, and the body. -/
def IsTrackChunk (body bytes : List UInt8) : Prop :=
  ∃ length, IsField 4 (body.length % 2 ^ 32) length ∧ bytes = [0x4D, 0x54, 0x72, 0x6B] ++ length ++ body

/-- Every body becomes a chunk, with a length that is right up to `2 ^ 32`. -/
theorem isTrackChunk_chunk (body : List UInt8) : IsTrackChunk body (chunk trackId body) :=
  ⟨_, isField_word32 body.length, rfl⟩

/-- A file: a header of fourteen bytes, which counts the tracks and gives the resolution, and a chunk for
each body. -/
def IsFile (ticksPerQuarter : UInt16) (bodies : List (List UInt8)) (bytes : List UInt8) : Prop :=
  ∃ count resolution chunks, IsField 2 bodies.length count ∧
    IsField 2 ticksPerQuarter.toNat resolution ∧ List.Forall₂ IsTrackChunk bodies chunks ∧
    bytes = [0x4D, 0x54, 0x68, 0x64, 0, 0, 0, 6, 0, 1] ++ count ++ resolution ++ chunks.flatten

theorem header_eq (s : Sheet) :
    s.header = [0x4D, 0x54, 0x68, 0x64, 0, 0, 0, 6, 0, 1] ++ word16 s.trackCount ++
      word16 s.ticksPerQuarter.toNat := by
  have hlength : word32 6 = [0, 0, 0, 6] := by decide
  have hformat : word16 1 = [0, 1] := by decide
  show headerId ++ word32 6 ++ (word16 1 ++ word16 s.trackCount ++ word16 s.ticksPerQuarter.toNat) = _
  rw [hlength, hformat]
  rfl

/-- A header and the chunks behind it are a file. -/
theorem isFile_header_chunks {s : Sheet} (hcount : s.trackCount < 2 ^ 16) :
    IsFile s.ticksPerQuarter s.bodies (s.header ++ s.bodies.flatMap (chunk trackId)) := by
  refine ⟨word16 s.trackCount, word16 s.ticksPerQuarter.toNat, s.bodies.map (chunk trackId), ?_, ?_, ?_, ?_⟩
  · rw [Sheet.length_bodies]
    exact isField_word16 hcount
  · exact isField_word16 s.ticksPerQuarter.toNat_lt
  · rw [List.forall₂_map_right_iff, List.forall₂_same]
    intro body _
    exact isTrackChunk_chunk body
  · rw [header_eq, List.flatMap_def]

/-! ## Recordings -/

namespace Sheet

variable (n : Nat) (ticksPerQuarter : UInt16) (calls : List (Nat × Entry))

/-- The number of tracks when there are some to begin with and others are named. -/
def tracksNamed : Nat := (calls.map fun c => c.1 + 1).foldl max n

/-- The tracks named by some calls are as many as the largest number asks for. -/
theorem tracksNamed_le_iff {n m : Nat} {calls : List (Nat × Entry)} :
    tracksNamed n calls ≤ m ↔ n ≤ m ∧ ∀ c ∈ calls, c.1 < m := by
  rw [tracksNamed]
  induction calls generalizing n with
  | nil => simp
  | cons c rest ih =>
    rw [List.map_cons, List.foldl_cons, ih, List.forall_mem_cons, Nat.max_le, and_assoc]
    rfl

/-- A sheet has the tracks it was made with and those the calls name. -/
theorem trackCount_record_eq (s : Sheet) : (s.record calls).trackCount = tracksNamed s.trackCount calls := by
  induction calls generalizing s with
  | nil => rfl
  | cons c rest ih =>
    rw [record_cons, ih, trackCount_add]
    rfl

/-- The entries recorded on a track. -/
def recordedOn (track : Nat) : List Entry := (calls.filter (·.1 == track)).map (·.2)

/-- What was recorded at one tick of a track. -/
def recordedAt (track : Nat) (tick : UInt32) : List (List UInt8) :=
  ((recordedOn calls track).filter (·.tick == tick)).map (·.bytes)

/-- What is recorded on a track was recorded by a call that names it. -/
theorem mem_recordedOn {calls : List (Nat × Entry)} {track : Nat} {e : Entry} :
    e ∈ recordedOn calls track ↔ (track, e) ∈ calls := by
  rw [recordedOn, List.mem_map]
  constructor
  · rintro ⟨c, hc, rfl⟩
    obtain ⟨hmem, htrack⟩ := List.mem_filter.1 hc
    rw [← beq_iff_eq.1 htrack]
    exact hmem
  · intro h
    exact ⟨(track, e), List.mem_filter.2 ⟨h, beq_self_eq_true track⟩, rfl⟩

/-- Every recording is found at its place. -/
theorem bytes_mem_recordedAt {calls : List (Nat × Entry)} {c : Nat × Entry} (h : c ∈ calls) :
    c.2.bytes ∈ recordedAt calls c.1 c.2.tick := by
  refine List.mem_map.2 ⟨c.2, List.mem_filter.2 ⟨mem_recordedOn.2 h, ?_⟩, rfl⟩
  exact beq_self_eq_true c.2.tick

/-- Every place that something was recorded at belongs to a track that is named. -/
theorem exists_of_mem_recordedAt {calls : List (Nat × Entry)} {track : Nat} {tick : UInt32}
    {bytes : List UInt8} (h : bytes ∈ recordedAt calls track tick) : ∃ c ∈ calls, c.1 = track := by
  obtain ⟨e, he, -⟩ := List.mem_map.1 h
  exact ⟨(track, e), mem_recordedOn.1 (List.mem_filter.1 he).1, rfl⟩

/-- A blank sheet holds what is recorded on it and nothing else. -/
theorem entries_record_blank (track : Nat) :
    ((blank n ticksPerQuarter).record calls).entries track = recordedOn calls track := by
  rw [entries_record, entries_blank, List.nil_append, recordedOn]

theorem bodies_record_blank :
    ((blank n ticksPerQuarter).record calls).bodies =
      (List.range (tracksNamed n calls)).map fun track => trackBody (recordedOn calls track) := by
  rw [bodies, trackCount_record_eq, trackCount_blank]
  simp only [entries_record_blank]

/-- The body of a track depends on what was recorded at each of its ticks. -/
theorem trackBody_congr {calls calls' : List (Nat × Entry)} {track : Nat}
    (h : ∀ tick, recordedAt calls track tick = recordedAt calls' track tick) :
    trackBody (recordedOn calls track) = trackBody (recordedOn calls' track) := by
  rw [trackBody, trackBody, mergeSort_tick_congr h]

/-- The calls of a tick name the same tracks in whatever order they come. -/
theorem tracksNamed_le_of_recordedAt {n : Nat} {calls calls' : List (Nat × Entry)}
    (h : ∀ track tick, recordedAt calls track tick = recordedAt calls' track tick) :
    tracksNamed n calls ≤ tracksNamed n calls' := by
  have hself := tracksNamed_le_iff.1 (Nat.le_refl (tracksNamed n calls'))
  rw [tracksNamed_le_iff]
  refine ⟨hself.1, ?_⟩
  -- a call is recorded somewhere on the left, hence on the right too, where the bound holds
  intro c hc
  have hmem := bytes_mem_recordedAt hc
  rw [h] at hmem
  obtain ⟨c', hc', htrack⟩ := exists_of_mem_recordedAt hmem
  rw [← htrack]
  exact hself.2 c' hc'

/-- The file depends on the bodies and the resolution only. -/
theorem file?_congr {s t : Sheet} (hresolution : s.ticksPerQuarter = t.ticksPerQuarter)
    (hbodies : s.bodies = t.bodies) : s.file? = t.file? := by
  have hcount : s.trackCount = t.trackCount := by rw [← length_bodies, hbodies, length_bodies]
  rw [file?, file?, flatMap_bodies, flatMap_bodies, header, header, hcount, hresolution, hbodies]

/-- **A file holds what was recorded, and only where it was recorded.** There is a file unless it has more
tracks than sixteen bits can count; the bodies of its chunks are those of the recordings on their tracks, and
recordings of different tracks or ticks may be made in any order. -/
theorem file?_record :
    (((blank n ticksPerQuarter).record calls).file? = .error (.file .tooManyTracks) ↔
      65535 < tracksNamed n calls) ∧
    (tracksNamed n calls ≤ 65535 → ∃ bytes bodies,
      ((blank n ticksPerQuarter).record calls).file? = .ok bytes ∧
      bodies.length = tracksNamed n calls ∧
      (∀ track body, bodies[track]? = some body → IsBody (recordedOn calls track) body) ∧
      IsFile ticksPerQuarter bodies bytes) ∧
    ∀ calls', (∀ track tick, recordedAt calls track tick = recordedAt calls' track tick) →
      ((blank n ticksPerQuarter).record calls).file? =
        ((blank n ticksPerQuarter).record calls').file? := by
  have hcount : ((blank n ticksPerQuarter).record calls).trackCount = tracksNamed n calls := by
    rw [trackCount_record_eq, trackCount_blank]
  have hsize : UInt16.size = 65536 := rfl
  refine ⟨?_, ?_, ?_⟩
  · rw [file?, hcount]
    split
    · exact iff_of_false (by rintro ⟨⟩) (by omega)
    · exact iff_of_true rfl (by omega)
  · -- each body is that of its own track
    intro hle
    refine ⟨_, ((blank n ticksPerQuarter).record calls).bodies,
      file?_eq_ok_iff.2 ⟨by omega, rfl⟩, ?_, ?_, ?_⟩
    · rw [length_bodies, hcount]
    · intro track body hbody
      rw [bodies_record_blank, List.getElem?_map, Option.map_eq_some_iff] at hbody
      obtain ⟨k, hk, rfl⟩ := hbody
      obtain ⟨_, rfl⟩ := List.getElem?_eq_some_iff.1 hk
      rw [List.getElem_range]
      exact isBody_trackBody _
    · have hfile := isFile_header_chunks (by rw [hcount]; omega)
      rw [ticksPerQuarter_record] at hfile
      exact hfile
  · -- calls that record the same at each tick make the same bodies
    intro calls' h
    have hnamed : tracksNamed n calls = tracksNamed n calls' :=
      Nat.le_antisymm (tracksNamed_le_of_recordedAt h)
        (tracksNamed_le_of_recordedAt fun track tick => (h track tick).symm)
    apply file?_congr
    · rw [ticksPerQuarter_record, ticksPerQuarter_record]
    · rw [bodies_record_blank, bodies_record_blank, hnamed]
      apply List.map_congr_left
      intro track _
      exact trackBody_congr (h track)

/-- Ticks that go back, and a track in between that nothing is recorded on. -/
def shuffled : List (Nat × Entry) :=
  [(2, ⟨200, [0x80, 60, 64]⟩), (0, ⟨0, [0x90, 72, 1]⟩), (2, ⟨0, [0x90, 60, 64]⟩),
    (2, ⟨200, [0x90, 62, 64]⟩)]

/-- The same recordings in another order, but for those of one track at one tick. -/
def reshuffled : List (Nat × Entry) :=
  [(2, ⟨0, [0x90, 60, 64]⟩), (2, ⟨200, [0x80, 60, 64]⟩), (2, ⟨200, [0x90, 62, 64]⟩),
    (0, ⟨0, [0x90, 72, 1]⟩)]

/-- The two lists of calls differ in their order only across tracks and ticks. -/
theorem recordedAt_shuffled (track : Nat) (tick : UInt32) :
    recordedAt shuffled track tick = recordedAt reshuffled track tick := by
  unfold recordedAt recordedOn shuffled reshuffled
  by_cases h0 : track = 0
  · subst h0
    rfl
  by_cases h2 : track = 2
  · subst h2
    by_cases htick : tick = 0
    · subst htick
      rfl
    · grind
  · grind

/-- The file of both. -/
def shuffledFile : List UInt8 :=
  [0x4D, 0x54, 0x68, 0x64, 0, 0, 0, 6, 0, 1, 0, 3, 1, 0xE0,
    0x4D, 0x54, 0x72, 0x6B, 0, 0, 0, 8, 0, 0x90, 72, 1, 0, 0xFF, 0x2F, 0,
    0x4D, 0x54, 0x72, 0x6B, 0, 0, 0, 4, 0, 0xFF, 0x2F, 0,
    0x4D, 0x54, 0x72, 0x6B, 0, 0, 0, 17, 0, 0x90, 60, 64, 0x81, 0x48, 0x80, 60, 64, 0, 0x90, 62, 64,
    0, 0xFF, 0x2F, 0]

/-- Four calls out of order, on tracks zero and two, and the same calls in another order. -/
theorem file?_record_shuffled :
    tracksNamed 1 shuffled ≤ 65535 ∧ ((blank 1 480).record shuffled).file? = .ok shuffledFile ∧
      ((blank 1 480).record reshuffled).file? = .ok shuffledFile ∧
      ∃ bodies, IsFile 480 bodies shuffledFile ∧ ∀ body, bodies[1]? = some body → IsBody [] body := by
  have hcount : tracksNamed 1 shuffled ≤ 65535 := by decide
  -- sorting is not evaluated by the kernel
  have hfile : ((blank 1 480).record shuffled).file? = .ok shuffledFile := by cbv
  obtain ⟨-, hframed, horder⟩ := file?_record 1 480 shuffled
  obtain ⟨bytes, bodies, hbytes, -, hbodies, hlayout⟩ := hframed hcount
  obtain rfl : shuffledFile = bytes := Except.ok.inj (hfile.symm.trans hbytes)
  refine ⟨hcount, hfile, ?_, bodies, hlayout, hbodies 1⟩
  rw [← horder reshuffled recordedAt_shuffled]
  exact hfile

end Sheet

end Melody.Midi
