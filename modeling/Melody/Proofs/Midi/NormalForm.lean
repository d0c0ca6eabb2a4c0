import Melody.Proofs.Midi.Layout
import Melody.Proofs.Midi.Overlong

/-!
# Files of any origin, written again

Reading a file gives a normal form: its events stand track by track, each track in order of ticks, and every
number has room in a file again. So a file that is written from what was read of another is read as the same,
unless a track of it is too long for its chunk to tell.

## The architecture

* **`inspect_eq_ok_iff`** says what is read of a file, and **`Inspection.isNormal_of_inspect`** that it is a
  normal form.
* **`Inspection.copy`** is the sheet that the events are written on, **`IsNormal.hasRoom`** says why there is
  room for them.
* **`length_body_copy`**: a track that is written again has not much more bytes than there were in the file.
* **`inspect_copy`** puts this together.
* **`crowdedFile`** is a file whose copy is not read as the same: its notes leave out their status, and with
  `2 ^ 30` of them there is no room for it.
-/

namespace Melody.Midi

open Outcome StableSort

/-! ## Files -/

/-- The data of a chunk lie within the bytes it is cut from. -/
theorem Riff.length_data_of_cut?_le {bytes : List UInt8} {c : Cut} (h : Riff.cut? bytes = some c) :
    c.data.length ≤ bytes.length := by
  unfold Riff.cut? at h
  split at h
  · cases h
  · cases h
    simp only [List.length_take, List.length_drop]
    omega

theorem Riff.length_fileData?_le {bytes file : List UInt8} (h : Riff.fileData? bytes = some file) :
    file.length ≤ bytes.length := by
  fun_induction Riff.fileData? bytes with
  | case1 => cases h
  | case2 bytes c hc _ => cases h; exact Riff.length_data_of_cut?_le hc
  | case3 bytes c hc _ hlt ih => exact Nat.le_trans (ih h) (Nat.le_of_lt hlt)

/-- With or without a container, the file is no longer than the bytes. -/
theorem Riff.length_unwrap_le {bytes file : List UInt8} (h : Riff.unwrap bytes = .ok file) :
    file.length ≤ bytes.length := by
  unfold Riff.unwrap at h
  split at h
  · cases h
  · next main hmain =>
    have hform := Riff.length_data_of_cut?_le hmain
    split_ifs at h
    split at h
    · cases h
    · next file' hfile =>
      obtain rfl := Except.ok.inj h
      have hfile := Riff.length_fileData?_le hfile
      rw [List.length_drop] at hfile
      omega

/-- An envelope only adds bytes. -/
theorem length_unwrap_le {bytes file : List UInt8} (h : unwrap bytes = .ok file) :
    file.length ≤ bytes.length := by
  unfold unwrap at h
  split_ifs at h
  · obtain rfl := Except.ok.inj h
    exact Nat.le_refl _
  · exact Riff.length_unwrap_le h

theorem exists_data_of_next_header {bytes rest : List UInt8} {division : Division}
    (h : Next.ofBytes bytes = .header division rest) : ∃ data, headerDivision? data = some division := by
  fun_induction Next.ofBytes bytes with
  | case3 bytes _ c _ _ division' hdivision => cases h; exact ⟨c.data, hdivision⟩
  | case6 _ _ _ _ _ _ _ ih => exact ih h
  | _ => cases h

/-- The first byte of a resolution is no status byte. -/
theorem lt_of_headerDivision? {data : List UInt8} {n : UInt16}
    (h : headerDivision? data = some (.ticksPerQuarter n)) : n < 0x8000 := by
  unfold headerDivision? at h
  split at h
  · next high low _ =>
    split_ifs at h
    rw [Division.ofBytes?] at h
    split_ifs at h with hhigh
    · obtain rfl := Division.ticksPerQuarter.inj (Option.some.inj h)
      have hhigh : high.toNat < 128 := hhigh
      have hlow := low.toNat_lt
      -- a first byte below 128 makes a number below `0x8000`
      have hvalue : bigEndian [high, low] = high.toNat * 256 + low.toNat := by
        show (0 * 256 + high.toNat) * 256 + low.toNat = _
        omega
      rw [UInt16.lt_iff_toNat_lt, hvalue, UInt16.toNat_ofNat_of_lt' (by show _ < 65536; omega)]
      show _ < 32768
      omega
    · cases Option.some.inj h
  · cases h

variable {bytes : List UInt8} {i : Inspection}

/-- What is read of a file: the resolution of its first header, and the tracks behind it. -/
theorem inspect_eq_ok_iff :
    inspect bytes = .ok i ↔ ∃ file rest, unwrap bytes = .ok file ∧
      Next.ofBytes file = .header (.ticksPerQuarter i.ticksPerQuarter) rest ∧
      i.trackCount = (trackData rest).length ∧ i.events = numberedEvents 0 (trackData rest) := by
  rw [inspect, bind_eq_ok_iff]
  refine exists_congr fun file => ?_
  constructor
  · rintro ⟨hfile, h⟩
    -- only a header with a resolution in ticks lets the file be read
    cases hnext : Next.ofBytes file with
    | nothing => rw [hnext] at h; cases h
    | broken => rw [hnext] at h; cases h
    | track data rest => rw [hnext] at h; cases h
    | header division rest =>
      rw [hnext] at h
      cases division with
      | timecode => cases h
      | ticksPerQuarter n =>
        obtain rfl := pure_eq_ok_iff.1 h
        exact ⟨rest, hfile, rfl, rfl, rfl⟩
  · rintro ⟨rest, hfile, hnext, hcount, hevents⟩
    refine ⟨hfile, ?_⟩
    rw [hnext]
    dsimp only
    rw [← hcount, ← hevents]
    rfl

namespace Inspection

/-- Events track by track, each track in order of ticks, and every number one that a file has room for. -/
structure IsNormal (i : Inspection) : Prop where
  resolution : i.ticksPerQuarter < 0x8000
  track : ∀ e ∈ i.events, e.track < i.trackCount
  ordered : i.events.Pairwise TimedEvent.NoLater
  fits : ∀ e ∈ i.events, e.event.Fits

/-- What is read from a file is in normal form, whatever bytes the file has. -/
theorem isNormal_of_inspect (h : inspect bytes = .ok i) : i.IsNormal := by
  obtain ⟨file, rest, -, hnext, hcount, hevents⟩ := inspect_eq_ok_iff.1 h
  obtain ⟨data, hdata⟩ := exists_data_of_next_header hnext
  have hread := readsAcross_numberedEvents 0 (trackData rest)
  rw [← hevents] at hread
  refine ⟨lt_of_headerDivision? hdata, ?_, hread.ordered, hread.fits⟩
  intro e he
  have := hread.track e he
  omega

/-- The events weigh no more than the file that they were read from. -/
theorem messageBytes_le_of_inspect (h : inspect bytes = .ok i) :
    messageBytes i.events ≤ bytes.length := by
  obtain ⟨file, rest, hfile, hnext, -, hevents⟩ := inspect_eq_ok_iff.1 h
  rw [hevents]
  calc messageBytes (numberedEvents 0 (trackData rest))
      ≤ (trackData rest).flatten.length := (readsAcross_numberedEvents 0 _).size
    _ ≤ rest.length := length_trackData_le rest
    _ ≤ file.length := Nat.le_of_lt (length_lt_of_next_header hnext)
    _ ≤ bytes.length := length_unwrap_le hfile

/-! ## The copy -/

/-- The sheet that the events are written on, with as many tracks as were read. -/
def copy (i : Inspection) : Sheet := .ofEvents i.trackCount i.ticksPerQuarter i.events

/-- No two events of a track are too far apart for a file, the first counted from the start. -/
def IsClose (i : Inspection) : Prop :=
  ∀ track, ∀ gap ∈ gaps 0 (i.events.filter (·.track == track)), gap < 2 ^ 28

namespace IsNormal

/-- On each track the events come in the order of their ticks. -/
theorem ascending (h : i.IsNormal) (track : Nat) :
    (i.events.filter (·.track == track)).Pairwise fun a b => a.tick ≤ b.tick := by
  apply (h.ordered.filter _).imp_of_mem
  intro a b ha hb hab
  have ha := beq_iff_eq.1 (List.mem_filter.1 ha).2
  have hb := beq_iff_eq.1 (List.mem_filter.1 hb).2
  rcases hab with hlt | ⟨-, hle⟩
  · omega
  · exact hle

/-- In normal form the events can be written, if no gap is too wide. -/
theorem hasRoom (h : i.IsNormal) (hclose : i.IsClose) : HasRoom i.trackCount i.events :=
  ⟨h.track, h.fits, h.ascending, hclose⟩

/-- Sorting by track moves nothing. -/
theorem mergeSort_track (h : i.IsNormal) :
    (i.events.mergeSort fun a b => a.track ≤ b.track) = i.events := by
  apply List.mergeSort_of_pairwise
  apply h.ordered.imp
  intro a b hab
  rw [decide_eq_true_eq]
  rcases hab with hlt | ⟨heq, -⟩
  · exact Nat.le_of_lt hlt
  · exact Nat.le_of_eq heq

/-- The bodies of the copy hold the events and no others. -/
theorem numberedEvents_copy (h : i.IsNormal) (hclose : i.IsClose) :
    numberedEvents 0 i.copy.bodies = i.events := by
  rw [copy, Sheet.numberedEvents_ofEvents (h.hasRoom hclose),
    ← mergeSort_by_number _ _ _ h.track, h.mergeSort_track]

end IsNormal

end Inspection

/-! ## The weight of the copy -/

theorem three_le_length_bytes (e : Event) : 3 ≤ e.bytes.length := by
  cases e with
  | tempo => exact Nat.le_add_left 3 3
  | noteOn => exact Nat.le_refl 3
  | noteOff => exact Nat.le_refl 3

/-- Ticks take four bytes at most, and what they stand in front of takes three at least. -/
theorem length_deltaTimed_le {last : Nat} {events : List TimedEvent}
    (h : ∀ gap ∈ gaps last events, gap < 2 ^ 28) :
    3 * (deltaTimed last (events.map TimedEvent.entry)).length ≤ 7 * messageBytes events := by
  induction events generalizing last with
  | nil => exact Nat.zero_le _
  | cons e rest ih =>
    rw [gaps_cons, List.forall_mem_cons] at h
    have hticks := Quantity.length_encode_le (k := 3) h.1
    have hbytes := three_le_length_bytes e.event
    have hrest := ih h.2
    -- a gap takes up four bytes at most, and so with its event no more than seven for three
    have hlength : (deltaTimed last ((e :: rest).map TimedEvent.entry)).length =
        (Quantity.encode (e.tick.toNat - last)).length + e.event.bytes.length +
          (deltaTimed e.tick.toNat (rest.map TimedEvent.entry)).length := by
      rw [List.map_cons, deltaTimed, List.length_append, List.length_append]
      rfl
    rw [hlength, messageBytes]
    omega

/-- The events of one track are not longer than all events. -/
theorem messageBytes_filter_le (p : TimedEvent → Bool) (events : List TimedEvent) :
    messageBytes (events.filter p) ≤ messageBytes events := by
  induction events with
  | nil => exact Nat.le_refl 0
  | cons e rest ih =>
    rw [List.filter_cons]
    -- an event that is left out takes its bytes with it
    split
    · rw [messageBytes, messageBytes]
      exact Nat.add_le_add_left ih _
    · rw [messageBytes]
      exact Nat.le_add_left_of_le ih

namespace Inspection

/-- A track that is written again has at most seven bytes for three of the file, but for its end. -/
theorem length_body_copy (h : inspect bytes = .ok i) (hclose : i.IsClose) :
    ∀ body ∈ i.copy.bodies, 3 * body.length ≤ 7 * bytes.length + 12 := by
  have hnormal := isNormal_of_inspect h
  rw [copy, Sheet.bodies_ofEvents hnormal.track hnormal.ascending]
  intro body hbody
  obtain ⟨track, -, rfl⟩ := List.mem_map.1 hbody
  -- the messages are some of the file's own, and with their gaps they grow from three bytes to seven at worst
  have hevents := length_deltaTimed_le (hclose track)
  have htrack := messageBytes_filter_le (·.track == track) i.events
  have hfile := messageBytes_le_of_inspect h
  have hend : endOfTrack.length = 4 := by rw [endOfTrack_eq]; rfl
  rw [List.length_append, hend]
  omega

/-! ## Reading the copy -/

/-- The copy is read as what it was written from exactly if no track is too long. -/
theorem inspect_copy_iff {bytes' : List UInt8} (h : i.IsNormal) (hclose : i.IsClose)
    (hfile : i.copy.file? = .ok bytes') :
    inspect bytes' = .ok i ↔ ∀ body ∈ i.copy.bodies, body.length < 2 ^ 32 := by
  have hread := Sheet.inspect_ofEvents_iff (h.hasRoom hclose) hfile h.resolution
  rwa [h.mergeSort_track] at hread

/-- **A file of any origin is read as a normal form, and the normal form can be written.** The copy is laid
out like every file; its tracks hold the events that were read, and nothing else. It is read as what it was
written from exactly if the length of every track chunk can be told in four bytes, and that is so for all files
below 1.8 GB. -/
theorem inspect_copy (h : inspect bytes = .ok i) :
    i.IsNormal ∧
    (i.trackCount ≤ 65535 → i.IsClose → ∃ bytes', i.copy.file? = .ok bytes' ∧
      IsFile i.ticksPerQuarter i.copy.bodies bytes' ∧
      i.copy.bodies.length = i.trackCount ∧ numberedEvents 0 i.copy.bodies = i.events ∧
      (inspect bytes' = .ok i ↔ ∀ body ∈ i.copy.bodies, body.length < 2 ^ 32) ∧
      (7 * bytes.length + 12 < 3 * 2 ^ 32 → inspect bytes' = .ok i)) := by
  have hnormal := isNormal_of_inspect h
  refine ⟨hnormal, ?_⟩
  intro hcount hclose
  have htracks : i.copy.trackCount = i.trackCount := Sheet.trackCount_ofEvents hnormal.track
  have hroom : i.copy.trackCount < 2 ^ 16 := by omega
  have hfile := Sheet.file?_eq_ok_iff.2 ⟨hroom, rfl⟩
  -- the copy is a file in any case; whether it is read back is decided by its bodies
  have hagain := inspect_copy_iff hnormal hclose hfile
  refine ⟨_, hfile, ?_, ?_, hnormal.numberedEvents_copy hclose, hagain, ?_⟩
  · have hlayout := isFile_header_chunks hroom
    rwa [copy, Sheet.ticksPerQuarter_ofEvents] at hlayout
  · rw [Sheet.length_bodies, htracks]
  · intro hsize
    rw [hagain]
    intro body hbody
    have hlength := length_body_copy h hclose body hbody
    omega

end Inspection

/-- A file of one track, with a chunk of its own in front: a name, a tempo, a program, a note whose end
leaves out its status, a controller, and no end of the track. -/
def foreignFile : List UInt8 :=
  [0x4D, 0x54, 0x68, 0x64, 0, 0, 0, 6, 0, 0, 0, 1, 0, 96,
    0x58, 0x46, 0x49, 0x48, 0, 0, 0, 2, 1, 2,
    0x4D, 0x54, 0x72, 0x6B, 0, 0, 0, 31, 0, 0xFF, 0x03, 1, 65, 0, 0xFF, 0x51, 3, 0x07, 0xA1, 0x20,
    16, 0xC0, 5, 16, 0x90, 60, 64, 96, 60, 0, 0x83, 0x60, 0xB0, 7, 127, 0, 0x80, 60, 1]

/-- What is read of it. -/
def foreignInspection : Inspection :=
  ⟨96, 1, [⟨0, 0, .tempo 500000⟩, ⟨0, 32, .noteOn 60 64⟩, ⟨0, 128, .noteOn 60 0⟩, ⟨0, 608, .noteOff 60 1⟩]⟩

/-- The file that is written from that. -/
def foreignCopy : List UInt8 :=
  [0x4D, 0x54, 0x68, 0x64, 0, 0, 0, 6, 0, 1, 0, 1, 0, 96,
    0x4D, 0x54, 0x72, 0x6B, 0, 0, 0, 24, 0, 0xFF, 0x51, 3, 0x07, 0xA1, 0x20, 32, 0x90, 60, 64,
    96, 0x90, 60, 0, 0x83, 0x60, 0x80, 60, 1, 0, 0xFF, 0x2F, 0]

theorem isClose_foreignInspection : foreignInspection.IsClose := by
  intro track gap hgap
  obtain ⟨e, he, hle⟩ := exists_tick_of_mem_gaps hgap
  have hticks : ∀ e ∈ foreignInspection.events, e.tick.toNat < 2 ^ 28 := by decide
  exact Nat.lt_of_le_of_lt hle (hticks e (List.mem_filter.1 he).1)

namespace Inspection

/-- A file with running status, a foreign chunk and a note that is cut off, and its copy. -/
theorem inspect_copy_foreign :
    inspect foreignFile = .ok foreignInspection ∧ foreignInspection.IsNormal ∧
      foreignInspection.copy.file? = .ok foreignCopy ∧ inspect foreignCopy = .ok foreignInspection := by
  have hread : inspect foreignFile = .ok foreignInspection := by decide +kernel
  -- sorting is not evaluated by the kernel
  have hcopy : foreignInspection.copy.file? = .ok foreignCopy := by cbv
  obtain ⟨hnormal, hwrite⟩ := inspect_copy hread
  obtain ⟨bytes', hfile, -, -, -, -, hagain⟩ := hwrite (by decide) isClose_foreignInspection
  obtain rfl : foreignCopy = bytes' := Except.ok.inj (hcopy.symm.trans hfile)
  exact ⟨hread, hnormal, hcopy, hagain (by decide)⟩

end Inspection

/-! ## A file whose copy is too long

A note whose status runs on has three bytes, ticks included, and four in a copy. So there are files that can be
read whole and not be written again. -/

/-- The start of a note at once behind what was before it. -/
def crowdedNote : TimedEvent := ⟨0, 0, .noteOn 60 64⟩

/-- A note with its status, and some more that leave it out. -/
def crowdedTrack (more : Nat) : List UInt8 :=
  [0, 0x90, 60, 64] ++ (List.replicate more [0, 60, 64]).flatten

/-- A file of that track. -/
def crowdedFile (more : Nat) : List UInt8 :=
  (Sheet.blank 1 96).header ++ chunk trackId (crowdedTrack more)

/-- What is read of it. -/
def crowd (more : Nat) : Inspection := ⟨96, 1, List.replicate (more + 1) crowdedNote⟩

theorem eventsFrom_crowdedNote {running : Option UInt8} {bytes rest : List UInt8}
    (h : message? running bytes = some ⟨some (.noteOn 60 64), some 0x90, rest⟩) :
    eventsFrom 0 0 running (0 :: bytes) = crowdedNote :: eventsFrom 0 0 (some 0x90) rest := by
  have hticks : quantity (0 :: bytes) = (0, bytes) := rfl
  rw [eventsFrom_of_message (List.cons_ne_nil 0 bytes) hticks h]
  rfl

/-- Each note takes the status of the one before. -/
theorem eventsFrom_running (more : Nat) :
    eventsFrom 0 0 (some 0x90) (List.replicate more [0, 60, 64]).flatten = List.replicate more crowdedNote := by
  induction more with
  | zero => exact eventsFrom_nil 0 0 _
  | succ more ih =>
    rw [List.replicate_succ, List.flatten_cons, List.replicate_succ, ← ih]
    exact eventsFrom_crowdedNote rfl

theorem trackEvents_crowdedTrack (more : Nat) :
    trackEvents 0 (crowdedTrack more) = List.replicate (more + 1) crowdedNote := by
  rw [List.replicate_succ, ← eventsFrom_running]
  exact eventsFrom_crowdedNote rfl

/-- Each note but the first takes up three bytes, since its status is running. -/
theorem length_crowdedTrack (more : Nat) : (crowdedTrack more).length = 3 * more + 4 := by
  rw [crowdedTrack, List.length_append, List.length_flatten, List.map_replicate, List.sum_replicate]
  show 4 + more * 3 = _
  omega

/-- As long as its own chunk can tell the length, the file is read whole. -/
theorem inspect_crowdedFile {more : Nat} (h : 3 * more + 4 < 4294967296) :
    inspect (crowdedFile more) = .ok (crowd more) := by
  -- the only chunk is short enough for its length field, so it is read back whole
  have hshort : ∀ body ∈ [crowdedTrack more], body.length < 4294967296 := by
    rw [List.forall_mem_singleton, length_crowdedTrack]
    exact h
  have htracks : trackData (chunk trackId (crowdedTrack more)) = [crowdedTrack more] := by
    rw [← List.append_nil (chunk _ _)]
    exact trackData_flatMap hshort
  rw [crowdedFile, inspect_header, headerDivision?_data (by decide), htracks]
  show Except.ok (Inspection.mk 96 1 (trackEvents 0 (crowdedTrack more) ++ [])) = _
  rw [trackEvents_crowdedTrack, List.append_nil]
  rfl

/-- In the copy each note takes up four. -/
theorem length_deltaTimed_crowd (count : Nat) :
    (deltaTimed 0 ((List.replicate count crowdedNote).map TimedEvent.entry)).length = 4 * count := by
  induction count with
  | zero => rfl
  | succ count ih =>
    -- all notes stand at tick 0: a byte of delta and three of message each
    have hfirst : (Quantity.encode (crowdedNote.entry.tick.toNat - 0) ++ crowdedNote.entry.bytes).length = 4 := by
      decide +kernel
    rw [List.replicate_succ, List.map_cons, deltaTimed, List.length_append, hfirst]
    show 4 + (deltaTimed 0 ((List.replicate count crowdedNote).map TimedEvent.entry)).length = _
    rw [ih]
    omega

namespace Inspection

theorem isClose_crowd (more : Nat) : (crowd more).IsClose := by
  intro track gap hgap
  obtain ⟨e, he, hle⟩ := exists_tick_of_mem_gaps hgap
  -- all notes are at the start
  rw [List.eq_of_mem_replicate (List.mem_filter.1 he).1] at hle
  exact Nat.lt_of_le_of_lt hle (by decide)

/-- The copy has four bytes for each note, and four for the end of the track. -/
theorem bodies_copy_crowd {more : Nat} (h : (crowd more).IsNormal) :
    ∃ body, (crowd more).copy.bodies = [body] ∧ body.length = 4 * (more + 1) + 4 := by
  -- every note is on track 0, so nothing is filtered away
  have hall : (crowd more).events.filter (·.track == 0) = List.replicate (more + 1) crowdedNote := by
    apply filter_number_eq_self
    intro e he
    rw [List.eq_of_mem_replicate he]
    rfl
  rw [copy, Sheet.bodies_ofEvents h.track h.ascending]
  refine ⟨_, rfl, ?_⟩
  dsimp only
  rw [hall, List.length_append, length_deltaTimed_crowd, endOfTrack_eq]
  rfl

/-- From `2 ^ 30` notes on the copy is not read as the same. -/
theorem inspect_copy_crowd_ne {more : Nat} (hmany : 2 ^ 30 ≤ more + 1) (hread : 3 * more + 4 < 2 ^ 32) :
    inspect (crowdedFile more) = .ok (crowd more) ∧ (crowd more).trackCount ≤ 65535 ∧
      (crowd more).IsClose ∧ ∃ bytes', (crowd more).copy.file? = .ok bytes' ∧ inspect bytes' ≠ .ok (crowd more) := by
  have hfirst := inspect_crowdedFile hread
  have hnormal := isNormal_of_inspect hfirst
  have hclose := isClose_crowd more
  obtain ⟨body, hbodies, hlength⟩ := bodies_copy_crowd hnormal
  have hcount : (crowd more).copy.trackCount = 1 := Sheet.trackCount_ofEvents hnormal.track
  have hfile := Sheet.file?_eq_ok_iff.2 ⟨by rw [hcount]; decide, rfl⟩
  refine ⟨hfirst, Nat.le_add_left 1 65534, hclose, _, hfile, ?_⟩
  -- the copy reads back exactly when its one body is short, and with so many notes it is not
  rw [Ne, inspect_copy_iff hnormal hclose hfile, hbodies, List.forall_mem_singleton, hlength]
  omega

/-- So it is for `2 ^ 30` notes, in a file of 3 GB and a little more. -/
theorem inspect_copy_crowd :
    inspect (crowdedFile (2 ^ 30 - 1)) = .ok (crowd (2 ^ 30 - 1)) ∧
      (crowd (2 ^ 30 - 1)).trackCount ≤ 65535 ∧ (crowd (2 ^ 30 - 1)).IsClose ∧
      ∃ bytes', (crowd (2 ^ 30 - 1)).copy.file? = .ok bytes' ∧ inspect bytes' ≠ .ok (crowd (2 ^ 30 - 1)) :=
  inspect_copy_crowd_ne (by decide) (by decide)

end Inspection

end Melody.Midi
