import Melody.Midi.File
import Melody.Proofs.Midi.Messages

/-!
# Sheets

A sheet keeps, for every track, the bytes that were recorded on it, in the order of the recording and
whatever is recorded on other tracks in between.

## The architecture

* **`entries_add`** and **`trackCount_add`**: one recording goes to the end of its own track.
* **`entries_record`**: after any number of recordings a track holds those that named it.
* **`file?_eq_ok_iff`**: the file of a sheet, said by the bodies of its chunks.
-/

namespace Melody.Midi.Sheet

variable (s : Sheet) (track : Nat) (tick : UInt32) (bytes : List UInt8)

@[simp] theorem trackCount_blank (n : Nat) (ticksPerQuarter : UInt16) :
    (blank n ticksPerQuarter).trackCount = n := Array.size_replicate

@[simp] theorem entries_blank (n : Nat) (ticksPerQuarter : UInt16) (k : Nat) :
    (blank n ticksPerQuarter).entries k = [] := by
  rw [entries, blank, Array.getD_eq_getD_getElem?, Array.getElem?_replicate]
  split
  · rfl
  · rfl

@[simp] theorem ticksPerQuarter_add :
    (s.add track tick bytes).ticksPerQuarter = s.ticksPerQuarter := rfl

/-- An event on a track that is not there makes all tracks up to it. -/
theorem trackCount_add : (s.add track tick bytes).trackCount = max s.trackCount (track + 1) := by
  rw [trackCount, add, trackCount]
  simp only [Array.size_modify, Array.size_append, Array.size_replicate]
  omega

/-- Empty tracks behind the others have no entries, and nor do tracks that were never made. -/
theorem getD_append_replicate (tracks : Array (Array Entry)) (missing k : Nat) :
    (tracks ++ Array.replicate missing #[])[k]?.getD #[] = tracks[k]?.getD #[] := by
  rw [Array.getElem?_append]
  split
  · rfl
  · next hk =>
    -- a track added by the growing is empty, and so is one that does not exist
    have hnone : tracks[k]? = none := Array.getElem?_eq_none (by omega)
    rw [hnone, Array.getElem?_replicate]
    split
    · rfl
    · rfl

/-- The entry goes behind the others of its track, and no other track is touched. -/
theorem entries_add (k : Nat) :
    (s.add track tick bytes).entries k =
      if k = track then s.entries k ++ [⟨tick, bytes⟩] else s.entries k := by
  rw [entries, entries, add]
  simp only [Array.getD_eq_getD_getElem?]
  rw [Array.getElem?_modify, ← getD_append_replicate s.tracks (track + 1 - s.tracks.size) k]
  -- the array has grown to hold the track that is named
  generalize hgrown : s.tracks ++ Array.replicate (track + 1 - s.tracks.size) #[] = grown
  have hsize : track < grown.size := by
    rw [← hgrown, Array.size_append, Array.size_replicate]
    omega
  by_cases hk : k = track
  · -- the track that is named gets the entry
    subst hk
    rw [if_pos rfl, if_pos rfl, Array.getElem?_eq_getElem hsize]
    simp
  · rw [if_neg (Ne.symm hk), if_neg hk]

/-! ## Many recordings -/

/-- Recordings one after the other, each with its track. -/
def record (calls : List (Nat × Entry)) : Sheet :=
  calls.foldl (fun s c => s.add c.1 c.2.tick c.2.bytes) s

variable (c : Nat × Entry) (calls : List (Nat × Entry))

theorem record_cons : s.record (c :: calls) = (s.add c.1 c.2.tick c.2.bytes).record calls := rfl

theorem ticksPerQuarter_record : (s.record calls).ticksPerQuarter = s.ticksPerQuarter := by
  induction calls generalizing s with
  | nil => rfl
  | cons c rest ih => rw [record_cons, ih, ticksPerQuarter_add]

/-- Tracks are made only where a recording names one that is not there. -/
theorem trackCount_record (h : ∀ c ∈ calls, c.1 < s.trackCount) :
    (s.record calls).trackCount = s.trackCount := by
  induction calls generalizing s with
  | nil => rfl
  | cons c rest ih =>
    rw [List.forall_mem_cons] at h
    have hsame : (s.add c.1 c.2.tick c.2.bytes).trackCount = s.trackCount := by
      rw [trackCount_add]
      omega
    rw [record_cons, ih _ (by rw [hsame]; exact h.2), hsame]

/-- A track holds what the calls have put there, in the order of the calls. -/
theorem entries_record (k : Nat) :
    (s.record calls).entries k = s.entries k ++ (calls.filter (·.1 == k)).map (·.2) := by
  induction calls generalizing s with
  | nil =>
    show s.entries k = s.entries k ++ []
    rw [List.append_nil]
  | cons c rest ih =>
    rw [record_cons, ih, entries_add]
    -- a call adds to this track or leaves it alone
    by_cases hk : k = c.1
    · rw [if_pos hk, List.filter_cons_of_pos (by rw [hk]; exact beq_self_eq_true _), List.map_cons,
        List.append_assoc]
      rfl
    · rw [if_neg hk, List.filter_cons_of_neg (by rw [beq_iff_eq]; exact Ne.symm hk)]

/-- Events are recorded as their bytes, each on its track. -/
theorem foldl_addEvent (events : List TimedEvent) :
    events.foldl addEvent s = s.record (events.map fun e => (e.track, e.entry)) := by
  rw [record, List.foldl_map]
  rfl

theorem entries_foldl_addEvent (events : List TimedEvent) (k : Nat) :
    (events.foldl addEvent s).entries k =
      s.entries k ++ (events.filter (·.track == k)).map TimedEvent.entry := by
  rw [foldl_addEvent, entries_record, List.filter_map, List.map_map]
  rfl

/-! ## Files -/

/-- The bodies of the track chunks, in the order of the tracks. -/
def bodies : List (List UInt8) := (List.range s.trackCount).map fun k => trackBody (s.entries k)

theorem length_bodies : s.bodies.length = s.trackCount := by
  rw [bodies, List.length_map, List.length_range]

/-- The file is made of the bodies, which are numbered here and listed there. -/
theorem flatMap_bodies :
    (s.tracks.toList.flatMap fun entries => chunk trackId (trackBody entries.toList)) =
      s.bodies.flatMap (chunk trackId) := by
  -- the array of tracks and the sheet's tracks by number are the same lists
  have hentries : s.tracks.toList.map Array.toList = (List.range s.trackCount).map s.entries := by
    apply List.ext_getElem
    · rw [List.length_map, List.length_map, List.length_range]
      rfl
    · intro k hk _
      rw [List.getElem_map, List.getElem_map, List.getElem_range, entries,
        Array.getD_eq_getD_getElem?]
      rw [List.length_map, Array.length_toList] at hk
      rw [Array.getElem?_eq_getElem hk, Option.getD_some, Array.getElem_toList]
  rw [← List.flatMap_map Array.toList (fun entries => chunk trackId (trackBody entries)), hentries,
    List.flatMap_map, bodies, List.flatMap_map]

/-- A sheet has a file exactly when its tracks can be counted in sixteen bits. -/
theorem file?_eq_ok_iff {s : Sheet} {bytes : List UInt8} :
    s.file? = .ok bytes ↔
      s.trackCount < UInt16.size ∧
        bytes = s.header ++ s.bodies.flatMap (chunk trackId) := by
  rw [file?, flatMap_bodies]
  by_cases h : s.trackCount < UInt16.size
  · rw [if_pos h, Except.ok.injEq]
    refine ⟨?_, ?_⟩
    · intro hbytes
      exact ⟨h, hbytes.symm⟩
    · intro hbytes
      exact hbytes.2.symm
  · rw [if_neg h]
    refine ⟨nofun, ?_⟩
    intro hbytes
    exact absurd hbytes.1 h

end Melody.Midi.Sheet
