import Mathlib.Tactic.IntervalCases
import Melody.Proofs.Midi.Events
import Melody.Proofs.Midi.Kept

/-!
# Track chunks that are too long

A chunk tells its length in four bytes, and a body of `2 ^ 32` bytes or more is written all the same, with a
length that is too small by a multiple of `2 ^ 32`. A reader stops where the length says, in the middle of the
body, so that events are lost. This is the only way in which a file fails to give back the events that were
put on its sheet.

## The architecture

* **`eventsFrom_take_event`**: of an event that is cut short nothing is read, wherever it is cut.
* **`length_eventsFrom_take_lt`**: so a run over events that are cut short misses one at least.
* **`exists_take_of_long`**: the first track that is too long is read up to its length.
* **`Sheet.inspect_ofEvents_iff`** puts this together.
-/

namespace Melody.Midi

open Quantity StableSort

/-! ## Quantities cut short -/

/-- A reader that meets marked bytes alone takes them all. -/
theorem quantityFrom_of_marked {acc groups : Nat} {bytes : List UInt8} (h : ∀ b ∈ bytes, 0x80 ≤ b)
    (hlength : bytes.length ≤ groups) : (quantityFrom acc groups bytes).2 = [] := by
  -- every byte says that another follows, so the reader runs into the end
  induction bytes generalizing acc groups with
  | nil =>
    cases groups with
    | zero => rfl
    | succ groups => rfl
  | cons b bytes ih =>
    rw [List.forall_mem_cons] at h
    cases groups with
    | zero => exact absurd hlength (Nat.not_succ_le_zero _)
    | succ groups =>
      rw [quantityFrom, if_neg (UInt8.not_lt.2 h.1)]
      exact ih h.2 (Nat.le_of_succ_le_succ hlength)

/-- Nothing is left of a quantity that is cut short, or that ends where the data does. -/
theorem quantity_take_encode {n k : Nat} (h : n < 2 ^ 28) (hk : k ≤ (encode n).length) :
    (quantity ((encode n).take k)).2 = [] := by
  rcases Nat.eq_or_lt_of_le hk with rfl | hlt
  · have hread := quantity_encode h []
    rw [List.append_nil] at hread
    rw [List.take_length, hread]
  · -- all bytes but the last are marked, and there are three of them at most
    have hmarked : k ≤ (marked (n / 128)).length := by
      rw [encode, List.length_append, List.length_singleton] at hlt
      exact Nat.le_of_lt_succ hlt
    have hlength : (marked (n / 128)).length ≤ 3 := length_marked_le (by omega)
    rw [encode, List.take_append_of_le_length hmarked]
    apply quantityFrom_of_marked
    · intro b hb
      exact le_of_mem_marked (List.mem_of_mem_take hb)
    · rw [List.length_take]
      omega

/-! ## Events cut short -/

/-- A message that makes no sense ends the track. -/
theorem eventsFrom_of_no_message {bytes body : List UInt8} {delta : Nat} {running : Option UInt8}
    (hquantity : quantity bytes = (delta, body)) (h : message? running body = none) (track : Nat)
    (tick : UInt32) : eventsFrom track tick running bytes = [] := by
  obtain rfl : (quantity bytes).2 = body := by rw [hquantity]
  cases bytes with
  | nil => exact eventsFrom_nil track tick running
  | cons b rest =>
    rw [eventsFrom]
    split
    · rfl
    · next m hsome =>
      rw [h] at hsome
      cases hsome

/-- What is left of the bytes of an event makes no sense, or is passed over as the last message. -/
theorem message?_take_bytes {e : Event} {k : Nat} (hk : k < e.bytes.length) (running : Option UInt8) :
    message? running (e.bytes.take k) = none ∨
      message? running (e.bytes.take k) = some ⟨none, none, []⟩ := by
  cases e with
  | tempo micros =>
    have hk : k < 6 := hk
    interval_cases k
    · exact .inl rfl
    · exact .inl rfl
    -- from its kind on a tempo is a message, but for want of data it is none that is kept
    all_goals exact .inr rfl
  | noteOn pitch velocity =>
    have hk : k < 3 := hk
    interval_cases k
    all_goals exact .inl rfl
  | noteOff pitch velocity =>
    have hk : k < 3 := hk
    interval_cases k
    all_goals exact .inl rfl

/-- Of an event that is cut short nothing is read, whether it is cut in its ticks or behind them. -/
theorem eventsFrom_take_event {gap k : Nat} {e : Event} (hgap : gap < 2 ^ 28)
    (hk : k < (encode gap ++ e.bytes).length) (track : Nat) (tick : UInt32) (running : Option UInt8) :
    eventsFrom track tick running ((encode gap ++ e.bytes).take k) = [] := by
  rw [List.length_append] at hk
  -- the cut falls into the delta, where no message is left, or into the message itself
  by_cases hticks : k ≤ (encode gap).length
  · rw [List.take_append_of_le_length hticks]
    have hticks : quantity ((encode gap).take k) = ((quantity ((encode gap).take k)).1, []) :=
      Prod.ext rfl (quantity_take_encode hgap hticks)
    exact eventsFrom_of_no_message hticks rfl track tick
  · obtain ⟨j, rfl⟩ := Nat.exists_eq_add_of_le (Nat.le_of_not_le hticks)
    rw [List.take_length_add_append]
    have hshort : j < e.bytes.length := by omega
    rcases message?_take_bytes hshort running with hnone | hskipped
    · exact eventsFrom_of_no_message (quantity_encode hgap _) hnone track tick
    · rw [eventsFrom_of_message (encode_append_ne_nil _ _) (quantity_encode hgap _) hskipped, eventsFrom_nil]
      rfl

/-- A run over events that are cut short misses one at least. The events in front of the cut are read as they
are, and behind it there is nothing to read. -/
theorem length_eventsFrom_take_lt {track k : Nat} {last : UInt32} {running : Option UInt8}
    {events : List TimedEvent} (hfits : ∀ e ∈ events, e.event.Fits) (hlast : ∀ e ∈ events, last ≤ e.tick)
    (hsorted : events.Pairwise fun a b => a.tick ≤ b.tick)
    (hgaps : ∀ gap ∈ gaps last.toNat events, gap < 2 ^ 28)
    (hk : k < (deltaTimed last.toNat (events.map TimedEvent.entry)).length) :
    (eventsFrom track last running
      ((deltaTimed last.toNat (events.map TimedEvent.entry)).take k)).length < events.length := by
  induction events generalizing last running k with
  | nil => cases hk
  | cons e rest ih =>
    rw [List.forall_mem_cons] at hfits hlast
    rw [gaps_cons, List.forall_mem_cons] at hgaps
    rw [List.pairwise_cons] at hsorted
    have hbytes : deltaTimed last.toNat ((e :: rest).map TimedEvent.entry) =
        (encode (e.tick.toNat - last.toNat) ++ e.event.bytes) ++
          deltaTimed e.tick.toNat (rest.map TimedEvent.entry) := by rfl
    rw [hbytes] at hk ⊢
    by_cases hfirst : k < (encode (e.tick.toNat - last.toNat) ++ e.event.bytes).length
    · -- the first event is cut
      rw [List.take_append_of_le_length (Nat.le_of_lt hfirst), eventsFrom_take_event hgaps.1 hfirst]
      exact Nat.succ_pos _
    · -- the first event is whole, and one of the others is missed
      obtain ⟨j, rfl⟩ := Nat.exists_eq_add_of_le (Nat.le_of_not_lt hfirst)
      have hj : j < (deltaTimed e.tick.toNat (rest.map TimedEvent.entry)).length := by
        simp only [List.length_append] at hk
        omega
      rw [List.take_length_add_append, eventsFrom_event hfits.1 hlast.1 hgaps.1, List.length_cons,
        List.length_cons]
      exact Nat.succ_lt_succ (ih hfits.2 hsorted.1 hsorted.2 hgaps.2 hj)

/-! ## Tracks cut short -/

/-- The events of one track are what is read of its data. -/
theorem filter_numberedEvents {tracks : List (List UInt8)} {data : List UInt8} {k : Nat} (track : Nat)
    (h : tracks[k]? = some data) :
    (numberedEvents track tracks).filter (·.track == track + k) = trackEvents (track + k) data := by
  induction tracks generalizing track k with
  | nil => cases h
  | cons first tracks ih =>
    have hfirst := readsAs_trackEvents track first
    have hrest := readsAcross_numberedEvents (track + 1) tracks
    rw [numberedEvents, List.filter_append]
    -- at the number sought, or still before it
    cases k with
    | zero =>
      obtain rfl : first = data := Option.some.inj h
      have hall : (trackEvents track first).filter (·.track == track + 0) = trackEvents track first :=
        filter_number_eq_self hfirst.track
      have hnone : (numberedEvents (track + 1) tracks).filter (·.track == track + 0) = [] := by
        apply filter_number_eq_nil
        intro e he
        have hlater := (hrest.track e he).1
        omega
      rw [hall, hnone, List.append_nil]
      rfl
    | succ k =>
      have hnone : (trackEvents track first).filter (·.track == track + (k + 1)) = [] := by
        apply filter_number_eq_nil
        intro e he
        rw [hfirst.track e he]
        omega
      rw [hnone, List.nil_append, ← Nat.add_assoc, Nat.add_right_comm]
      exact ih (track + 1) h

/-- The first body that is too long is read up to its length, as a track of its own number: those in front of
it are short. -/
theorem exists_take_of_long {bodies : List (List UInt8)} (h : ∃ body ∈ bodies, 4294967296 ≤ body.length) :
    ∃ (k : Nat) (body : List UInt8), bodies[k]? = some body ∧ 4294967296 ≤ body.length ∧
      (trackData (bodies.flatMap (chunk trackId)))[k]? = some (body.take (body.length % 4294967296)) := by
  induction bodies with
  | nil =>
    obtain ⟨body, hbody, -⟩ := h
    cases hbody
  | cons first bodies ih =>
    rw [List.flatMap_cons]
    by_cases hfirst : 4294967296 ≤ first.length
    · -- the bodies in front of it were short, so the reader is in step when it comes to this one
      refine ⟨0, first, rfl, hfirst, ?_⟩
      rw [trackData_of_track (ofBytes_track first _), List.getElem?_cons_zero,
        List.take_append_of_le_length (Nat.mod_le _ _)]
    · obtain ⟨body, hbody, hlong⟩ := h
      have hrest : body ∈ bodies := by
        rcases List.mem_cons.1 hbody with rfl | hrest
        · exact absurd hlong hfirst
        · exact hrest
      obtain ⟨k, body, hk, hlong, hread⟩ := ih ⟨body, hrest, hlong⟩
      refine ⟨k + 1, body, hk, hlong, ?_⟩
      rw [trackData_of_track (ofBytes_track_of_short (Nat.lt_of_not_le hfirst) _)]
      exact hread

variable {trackCount : Nat} {events : List TimedEvent}

/-- A track that is read up to a length that is too small has lost an event. What the length misses is more than
the end of the track. -/
theorem length_trackEvents_take_lt {body : List UInt8} {k : Nat} (h : HasRoom trackCount events)
    (hbody : body = deltaTimed 0 ((events.filter (·.track == k)).map TimedEvent.entry) ++ endOfTrack)
    (hlong : 4294967296 ≤ body.length) :
    (trackEvents k (body.take (body.length % 4294967296))).length <
      (events.filter (·.track == k)).length := by
  have hend : endOfTrack.length = 4 := by decide +kernel
  have hlength : body.length =
      (deltaTimed 0 ((events.filter (·.track == k)).map TimedEvent.entry)).length + 4 := by
    rw [hbody, List.length_append, hend]
  -- the length is too small by at least 2^32, which is far more than the end of the track
  have hcut : body.length % 4294967296 <
      (deltaTimed 0 ((events.filter (·.track == k)).map TimedEvent.entry)).length := by omega
  generalize body.length % 4294967296 = cut at hcut ⊢
  rw [hbody, List.take_append_of_le_length (Nat.le_of_lt hcut)]
  have hfits : ∀ e ∈ events.filter (·.track == k), e.event.Fits :=
    fun e he => h.fits e (List.mem_filter.1 he).1
  exact length_eventsFrom_take_lt hfits (fun _ _ => UInt32.zero_le) (h.ascending k) (h.gaps k) hcut

namespace Sheet

variable {ticksPerQuarter : UInt16} {bytes : List UInt8}

/-- A file with a track that is too long does not give back all events. -/
theorem inspect_ofEvents_ne_of_long (h : HasRoom trackCount events)
    (hfile : (ofEvents trackCount ticksPerQuarter events).file? = .ok bytes)
    (hdivision : ticksPerQuarter < 0x8000)
    (hlong : ∃ body ∈ (ofEvents trackCount ticksPerQuarter events).bodies, 4294967296 ≤ body.length) :
    inspect bytes ≠ .ok ⟨ticksPerQuarter, trackCount, events.mergeSort fun a b => a.track ≤ b.track⟩ := by
  intro hread
  rw [inspect_of_low_resolution hfile (by rw [ticksPerQuarter_ofEvents]; exact hdivision)] at hread
  have hevents := (Inspection.mk.inj (Except.ok.inj hread)).2.2
  obtain ⟨k, body, hk, hlong, hcut⟩ := exists_take_of_long hlong
  -- as they are read, the events of this track are what is left of its body …
  have hleft := filter_numberedEvents 0 hcut
  rw [hevents, Nat.zero_add, mergeSort_by_number _ _ _ h.track, filter_flatMap_range] at hleft
  rw [bodies_ofEvents h.track h.ascending, List.getElem?_map, Option.map_eq_some_iff] at hk
  obtain ⟨track, htrack, hbody⟩ := hk
  obtain ⟨hrange, rfl⟩ := List.getElem?_eq_some_iff.1 htrack
  rw [List.length_range] at hrange
  rw [List.getElem_range] at hbody
  rw [if_pos hrange] at hleft
  -- … and that is fewer than there were
  have hlost := length_trackEvents_take_lt h hbody.symm hlong
  rw [← hleft] at hlost
  exact Nat.lt_irrefl _ hlost

/-- **Events that a file has room for are read back from it exactly if no track is too long.** -/
theorem inspect_ofEvents_iff (h : HasRoom trackCount events)
    (hfile : (ofEvents trackCount ticksPerQuarter events).file? = .ok bytes)
    (hdivision : ticksPerQuarter < 0x8000) :
    inspect bytes = .ok ⟨ticksPerQuarter, trackCount, events.mergeSort fun a b => a.track ≤ b.track⟩ ↔
      ∀ body ∈ (ofEvents trackCount ticksPerQuarter events).bodies, body.length < 4294967296 := by
  constructor
  · intro hread body hbody
    by_contra hlong
    exact inspect_ofEvents_ne_of_long h hfile hdivision ⟨body, hbody, Nat.le_of_not_lt hlong⟩ hread
  · exact inspect_ofEvents h hfile hdivision

end Sheet

end Melody.Midi
