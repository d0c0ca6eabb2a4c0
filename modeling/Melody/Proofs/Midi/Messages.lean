import Melody.Midi.File
import Melody.Proofs.Midi.Quantity

/-!
# Tracks read back

The data of a track is read back event by event. What is written has a full status in front of every event,
so that it does not matter which status runs on from the event before.

## The architecture

* **`Event.Fits`** is what an event must keep to: a file has seven bits for a data byte of a note and three
  bytes for a tempo.
* **`message?_bytes`** reads one event, **`eventsFrom_of_message`** is one step of the reader.
* **`eventsFrom_deltaTimed`**: a run over events behind their ticks, as long as no two of them are too far
  apart (`gaps`).
* **`trackEvents_deltaTimed`**: a track whose events are in order of ticks comes back as it was.
-/

namespace Melody.Midi

open Quantity

/-! ## One event -/

namespace Event

/-- The data bytes of a note. -/
def data : Event → List UInt8
  | .tempo _ => []
  | .noteOn pitch velocity => [pitch, velocity]
  | .noteOff pitch velocity => [pitch, velocity]

/-- An event whose numbers have room in a file. -/
structure Fits (e : Event) : Prop where
  data : ∀ b ∈ e.data, b ≤ 127
  tempo : ∀ micros, e = .tempo micros → micros.toNat ≤ maxTempoMicros

/-- The status that runs on behind an event. -/
def running : Event → Option UInt8
  | .tempo _ => none
  | .noteOn .. => some 0x90
  | .noteOff .. => some 0x80

end Event

/-- Three bytes hold a tempo. -/
theorem tempo_of_bytes {micros : UInt32} (h : micros.toNat ≤ maxTempoMicros) :
    UInt32.ofNat ((micros >>> 16).toUInt8.toNat * 65536 + (micros >>> 8).toUInt8.toNat * 256 +
      micros.toUInt8.toNat) = micros := by
  -- below 2^24 the three shifted bytes are all of the number
  have hmax : maxTempoMicros = 16777215 := rfl
  rw [UInt32.toNat_toUInt8, UInt32.toNat_toUInt8, UInt32.toNat_toUInt8, UInt32.toNat_shiftRight,
    UInt32.toNat_shiftRight]
  rw [show micros.toNat >>> ((16 : UInt32).toNat % 32) = micros.toNat / 65536 from
      Nat.shiftRight_eq_div_pow ..,
    show micros.toNat >>> ((8 : UInt32).toNat % 32) = micros.toNat / 256 from
      Nat.shiftRight_eq_div_pow ..]
  rw [← UInt32.toNat_inj, UInt32.toNat_ofNat_of_lt' (by show _ < 4294967296; omega)]
  omega

theorem sized_three (a b c : UInt8) (rest : List UInt8) :
    sized (0x03 :: a :: b :: c :: rest) = ([a, b, c], rest) := rfl

/-- A message that is no channel message ends the running status. -/
theorem message?_meta (running : Option UInt8) (kind : UInt8) (data : List UInt8) :
    message? running (0xFF :: kind :: data) =
      (metaEvent? kind (sized data).1).map fun event => ⟨event, none, (sized data).2⟩ := by
  rw [message?, if_neg (by decide), if_neg (by decide), if_neg (by decide), if_pos rfl]

theorem not_status_of_le {b : UInt8} (h : b ≤ 127) : ¬ 0x80 ≤ b := by
  rw [UInt8.le_iff_toNat_le] at h ⊢
  show ¬ 128 ≤ b.toNat
  have hb : b.toNat ≤ 127 := h
  omega

/-- The message of a note: of the statuses whose messages have two data bytes. -/
theorem channelMessage?_pair {status pitch velocity : UInt8} (hpitch : pitch ≤ 127)
    (hvelocity : velocity ≤ 127)
    (hstatus : (status.toNat / 16 == 0xC || status.toNat / 16 == 0xD) = false) (rest : List UInt8) :
    channelMessage? status (pitch :: velocity :: rest) =
      some ⟨channelEvent? status pitch velocity, some status, rest⟩ := by
  rw [channelMessage?, hstatus, if_neg (not_status_of_le hpitch), if_neg Bool.false_ne_true,
    if_neg (not_status_of_le hvelocity)]

/-- An event that fits is read from in front of any other bytes, whichever status runs on. -/
theorem message?_bytes {e : Event} (h : e.Fits) (running : Option UInt8) (rest : List UInt8) :
    message? running (e.bytes ++ rest) = some ⟨some e, e.running, rest⟩ := by
  cases e with
  | tempo micros =>
    -- a tempo comes with its length, and leaves no status behind it
    show message? running (0xFF :: 0x51 :: 0x03 :: _ :: _ :: _ :: rest) = _
    rw [message?_meta, sized_three]
    show some (Message.mk (some (.tempo (UInt32.ofNat _))) none rest) = _
    rw [tempo_of_bytes (h.tempo micros rfl)]
    rfl
  -- a note has its status and two data bytes, and leaves its status running
  | noteOn pitch velocity =>
    show channelMessage? 0x90 (pitch :: velocity :: rest) = _
    rw [channelMessage?_pair (h.data pitch (by simp [Event.data]))
      (h.data velocity (by simp [Event.data])) (by decide)]
    rfl
  | noteOff pitch velocity =>
    show channelMessage? 0x80 (pitch :: velocity :: rest) = _
    rw [channelMessage?_pair (h.data pitch (by simp [Event.data]))
      (h.data velocity (by simp [Event.data])) (by decide)]
    rfl

/-! ## One step -/

theorem eventsFrom_nil (track : Nat) (tick : UInt32) (running : Option UInt8) :
    eventsFrom track tick running [] = [] := by
  rw [eventsFrom]

/-- One message is read behind its ticks, and reading goes on behind it. -/
theorem eventsFrom_of_message {bytes body : List UInt8} {delta : Nat} {running : Option UInt8}
    {m : Message} (hbytes : bytes ≠ []) (hquantity : quantity bytes = (delta, body))
    (hmessage : message? running body = some m) (track : Nat) (tick : UInt32) :
    eventsFrom track tick running bytes =
      (m.event.map fun event => ⟨track, addTicks tick delta, event⟩).toList ++
        eventsFrom track (addTicks tick delta) m.running m.rest := by
  obtain rfl : (quantity bytes).1 = delta := by rw [hquantity]
  obtain rfl : (quantity bytes).2 = body := by rw [hquantity]
  cases bytes with
  | nil => exact absurd rfl hbytes
  | cons b rest =>
    rw [eventsFrom]
    -- the reader looks for the message once more, so its result is carried in
    split
    · next hnone =>
      rw [hmessage] at hnone
      cases hnone
    · next m' hsome =>
      rw [hmessage] at hsome
      obtain rfl := Option.some.inj hsome
      rfl

theorem encode_append_ne_nil (n : Nat) (rest : List UInt8) : encode n ++ rest ≠ [] := by
  rw [encode]
  simp

theorem addTicks_sub {last tick : UInt32} (h : last ≤ tick) :
    addTicks last (tick.toNat - last.toNat) = tick := by
  have htick := tick.toNat_lt
  rw [UInt32.le_iff_toNat_le] at h
  rw [addTicks, Nat.add_sub_cancel' h, Nat.min_eq_left (by show _ ≤ 4294967295; omega)]
  exact UInt32.ofNat_toNat

/-- One event behind its gap is read, and reading goes on at its tick. -/
theorem eventsFrom_event {track : Nat} {last tick : UInt32} {e : Event} (hfits : e.Fits)
    (hlast : last ≤ tick) (hgap : tick.toNat - last.toNat < 2 ^ 28) (running : Option UInt8)
    (rest : List UInt8) :
    eventsFrom track last running (encode (tick.toNat - last.toNat) ++ e.bytes ++ rest) =
      ⟨track, tick, e⟩ :: eventsFrom track tick e.running rest := by
  rw [List.append_assoc, eventsFrom_of_message (encode_append_ne_nil _ _) (quantity_encode hgap _)
    (message?_bytes hfits running rest), addTicks_sub hlast]
  rfl

theorem eventsFrom_endOfTrack (track : Nat) (tick : UInt32) (running : Option UInt8) :
    eventsFrom track tick running endOfTrack = [] := by
  have hmessage : message? running [0xFF, 0x2F, 0x00] = some ⟨none, none, []⟩ := rfl
  rw [endOfTrack, eventsFrom_of_message (encode_append_ne_nil _ _) (quantity_encode (by decide) _)
    hmessage, eventsFrom_nil]
  rfl

/-! ## Tracks -/

/-- An event as it is put on a track. -/
def TimedEvent.entry (e : TimedEvent) : Entry := ⟨e.tick, e.event.bytes⟩

/-- The ticks between entries that follow one another, the first counted from a tick. -/
def deltas (last : Nat) : List Entry → List Nat
  | [] => []
  | e :: rest => (e.tick.toNat - last) :: deltas e.tick.toNat rest

/-- The ticks between events that follow one another, the first counted from a tick. -/
def gaps (last : Nat) (events : List TimedEvent) : List Nat := deltas last (events.map TimedEvent.entry)

/-- The gap to the first event comes first, and the others are measured from that event. -/
theorem gaps_cons (last : Nat) (e : TimedEvent) (rest : List TimedEvent) :
    gaps last (e :: rest) = (e.tick.toNat - last) :: gaps e.tick.toNat rest := rfl

/-- No two events are further apart than the later one is from the start. -/
theorem exists_tick_of_mem_gaps {gap last : Nat} {events : List TimedEvent} (h : gap ∈ gaps last events) :
    ∃ e ∈ events, gap ≤ e.tick.toNat := by
  induction events generalizing last with
  | nil => cases h
  | cons e rest ih =>
    rw [gaps_cons, List.mem_cons] at h
    rcases h with rfl | h
    · exact ⟨e, List.mem_cons_self, Nat.sub_le _ _⟩
    · obtain ⟨f, hf, hle⟩ := ih h
      exact ⟨f, List.mem_cons_of_mem e hf, hle⟩

/-- A run over events that follow one another: each is read where it was written. -/
theorem eventsFrom_deltaTimed {track : Nat} {last : UInt32} {running : Option UInt8}
    {events : List TimedEvent} (htrack : ∀ e ∈ events, e.track = track)
    (hfits : ∀ e ∈ events, e.event.Fits) (hlast : ∀ e ∈ events, last ≤ e.tick)
    (hsorted : events.Pairwise fun a b => a.tick ≤ b.tick)
    (hgaps : ∀ gap ∈ gaps last.toNat events, gap < 2 ^ 28) :
    eventsFrom track last running (deltaTimed last.toNat (events.map TimedEvent.entry) ++ endOfTrack) =
      events := by
  induction events generalizing last running with
  | nil => exact eventsFrom_endOfTrack track last running
  | cons e rest ih =>
    rw [List.forall_mem_cons] at htrack hfits hlast
    rw [gaps_cons, List.forall_mem_cons] at hgaps
    rw [List.pairwise_cons] at hsorted
    rw [List.map_cons, deltaTimed, List.append_assoc]
    -- the first event is read behind the gap to it, and the others from its tick on
    show eventsFrom track last running (encode (e.tick.toNat - last.toNat) ++ e.event.bytes ++ _) = _
    rw [eventsFrom_event hfits.1 hlast.1 hgaps.1]
    show _ :: eventsFrom track e.tick e.event.running
      (deltaTimed e.tick.toNat (rest.map TimedEvent.entry) ++ endOfTrack) = _
    rw [ih htrack.2 hfits.2 hsorted.1 hsorted.2 hgaps.2, ← htrack.1]

/-- A track of events in order of ticks is read back as it is. -/
theorem trackEvents_deltaTimed {track : Nat} {events : List TimedEvent}
    (htrack : ∀ e ∈ events, e.track = track) (hfits : ∀ e ∈ events, e.event.Fits)
    (hsorted : events.Pairwise fun a b => a.tick ≤ b.tick)
    (hgaps : ∀ gap ∈ gaps 0 events, gap < 2 ^ 28) :
    trackEvents track (deltaTimed 0 (events.map TimedEvent.entry) ++ endOfTrack) = events := by
  have hstart : ∀ e ∈ events, (0 : UInt32) ≤ e.tick := by
    intro e _
    exact UInt32.zero_le
  exact eventsFrom_deltaTimed htrack hfits hstart hsorted hgaps

/-- Entries in order of ticks are not moved when they are written. -/
theorem trackBody_of_sorted {entries : List Entry} (h : entries.Pairwise fun a b => a.tick ≤ b.tick) :
    trackBody entries = deltaTimed 0 entries ++ endOfTrack := by
  rw [trackBody, List.mergeSort_of_pairwise (h.imp decide_eq_true)]

end Melody.Midi
