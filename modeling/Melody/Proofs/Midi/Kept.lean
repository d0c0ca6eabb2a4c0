import Melody.Midi.Inspection
import Melody.Proofs.Midi.Messages

/-!
# What reading keeps

What is known of the events that are read from a file, whatever its bytes are. Running status and messages
that are passed over leave no trace in them but for the ticks, which are handed on to the next event.

## The architecture

* **`kept_of_message?`**: an event that is kept has room in a file, and its message has about as many bytes
  as the event itself.
* **`ReadsAs`** says what is known of the events of a track; **`readsAs_eventsFrom`** keeps it, message by
  message.
* **`ReadsAcross`** says it of the events of tracks that stand one behind the other:
  **`readsAcross_numberedEvents`**.
* **`length_trackData_le`**: the tracks of a file have no more bytes than the file.
-/

namespace Melody.Midi

/-! ## Messages that are kept -/

theorem le_of_not_status {b : UInt8} (h : ¬ 0x80 ≤ b) : b ≤ 127 := by
  rw [UInt8.le_iff_toNat_le] at h ⊢
  have hb : ¬ 128 ≤ b.toNat := h
  show b.toNat ≤ 127
  omega

theorem Event.fits_note {e : Event} {pitch velocity : UInt8}
    (he : e = .noteOn pitch velocity ∨ e = .noteOff pitch velocity) (hpitch : pitch ≤ 127)
    (hvelocity : velocity ≤ 127) : e.Fits := by
  have hdata : ∀ b ∈ [pitch, velocity], b ≤ 127 := by simp [hpitch, hvelocity]
  rcases he with rfl | rfl
  · exact ⟨hdata, nofun⟩
  · exact ⟨hdata, nofun⟩

/-- A tempo made of three bytes can be written in three. -/
theorem Event.fits_tempo (a b c : UInt8) :
    Event.Fits (.tempo (UInt32.ofNat (a.toNat * 65536 + b.toNat * 256 + c.toNat))) := by
  refine ⟨List.forall_mem_nil _, ?_⟩
  intro micros h
  obtain rfl := Event.tempo.inj h
  -- three bytes hold less than 2^24
  have ha := a.toNat_lt
  have hb := b.toNat_lt
  have hc := c.toNat_lt
  rw [UInt32.toNat_ofNat_of_lt' (by show _ < 4294967296; omega)]
  show _ ≤ 16777215
  omega

/-- A channel message that is kept is the start or the end of a note. -/
theorem kept_of_channelMessage? {status : UInt8} {bytes : List UInt8} {m : Message} {e : Event}
    (h : channelMessage? status bytes = some m) (he : m.event = some e) :
    e.Fits ∧ m.rest.length + e.bytes.length ≤ bytes.length + 1 := by
  unfold channelMessage? at h
  dsimp only at h
  split at h
  · next key value rest =>
    split at h
    · cases h
    · next hkey =>
      split at h
      · obtain rfl := Option.some.inj h
        cases he
      · split at h
        · cases h
        · -- two data bytes: only the notes among these messages are kept
          next hvalue =>
          obtain rfl := Option.some.inj h
          have hnote : e = .noteOn key value ∨ e = .noteOff key value := by
            rw [channelEvent?] at he
            split at he
            · exact .inr (Option.some.inj he).symm
            · exact .inl (Option.some.inj he).symm
            · cases he
          refine ⟨Event.fits_note hnote (le_of_not_status hkey) (le_of_not_status hvalue), ?_⟩
          rcases hnote with rfl | rfl
          · exact Nat.le_refl _
          · exact Nat.le_refl _
  · split at h
    · obtain rfl := Option.some.inj h
      cases he
    · cases h
  · cases h

/-- A meta message that is kept is a tempo. -/
theorem kept_of_metaEvent? {kind : UInt8} {data : List UInt8} {e : Event}
    (h : metaEvent? kind data = some (some e)) :
    e.Fits ∧ e.bytes.length ≤ data.length + 3 := by
  unfold metaEvent? at h
  -- a tempo is the only meta event that is kept
  split at h
  · next a b c rest =>
    obtain rfl := Option.some.inj (Option.some.inj h)
    exact ⟨Event.fits_tempo a b c, by simp [Event.bytes]⟩
  · split at h
    · cases h
    · cases h
  · cases h
  · cases h
  · cases h

/-- An event that is kept has room in a file, and its message misses the status at most. -/
theorem kept_of_message? {running : Option UInt8} {bytes : List UInt8} {m : Message} {e : Event}
    (h : message? running bytes = some m) (he : m.event = some e) :
    e.Fits ∧ m.rest.length + e.bytes.length ≤ bytes.length + 1 := by
  cases bytes with
  | nil => cases h
  | cons status rest =>
    unfold message? at h
    dsimp only at h
    split at h
    · -- a data byte where a status is due repeats the last status, so the message is one byte shorter
      obtain ⟨r, -, hr⟩ := Option.bind_eq_some_iff.1 h
      exact kept_of_channelMessage? hr he
    · split at h
      · obtain ⟨hfits, hlength⟩ := kept_of_channelMessage? h he
        exact ⟨hfits, Nat.le_succ_of_le hlength⟩
      · -- a system message is passed over by its length, and only a tempo is kept of the others
        split at h
        · obtain rfl := Option.some.inj h
          cases he
        · split at h
          · cases rest with
            | nil => cases h
            | cons kind data =>
              obtain ⟨event, hevent, rfl⟩ := Option.map_eq_some_iff.1 h
              obtain rfl : event = some e := he
              obtain ⟨hfits, hbytes⟩ := kept_of_metaEvent? hevent
              refine ⟨hfits, ?_⟩
              have hsized : (sized data).1.length + (sized data).2.length ≤ data.length := by
                have hquantity := length_quantityFrom_le 0 4 data
                simp only [sized, quantity, List.length_take, List.length_drop]
                omega
              simp only [List.length_cons]
              omega
          · cases h

/-! ## The events of a track -/

/-- The number of bytes of the messages of some events. -/
def messageBytes : List TimedEvent → Nat
  | [] => 0
  | e :: rest => e.event.bytes.length + messageBytes rest

theorem messageBytes_append (events events' : List TimedEvent) :
    messageBytes (events ++ events') = messageBytes events + messageBytes events' := by
  induction events with
  | nil => exact (Nat.zero_add _).symm
  | cons e rest ih => rw [List.cons_append, messageBytes, messageBytes, ih, Nat.add_assoc]

/-- Ticks never go back: the sum stops at the largest tick. -/
theorem le_addTicks (tick : UInt32) (delta : Nat) : tick ≤ addTicks tick delta := by
  have htick := tick.toNat_lt
  have hsize : UInt32.size = 4294967296 := rfl
  rw [UInt32.le_iff_toNat_le, addTicks, UInt32.toNat_ofNat_of_lt' (by omega)]
  omega

/-- What is known of the events that some bytes of one track hold, from a tick on. -/
structure ReadsAs (track : Nat) (tick : UInt32) (bytes : List UInt8) (events : List TimedEvent) :
    Prop where
  track : ∀ e ∈ events, e.track = track
  later : ∀ e ∈ events, tick ≤ e.tick
  ascending : events.Pairwise fun a b => a.tick ≤ b.tick
  fits : ∀ e ∈ events, e.event.Fits
  /-- The bytes are no fewer than those of full messages: a status that is left out weighs no more than the
  ticks, which are never left out. -/
  size : messageBytes events ≤ bytes.length

namespace ReadsAs

variable {track : Nat} {tick later : UInt32} {bytes rest : List UInt8} {events : List TimedEvent}

theorem nil : ReadsAs track tick bytes [] :=
  ⟨nofun, nofun, .nil, nofun, Nat.zero_le _⟩

/-- A message that is not kept leaves its ticks to the next. -/
theorem skip (h : ReadsAs track later rest events) (hlater : tick ≤ later)
    (hrest : rest.length ≤ bytes.length) : ReadsAs track tick bytes events where
  track := h.track
  later e he := UInt32.le_trans hlater (h.later e he)
  ascending := h.ascending
  fits := h.fits
  size := Nat.le_trans h.size hrest

/-- One more event in front, as far behind the last one as its delta says. -/
theorem cons {event : Event} (h : ReadsAs track later rest events) (hlater : tick ≤ later)
    (hfits : event.Fits) (hrest : rest.length + event.bytes.length ≤ bytes.length) :
    ReadsAs track tick bytes (⟨track, later, event⟩ :: events) where
  track := List.forall_mem_cons.2 ⟨rfl, h.track⟩
  later := List.forall_mem_cons.2 ⟨hlater, fun e he => UInt32.le_trans hlater (h.later e he)⟩
  ascending := List.pairwise_cons.2 ⟨h.later, h.ascending⟩
  fits := List.forall_mem_cons.2 ⟨hfits, h.fits⟩
  size := by
    have hsize := h.size
    rw [messageBytes]
    show event.bytes.length + messageBytes events ≤ bytes.length
    omega

end ReadsAs

/-- The reader keeps what is known, message by message. -/
theorem readsAs_eventsFrom (track : Nat) (tick : UInt32) (running : Option UInt8) (bytes : List UInt8) :
    ReadsAs track tick bytes (eventsFrom track tick running bytes) := by
  fun_induction eventsFrom track tick running bytes with
  | case1 => exact .nil
  | case2 => exact .nil
  | case3 tick running b rest tick' m hmessage hshorter ih =>
    have hlater : tick ≤ tick' := le_addTicks tick _
    -- the delta took at least one byte, which pays for the bytes of the event
    have hticks := length_quantity_lt b rest
    cases hkept : m.event with
    | none => exact ih.skip hlater (Nat.le_of_lt hshorter)
    | some event =>
      obtain ⟨hfits, hlength⟩ := kept_of_message? hmessage hkept
      exact ih.cons hlater hfits (by omega)

/-- A track is read from its start, at tick zero and without a status. -/
theorem readsAs_trackEvents (track : Nat) (data : List UInt8) :
    ReadsAs track 0 data (trackEvents track data) :=
  readsAs_eventsFrom track 0 none data

/-! ## The events of a file -/

/-- The order in which the events of a file are read: by track, then by tick. -/
def TimedEvent.NoLater (a b : TimedEvent) : Prop := a.track < b.track ∨ a.track = b.track ∧ a.tick ≤ b.tick

/-- What is known of the events of tracks that stand one behind the other from a number on. -/
structure ReadsAcross (track : Nat) (tracks : List (List UInt8)) (events : List TimedEvent) : Prop where
  track : ∀ e ∈ events, track ≤ e.track ∧ e.track < track + tracks.length
  ordered : events.Pairwise TimedEvent.NoLater
  fits : ∀ e ∈ events, e.event.Fits
  size : messageBytes events ≤ tracks.flatten.length

/-- The tracks one behind the other. Induction over the tracks, which are numbered from the first on. -/
theorem readsAcross_numberedEvents (track : Nat) (tracks : List (List UInt8)) :
    ReadsAcross track tracks (numberedEvents track tracks) := by
  induction tracks generalizing track with
  | nil => exact ⟨nofun, .nil, nofun, Nat.le_refl 0⟩
  | cons data tracks ih =>
    have hfirst := readsAs_trackEvents track data
    have hrest := ih (track + 1)
    rw [numberedEvents]
    refine ⟨?_, ?_, ?_, ?_⟩
    · intro e he
      rw [List.length_cons]
      rcases List.mem_append.1 he with he | he
      · have := hfirst.track e he
        omega
      · have := hrest.track e he
        omega
    · refine List.pairwise_append.2 ⟨?_, hrest.ordered, ?_⟩
      · apply hfirst.ascending.imp_of_mem
        intro a b ha hb hab
        exact .inr ⟨(hfirst.track a ha).trans (hfirst.track b hb).symm, hab⟩
      · -- the tracks behind have larger numbers
        intro a ha b hb
        have := hfirst.track a ha
        have := hrest.track b hb
        exact .inl (by omega)
    · intro e he
      rcases List.mem_append.1 he with he | he
      · exact hfirst.fits e he
      · exact hrest.fits e he
    · -- the bytes of a message lie in one track
      rw [messageBytes_append, List.flatten_cons, List.length_append]
      exact Nat.add_le_add hfirst.size hrest.size

/-! ## The bytes of a file -/

theorem length_cut?_le {bytes : List UInt8} {c : Cut} (h : cut? bytes = some c) :
    c.data.length + c.rest.length ≤ bytes.length := by
  unfold cut? at h
  split at h
  · cases h
  · cases h
    simp only [List.length_take, List.length_drop]
    omega

theorem length_next_track_le {bytes data rest : List UInt8}
    (h : Next.ofBytes bytes = .track data rest) : data.length + rest.length ≤ bytes.length := by
  fun_induction Next.ofBytes bytes with
  | case5 bytes _ c hc _ _ => cases h; exact length_cut?_le hc
  | case6 bytes _ c hc _ _ hlt ih => exact Nat.le_trans (ih h) (Nat.le_of_lt hlt)
  | _ => cases h

/-- The tracks of a file are parts of it that do not overlap. -/
theorem length_trackData_le (bytes : List UInt8) : (trackData bytes).flatten.length ≤ bytes.length := by
  fun_induction trackData bytes with
  | case1 => exact Nat.zero_le _
  | case2 => exact Nat.zero_le _
  | case3 bytes division rest _ hlt ih => exact Nat.le_trans ih (Nat.le_of_lt hlt)
  | case4 bytes data rest hnext _ ih =>
    have hparts := length_next_track_le hnext
    rw [List.flatten_cons, List.length_append]
    omega

end Melody.Midi
