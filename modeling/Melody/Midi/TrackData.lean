import Melody.Midi.Event

/-!
# Events in the data of a track

A track is a sequence of messages, each behind the ticks since the one before. A message starts with a
status byte; if it starts with a data byte instead, the status of the message before still runs. Only the
three events of `Melody.Midi.Event` are kept; all other messages are passed over, also the one that ends
the track. The first message that makes no sense ends the track, without failure.

* **`quantity`** reads ticks and lengths: at most four groups of seven bits, fewer if the data ends.
* **`message?`** reads one message behind its ticks.
* **`trackEvents`** reads a track.
-/

namespace Melody.Midi

/-- A quantity in at most `groups` further groups, and what follows it. The last group is taken whether or
not it is marked; at the end of the data, what has been read counts. -/
def quantityFrom (acc : Nat) : Nat → List UInt8 → Nat × List UInt8
  | 0, bytes => (acc, bytes)
  | _ + 1, [] => (acc, [])
  | groups + 1, b :: rest =>
    let acc := acc * 128 + b.toNat % 128
    if b < 0x80 then (acc, rest) else quantityFrom acc groups rest

/-- A quantity of at most four groups, and what follows it. -/
def quantity (bytes : List UInt8) : Nat × List UInt8 := quantityFrom 0 4 bytes

/-- Reading a quantity never makes the data longer. -/
theorem length_quantityFrom_le (acc groups : Nat) (bytes : List UInt8) :
    (quantityFrom acc groups bytes).2.length ≤ bytes.length := by
  induction groups generalizing acc bytes with
  | zero => simp [quantityFrom]
  | succ groups ih =>
    cases bytes with
    | nil => simp [quantityFrom]
    | cons b rest =>
      simp only [quantityFrom, List.length_cons]
      split
      · simp
      · exact Nat.le_succ_of_le (ih ..)

/-- Reading a quantity from data that is not empty uses up a byte. -/
theorem length_quantity_lt (b : UInt8) (rest : List UInt8) :
    (quantity (b :: rest)).2.length < (b :: rest).length := by
  simp only [quantity, quantityFrom, List.length_cons]
  split
  · simp
  · exact Nat.lt_succ_of_le (length_quantityFrom_le ..)

/-- Data behind its length, and what follows; data that is cut short is what is left. -/
def sized (bytes : List UInt8) : List UInt8 × List UInt8 :=
  let (size, rest) := quantity bytes
  (rest.take size, rest.drop size)

theorem length_sized_le (bytes : List UInt8) : (sized bytes).2.length ≤ bytes.length := by
  have := length_quantityFrom_le 0 4 bytes
  simp only [sized, quantity, List.length_drop]
  omega

/-! ## Messages -/

/-- Whether the data of a time offset is a time: hours, minutes, seconds and frames within their range, and
the frame rate named by two bits of the first byte. -/
def isTimeOffset (h m s f sub : UInt8) : Bool :=
  let rate : Nat := [24, 25, 29, 30].getD (h.toNat / 32 % 4) 0
  h.toNat % 32 < 24 && m < 60 && s < 60 && f.toNat < rate && sub < 100

/-- The event of a meta message, none if it is not kept. The whole is none for data that makes no sense. -/
def metaEvent? (kind : UInt8) (data : List UInt8) : Option (Option Event) :=
  match kind, data with
  | 0x51, a :: b :: c :: _ =>
    some (some (.tempo (UInt32.ofNat (a.toNat * 65536 + b.toNat * 256 + c.toNat))))
  | 0x54, h :: m :: s :: f :: sub :: _ => if isTimeOffset h m s f sub then some none else none
  | 0x59, [] | 0x59, [_] => none
  | _, _ => some none

/-- The event of a channel message, none if it is not kept. -/
def channelEvent? (status key value : UInt8) : Option Event :=
  match status.toNat / 16 with
  | 0x8 => some (.noteOff key value)
  | 0x9 => some (.noteOn key value)
  | _ => none

/-- What was read of a message. -/
structure Message where
  event : Option Event
  /-- The status that runs on behind it. -/
  running : Option UInt8
  rest : List UInt8

/-- A channel message behind its status: two data bytes, or one for the statuses `C` and `D`. -/
def channelMessage? (status : UInt8) (bytes : List UInt8) : Option Message :=
  let single := status.toNat / 16 == 0xC || status.toNat / 16 == 0xD
  match bytes with
  | key :: value :: rest =>
    if 0x80 ≤ key then none
    else if single then some ⟨none, some status, value :: rest⟩
    else if 0x80 ≤ value then none
    else some ⟨channelEvent? status key value, some status, rest⟩
  | [key] => if single && key < 0x80 then some ⟨none, some status, []⟩ else none
  | [] => none

/-- A message; none if it makes no sense. -/
def message? (running : Option UInt8) : List UInt8 → Option Message
  | [] => none
  | status :: rest =>
    if status < 0x80 then running.bind fun running => channelMessage? running (status :: rest)
    else if status < 0xF0 then channelMessage? status rest
    else if status = 0xF0 ∨ status = 0xF7 then some ⟨none, none, (sized rest).2⟩
    else if status = 0xFF then
      match rest with
      | [] => none
      | kind :: rest =>
        (metaEvent? kind (sized rest).1).map fun event => ⟨event, none, (sized rest).2⟩
    else none

theorem length_channelMessage?_le {status : UInt8} {bytes : List UInt8} {m : Message}
    (h : channelMessage? status bytes = some m) : m.rest.length ≤ bytes.length := by
  unfold channelMessage? at h
  split at h <;> grind

/-- Reading a message never makes the data longer. -/
theorem length_message?_le {running : Option UInt8} {bytes : List UInt8} {m : Message}
    (h : message? running bytes = some m) : m.rest.length ≤ bytes.length := by
  unfold message? at h
  split at h
  · cases h
  · next status rest =>
    have hsized := length_sized_le rest
    split at h
    · obtain ⟨r, -, hr⟩ := Option.bind_eq_some_iff.1 h
      exact length_channelMessage?_le hr
    · split at h
      · exact Nat.le_succ_of_le (length_channelMessage?_le h)
      · split at h
        · cases h
          exact Nat.le_succ_of_le hsized
        · split at h
          · split at h
            · cases h
            · next kind rest =>
              obtain ⟨event, -, rfl⟩ := Option.map_eq_some_iff.1 h
              have := length_sized_le rest
              simp only [List.length_cons]
              omega
          · cases h

/-! ## Tracks -/

/-- Ticks from the start, never past the last that a word holds. -/
def addTicks (tick : UInt32) (delta : Nat) : UInt32 :=
  UInt32.ofNat (min (tick.toNat + delta) (UInt32.size - 1))

/-- The events of a track from a tick on, with the status that runs. -/
def eventsFrom (track : Nat) (tick : UInt32) (running : Option UInt8) (bytes : List UInt8) :
    List TimedEvent :=
  match bytes with
  | [] => []
  | b :: rest =>
    let tick := addTicks tick (quantity (b :: rest)).1
    match h : message? running (quantity (b :: rest)).2 with
    -- whatever follows a message that makes no sense cannot be told apart
    | none => []
    | some m =>
      have : m.rest.length < (b :: rest).length :=
        Nat.lt_of_le_of_lt (length_message?_le h) (length_quantity_lt b rest)
      (m.event.map fun event => ⟨track, tick, event⟩).toList ++
        eventsFrom track tick m.running m.rest
termination_by bytes.length
decreasing_by exact this

/-- The events of the data of a track. -/
def trackEvents (track : Nat) (data : List UInt8) : List TimedEvent := eventsFrom track 0 none data

end Melody.Midi
