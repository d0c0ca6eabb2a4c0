import Mathlib.Logic.Function.Iterate
import Melody.InPlace
import Melody.Proofs.Changes
import Melody.Proofs.Pitch.Canonical

/-!
# Changes in place are all or nothing

A change of a track or a song can fail in the last pitch of the last chord of the last track, when all others
have been changed already. What it leaves is the track or the song as it was.

## The architecture

* **`Change.Replaces`** ties a change to the function that makes the new value: it leaves the new value or,
  where there is none, the old one. Such a change is **`AllOrNothing`**.
* **`each_of_mapM_ok`** and **`each_of_mapM_error`**: what the elements of a list do one by one. A failure leaves
  some of them changed.
* **`replaces_all`**: on a copy that does no harm. The changes of tracks and songs are made of this.
* **`Song.IsTransposed`** says what a transposition does, field by field, and **`exists_transposed_iff`** when it
  can be made.
-/

namespace Melody

open Outcome

/-! ## Changes and values -/

namespace Change

variable {σ τ : Type} {change : Change σ Unit} {f : σ → Result σ} {value left : σ} {fault : Error}

/-- Whatever makes the change fail, the value is left as it was. -/
def AllOrNothing (change : Change σ Unit) : Prop :=
  ∀ value fault left, change.on value = (.error fault, left) → left = value

/-- A new value, or the failure to make one with the old value left. -/
def settle (old : σ) : Result σ → Result Unit × σ
  | .ok made => (.ok (), made)
  | .error fault => (.error fault, old)

/-- The change leaves what the function makes of the value, and the value itself if that fails. -/
def Replaces (change : Change σ Unit) (f : σ → Result σ) : Prop :=
  ∀ value, change.on value = settle value (f value)

/-- Where the function makes a value, the change leaves that value behind. -/
theorem Replaces.on_of_ok {made : σ} (h : change.Replaces f) (hmade : f value = .ok made) :
    change.on value = (.ok (), made) := by
  rw [h, hmade, settle]

/-- Where it fails, the change fails with the same error and leaves the value it was given. -/
theorem Replaces.on_of_error (h : change.Replaces f) (hfault : f value = .error fault) :
    change.on value = (.error fault, value) := by
  rw [h, hfault, settle]

theorem Replaces.on_eq_ok_iff (h : change.Replaces f) :
    change.on value = (.ok (), left) ↔ f value = .ok left := by
  cases hf : f value with
  | ok made =>
    rw [h.on_of_ok hf, Prod.mk.injEq, and_iff_right rfl, Except.ok.injEq]
  | error fault =>
    rw [h.on_of_error hf]
    exact iff_of_false nofun nofun

/-- A change fails with the errors of its function, and then nothing has changed. -/
theorem Replaces.on_eq_error_iff (h : change.Replaces f) :
    change.on value = (.error fault, value) ↔ f value = .error fault := by
  cases hf : f value with
  | ok made =>
    rw [h.on_of_ok hf]
    exact iff_of_false nofun nofun
  | error fault' => rw [h.on_of_error hf, Prod.mk.injEq, and_iff_left rfl, Except.error.injEq, Except.error.injEq]

theorem Replaces.succeeds_iff (h : change.Replaces f) :
    (change.on value).1 = .ok () ↔ ∃ made, f value = .ok made := by
  cases hf : f value with
  | ok made => exact iff_of_true (by rw [h.on_of_ok hf]) ⟨made, rfl⟩
  | error fault =>
    rw [h.on_of_error hf]
    exact iff_of_false nofun nofun

/-- A change that replaces the value by that of a function has no partial effect. It is what every operation
is shown to be. -/
theorem Replaces.allOrNothing (h : change.Replaces f) : change.AllOrNothing := by
  intro value fault left hleft
  cases hf : f value with
  | ok made =>
    rw [h.on_of_ok hf] at hleft
    cases hleft
  | error fault' =>
    rw [h.on_of_error hf] at hleft
    exact (Prod.mk.inj hleft).2.symm

/-! ## Lists -/

variable {change : Change τ Unit} {f : τ → Result τ} {l values : List τ}

/-- A change of every element in turn makes what the function makes of the whole list. Induction over the
elements. -/
theorem each_of_mapM_ok (h : change.Replaces f) (hvalues : l.mapM f = .ok values) :
    change.each l = (.ok (), values) := by
  rw [mapM_eq_ok_iff] at hvalues
  induction hvalues with
  | nil => rfl
  | cons hab _ ih =>
    rw [each, h.on_of_ok hab]
    dsimp only
    rw [ih]

/-- The failure of a list is that of its first element that fails; what is left of the list is another matter. -/
theorem each_of_mapM_error (h : change.Replaces f) (hfault : l.mapM f = .error fault) :
    ∃ left, change.each l = (.error fault, left) := by
  induction l with
  | nil => cases hfault
  | cons a l ih =>
    rw [List.mapM_cons] at hfault
    cases ha : f a with
    | error fault' =>
      rw [ha] at hfault
      obtain rfl : fault' = fault := Except.error.inj hfault
      -- the elements behind the fault keep their old values, those before it their new ones
      rw [each, h.on_of_error ha]
      exact ⟨a :: l, rfl⟩
    | ok b =>
      cases hl : l.mapM f with
      | ok values =>
        rw [ha, hl] at hfault
        cases hfault
      | error fault' =>
        rw [ha, hl] at hfault
        obtain rfl : fault' = fault := Except.error.inj hfault
        obtain ⟨left, hleft⟩ := ih hl
        rw [each, h.on_of_ok ha]
        dsimp only
        rw [hleft]
        exact ⟨b :: left, rfl⟩

/-! ## Steps of a change -/

/-- A result that is needed is asked for before anything is changed. -/
theorem on_demand_bind {α : Type} (result : Result α) (rest : α → Change σ Unit) (value : σ) :
    (demand result >>= rest).on value =
      match result with
      | .ok a => (rest a).on value
      | .error fault => (.error fault, value) := by
  cases result with
  | ok a => rfl
  | error fault => rfl

theorem on_get_bind (rest : σ → Change σ Unit) (value : σ) :
    (get >>= rest : Change σ Unit).on value = (rest value).on value := rfl

/-- One change after another. A failure of the first leaves what the first leaves. -/
theorem on_bind (first second : Change σ Unit) (value : σ) :
    (first >>= fun _ => second).on value =
      match first.on value with
      | (.ok (), left) => second.on left
      | (.error fault, left) => (.error fault, left) := by
  show ((match first.on value with
    | (result, left) => (ExceptT.bindCont (fun _ => second) result).run left) : Id _).run = _
  rcases first.on value with ⟨fault | _, left⟩
  · rfl
  · rfl

/-- A change that cannot fail, made as many times as there are elements. -/
theorem on_forIn_modify {α : Type} (l : List α) (f : σ → σ) (value : σ) :
    (do for _ in l do modify f : Change σ Unit).on value = (.ok (), f^[l.length] value) := by
  induction l generalizing value with
  | nil => rfl
  | cons a l ih =>
    rw [List.length_cons, Function.iterate_succ_apply, ← ih (f value), List.forIn_cons]
    rfl

/-! ## Copies -/

variable (part : σ → List τ) (put : σ → List τ → σ)

/-- A change of all parts collects the changed parts and puts them back only if none failed. -/
theorem on_all (change : Change τ Unit) (value : σ) :
    (Change.all part put change).on value =
      (demand (change.each (part value)).1 >>= fun _ =>
        modify fun value' => put value' (change.each (part value)).2).on value := rfl

/-- All elements of a copy are changed, or nothing is. -/
theorem replaces_all (h : change.Replaces f) :
    (Change.all part put change).Replaces fun value => put value <$> (part value).mapM f := by
  intro value
  dsimp only
  rw [on_all, on_demand_bind]
  -- either every part takes its new value, or the change stops at the first that fails
  cases hpart : (part value).mapM f with
  | ok values =>
    rw [each_of_mapM_ok h hpart]
    rfl
  | error fault =>
    obtain ⟨left, hleft⟩ := each_of_mapM_error h hpart
    rw [hleft]
    rfl

end Change

open Change

/-! ## Chords and tracks -/

/-- The pitches are collected in a new list first, so a chord is changed as a whole or not at all. -/
theorem Chord.replaces_changePitches (f : Pitch → Result Pitch) :
    (Chord.changePitches f).Replaces (·.mapPitches f) := by
  intro c
  dsimp only
  rw [Chord.changePitches, on_get_bind, on_demand_bind, mapPitches]
  cases c.pitches.mapM f with
  | ok pitches => rfl
  | error fault => rfl

namespace Track

/-- What holds of a change of a chord holds of the change of every chord of a track. -/
theorem replaces_changeChords {change : Change Chord Unit} {f : Chord → Result Chord}
    (h : change.Replaces f) : (changeChords change).Replaces (·.mapChords f) :=
  replaces_all _ _ h

theorem replaces_transpose (delta : Int32) : (transpose delta).Replaces (·.transposed delta) :=
  replaces_changeChords (Chord.replaces_changePitches _)

/-- Modulating a track in place: the sizes of the scales are checked before any chord is looked at. -/
theorem replaces_modulate (source dest : Scale) :
    (modulate source dest).Replaces (·.modulated source dest) := by
  intro t
  dsimp only
  rw [modulate, on_demand_bind, modulated]
  cases source.shiftsTo dest with
  | ok table => exact replaces_changeChords (Chord.replaces_changePitches (·.shifted table)) t
  | error fault => rfl

/-- The text is read to its end before the first chord is appended. -/
theorem replaces_appendNotation (text : String) :
    (appendNotation text).Replaces (·.withNotation text) := by
  intro t
  dsimp only
  rw [appendNotation, on_demand_bind, withNotation]
  cases Notation.parse text with
  | ok chords => rfl
  | error fault => rfl

/-- Joining moves a copy of the other track, and appends it once all of it has moved. -/
theorem replaces_appendTrack (other : Track) : (appendTrack other).Replaces (·.appended other) := by
  intro t
  dsimp only
  rw [appendTrack, on_get_bind, on_demand_bind, appended]
  cases narrow ((other.octave.toInt - t.octave.toInt) * octaveWidth) with
  | error fault => rfl
  | ok shift =>
    -- the copy is what is changed, and left if that fails
    cases hother : other.transposed shift with
    | ok moved =>
      dsimp only
      rw [(replaces_transpose shift).on_of_ok hother, on_demand_bind]
      dsimp only [bind, Except.bind]
      rw [hother]
      rfl
    | error fault =>
      dsimp only
      rw [(replaces_transpose shift).on_of_error hother, on_demand_bind]
      dsimp only [bind, Except.bind]
      rw [hother]
      rfl

/-- Appending the same chords again and again is appending their repetition. -/
theorem iterate_extended (chords : List Chord) (n : Nat) (t : Track) :
    (·.extended chords)^[n] t = t.extended (List.replicate n chords).flatten := by
  induction n generalizing t with
  | zero =>
    rw [List.replicate_zero, List.flatten_nil, extended, List.append_nil]
    rfl
  | succ n ih =>
    rw [Function.iterate_succ_apply, ih, List.replicate_succ, List.flatten_cons, extended, extended, extended,
      List.append_assoc]

/-- The sign of the factor is checked before anything is appended, and appending cannot fail. -/
theorem replaces_repeatInPlace (factor : Int32) :
    (repeatInPlace factor).Replaces (·.repeated factor) := by
  intro t
  dsimp only
  rw [repeatInPlace, repeated]
  split
  · rfl
  · next hsign =>
    split
    · next hzero =>
      rw [hzero]
      rfl
    · next hzero =>
      -- the chords of the beginning count as well
      have hpositive : factor.toInt.toNat - 1 + 1 = factor.toInt.toNat := by
        have hne : factor.toInt ≠ 0 := fun h => hzero (Int32.toInt_inj.1 h)
        omega
      rw [on_get_bind, on_forIn_modify, List.length_range, iterate_extended, ← hpositive,
        List.replicate_succ, List.flatten_cons, Nat.add_sub_cancel]
      rfl

end Track

/-! ## Songs -/

namespace Song

/-- What holds of a change of a track holds of the change of every track of a song. -/
theorem replaces_changeTracks {change : Change Track Unit} {f : Track → Result Track}
    (h : change.Replaces f) : (changeTracks change).Replaces (·.mapTracks f) :=
  replaces_all _ _ h

theorem replaces_transpose (delta : Int32) : (transpose delta).Replaces (·.transposed delta) :=
  replaces_changeTracks (Track.replaces_transpose delta)

theorem replaces_modulate (source dest : Scale) :
    (modulate source dest).Replaces (·.modulated source dest) :=
  replaces_changeTracks (Track.replaces_modulate source dest)

end Song

/-! ## Transpositions -/

/-- A chord with every pitch some semitones higher, canonically spelled. -/
structure Chord.IsTransposed (delta : Int) (c d : Chord) : Prop where
  length : d.length = c.length
  pitches : List.Forall₂ (fun p q => Pitch.canonical (p.value + delta) = .ok q) c.pitches d.pitches

/-- A track that differs only in its chords, and these only in the height of their pitches. -/
structure Track.IsTransposed (delta : Int) (t u : Track) : Prop where
  octave : u.octave = t.octave
  velocity : u.velocity = t.velocity
  chords : List.Forall₂ (Chord.IsTransposed delta) t.chords u.chords

structure Song.IsTransposed (delta : Int) (s u : Song) : Prop where
  name : u.name = s.name
  tempo : u.tempo = s.tempo
  ticksPerQuarter : u.ticksPerQuarter = s.ticksPerQuarter
  tracks : List.Forall₂ (Track.IsTransposed delta) s.tracks u.tracks

theorem Chord.transposed_eq_ok_iff {c d : Chord} {delta : Int32} :
    c.transposed delta = .ok d ↔ c.IsTransposed delta.toInt d := by
  rw [transposed, mapPitches_eq_ok_iff, mapM_eq_ok_iff]
  exact ⟨fun ⟨hpitches, hlength⟩ => ⟨hlength, hpitches⟩, fun ⟨hlength, hpitches⟩ => ⟨hpitches, hlength⟩⟩

theorem Track.transposed_eq_ok_iff {t u : Track} {delta : Int32} :
    t.transposed delta = .ok u ↔ t.IsTransposed delta.toInt u := by
  rw [transposed, mapChords_eq_ok_iff, mapM_eq_ok_iff]
  simp only [Chord.transposed_eq_ok_iff]
  exact ⟨fun ⟨hchords, hoctave, hvelocity⟩ => ⟨hoctave, hvelocity, hchords⟩,
    fun ⟨hoctave, hvelocity, hchords⟩ => ⟨hchords, hoctave, hvelocity⟩⟩

namespace Song

variable {s u : Song} {delta : Int32}

/-- A transposed song, said by its tracks. -/
theorem transposed_eq_ok_iff : s.transposed delta = .ok u ↔ s.IsTransposed delta.toInt u := by
  rw [transposed, mapTracks_eq_ok_iff, mapM_eq_ok_iff]
  simp only [Track.transposed_eq_ok_iff]
  constructor
  · rintro ⟨htracks, hu⟩
    rw [hu]
    exact ⟨rfl, rfl, rfl, htracks⟩
  · intro h
    refine ⟨h.tracks, ?_⟩
    rw [← h.name, ← h.tempo, ← h.ticksPerQuarter]

/-- A song can be transposed when the octave of every new pitch has a word. -/
theorem exists_transposed_iff :
    (∃ u, s.transposed delta = .ok u) ↔ ∀ t ∈ s.tracks, ∀ c ∈ t.chords, ∀ p ∈ c.pitches,
      IsWord ((p.value + delta.toInt) / octaveWidth) := by
  rw [transposed, exists_mapTracks_eq_ok_iff]
  simp only [Track.transposed, Track.exists_mapChords_eq_ok_iff, Chord.transposed,
    Chord.exists_mapPitches_eq_ok_iff, Pitch.transposed, Pitch.moved, Pitch.exists_canonical_eq_ok_iff]

/-- **Editing is all or nothing, and touches nothing but what it names.** A change of a track or a song that
fails leaves every part of it as it was, wherever in it the failure lies. A transposition of a song succeeds
when the octaves of all new pitches have words; the pitches are then the canonical ones, and all else is as
before. -/
theorem all_or_nothing :
    ((∀ delta, (Track.transpose delta).AllOrNothing) ∧
      (∀ source dest, (Track.modulate source dest).AllOrNothing) ∧
      (∀ text, (Track.appendNotation text).AllOrNothing) ∧
      (∀ other, (Track.appendTrack other).AllOrNothing) ∧
      (∀ factor, (Track.repeatInPlace factor).AllOrNothing) ∧
      (∀ delta, (transpose delta).AllOrNothing) ∧
      ∀ source dest, (modulate source dest).AllOrNothing) ∧
    ∀ (s : Song) (delta : Int32),
      (((transpose delta).on s).1 = .ok () ↔ ∀ t ∈ s.tracks, ∀ c ∈ t.chords, ∀ p ∈ c.pitches,
        IsWord ((p.value + delta.toInt) / octaveWidth)) ∧
      ∀ u, (transpose delta).on s = (.ok (), u) → s.IsTransposed delta.toInt u := by
  refine ⟨⟨?_, ?_, ?_, ?_, ?_, ?_, ?_⟩, ?_⟩
  · exact fun delta => (Track.replaces_transpose delta).allOrNothing
  · exact fun source dest => (Track.replaces_modulate source dest).allOrNothing
  · exact fun text => (Track.replaces_appendNotation text).allOrNothing
  · exact fun other => (Track.replaces_appendTrack other).allOrNothing
  · exact fun factor => (Track.replaces_repeatInPlace factor).allOrNothing
  · exact fun delta => (replaces_transpose delta).allOrNothing
  · exact fun source dest => (replaces_modulate source dest).allOrNothing
  · intro s delta
    -- for the song's own transposition the condition is spelt out down to the single pitch
    refine ⟨?_, ?_⟩
    · rw [(replaces_transpose delta).succeeds_iff, exists_transposed_iff]
    · intro u hu
      exact transposed_eq_ok_iff.1 ((replaces_transpose delta).on_eq_ok_iff.1 hu)

/-- Two tracks whose very last pitch is the only one that stands in the highest octave. -/
def summit : Song where
  name := "Summit"
  tempo := 90
  ticksPerQuarter := 480
  tracks := [⟨[⟨[⟨.c, -1, 0⟩, ⟨.e, 1, 1⟩], .ofFloat 1⟩], 5, 64⟩,
    ⟨[⟨[], .ofFloat 2⟩, ⟨[⟨.d, 0, -3⟩, ⟨.b, 0, Int32.maxValue⟩], .ofFloat 0.5⟩], 4, 100⟩]

/-- A semitone up is one too many, though a chord of the first track has been moved by then; a semitone down is
not. -/
theorem all_or_nothing_summit :
    (transpose 1).on summit = (.error .pitchOverflow, summit) ∧
      (Change.each (Track.transpose 1) summit.tracks).2 ≠ summit.tracks ∧
      ∃ u, (transpose (-1)).on summit = (.ok (), u) ∧ summit.IsTransposed (-1) u := by
  obtain ⟨⟨-, -, -, -, -, hleft, -⟩, hsong⟩ := all_or_nothing
  -- the pitch at the top cannot be raised, though the track before it can
  have hfails : (transpose 1).on summit = (.error .pitchOverflow, ((transpose 1).on summit).2) := by
    decide +kernel
  have hpitches : ∀ t ∈ summit.tracks, ∀ c ∈ t.chords, ∀ p ∈ c.pitches,
      IsWord ((p.value + (-1 : Int32).toInt) / octaveWidth) := by decide +kernel
  obtain ⟨hsucceeds, hmoved⟩ := hsong summit (-1)
  have hmade : (transpose (-1)).on summit = (.ok (), ((transpose (-1)).on summit).2) :=
    Prod.ext (hsucceeds.2 hpitches) rfl
  refine ⟨?_, by decide +kernel, _, hmade, hmoved _ hmade⟩
  rw [hfails, hleft 1 _ _ _ hfails]

end Song

end Melody
