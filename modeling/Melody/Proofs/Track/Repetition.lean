import Melody.Proofs.Scale.Composition
import Melody.Proofs.Track.Joining

/-!
# Repetitions

A track that is repeated has so many copies of its chords. Copies of copies are copies again, and whatever is
done to all chords may be done before they are copied.

A track can also be repeated by putting it behind itself. That is not quite the same: what is put behind is moved,
if only by nothing, and so it is spelled anew. It sounds the same.

## The architecture

* **`getElem?_flatten_replicate`** finds an element among copies, and **`flatten_replicate_flatten_replicate`**
  is about copies of copies. **`IsRepeated`** says what a repetition is, and **`isRepeated_of_repeated`** that
  the program makes one.
* **`mapChords_repeated`** is why repeating commutes with other changes. A change that fails does so in the first
  copy.
* **`appendTimes`** puts a track behind another a number of times, and **`heard_of_appendTimes`** is the induction
  over the times.
* **`repetition_laws`** puts this together.
-/

namespace Melody

open Outcome

/-! ## Copies of lists -/

/-- An element among copies is found where it is in one of them. -/
theorem getElem?_flatten_replicate {α : Type} {l : List α} {n i : Nat} (h : i < n * l.length) :
    (List.replicate n l).flatten[i]? = l[i % l.length]? := by
  induction n generalizing i with
  | zero => omega
  | succ n ih =>
    rw [List.replicate_succ, List.flatten_cons]
    by_cases hfirst : i < l.length
    · rw [List.getElem?_append_left hfirst, Nat.mod_eq_of_lt hfirst]
    · -- the others are one copy further back
      rw [Nat.succ_mul] at h
      rw [List.getElem?_append_right (by omega), ih (by omega), ← Nat.mod_eq_sub_mod (by omega)]

theorem flatten_replicate_flatten_replicate {α : Type} (m n : Nat) (l : List α) :
    (List.replicate n (List.replicate m l).flatten).flatten = (List.replicate (m * n) l).flatten := by
  induction n with
  | zero => rfl
  | succ n ih =>
    rw [List.replicate_succ, List.flatten_cons, ih, Nat.mul_succ, Nat.add_comm, List.replicate_add,
      List.flatten_append]

namespace Track

variable {t u v : Track} {factor : Int32}

/-! ## Repetitions -/

/-- So many copies of a track: its settings, and its chords over and over. -/
structure IsRepeated (n : Nat) (t u : Track) : Prop where
  octave : u.octave = t.octave
  velocity : u.velocity = t.velocity
  copies : u.chords = (List.replicate n t.chords).flatten
  size : u.size = n * t.size
  chord : ∀ i < u.size, u.chords[i]? = t.chords[i % t.size]?

/-- A repeated track has its chords again and again, at every place. -/
theorem isRepeated_of_repeated (h : t.repeated factor = .ok u) : t.IsRepeated factor.toInt.toNat u := by
  obtain ⟨-, rfl⟩ := repeated_eq_ok_iff.1 h
  have hsize : (List.replicate factor.toInt.toNat t.chords).flatten.length = factor.toInt.toNat * t.size := by
    simp [size]
  refine ⟨rfl, rfl, rfl, hsize, ?_⟩
  intro i hi
  refine getElem?_flatten_replicate ?_
  rw [← size, ← hsize]
  exact hi

theorem repeated_eq_negativeRepeat_iff : t.repeated factor = .error (.negativeRepeat factor) ↔ factor.toInt < 0 := by
  by_cases hsign : factor.toInt < 0
  · exact iff_of_true (repeated_of_neg hsign t) hsign
  · rw [repeated_of_nonneg (by omega)]
    exact iff_of_false nofun hsign

/-- Repeating twice is repeating by the product, if that is a word. -/
theorem repeated_repeated {m n : Int32} (hm : 0 ≤ m.toInt) (hn : 0 ≤ n.toInt)
    (hword : IsWord (m.toInt * n.toInt)) (t : Track) :
    (t.repeated m >>= (·.repeated n)) = t.repeated (m * n) := by
  have hproduct : 0 ≤ (m * n).toInt := by
    rw [toInt_mul_of_isWord hword]
    exact Int.mul_nonneg hm hn
  rw [repeated_of_nonneg hm, repeated_of_nonneg hproduct, toInt_mul_of_isWord hword, Int.toNat_mul hm hn,
    ← flatten_replicate_flatten_replicate]
  exact repeated_of_nonneg hn _

/-! ## Repeating and changing -/

/-- Repeating and modulating may be done in either order, unless no copy is left. -/
theorem modulated_repeated (hfactor : 0 < factor.toInt) (t : Track) (source dest : Scale) :
    (t.repeated factor >>= (·.modulated source dest)) = t.modulated source dest >>= (·.repeated factor) := by
  unfold modulated
  cases htable : source.shiftsTo dest with
  | ok table => exact mapChords_repeated hfactor (·.shifted table) t
  | error fault =>
    -- the scales are looked at whatever the track is
    rw [repeated_of_nonneg (Int.le_of_lt hfactor)]
    rfl

/-- So may repeating and resizing, with any factor: resizing cannot fail. -/
theorem resized_repeated (t : Track) (factor : Int32) (length : Binary64) :
    (t.repeated factor).map (·.resized length) = (t.resized length).repeated factor := by
  by_cases hsign : factor.toInt < 0
  · rw [repeated_of_neg hsign, repeated_of_neg hsign]
    rfl
  · -- copying first or resizing first gives the same chords
    have hcopies : (List.replicate factor.toInt.toNat t.chords).flatten.map (·.resized length) =
        (List.replicate factor.toInt.toNat (t.resized length).chords).flatten := by
      rw [List.map_flatten, List.map_replicate]
      rfl
    rw [repeated_of_nonneg (by omega), repeated_of_nonneg (by omega), ← hcopies]
    rfl

/-! ## Repeating by appending -/

/-- Puts another track behind a number of times. -/
def appendTimes (other : Track) : Nat → Change Track Unit
  | 0 => pure ()
  | k + 1 => do
    appendTimes other k
    appendTrack other

/-- A track that is joined behind one of its octave is heard unchanged. -/
theorem heard_of_appended (h : u.appended t = .ok v) (hoctave : u.octave = t.octave) :
    v.heard = u.heard ++ t.heard := by
  obtain ⟨-, happended⟩ := appended_eq_ok_iff.1 h
  obtain ⟨moved, hv, hmoved⟩ := happended.chords
  -- with equal track octaves the appended chords move by nothing
  have hheard : t.heard = moved.map Chord.heard := by
    refine map_eq_map_of_forall₂ (hmoved.imp ?_)
    intro c d hcd
    have hvalues : c.pitches.map (·.value) = d.pitches.map (·.value) := by
      refine map_eq_map_of_forall₂ (hcd.pitches.imp ?_)
      intro p q hpq
      rw [Pitch.value_of_canonical hpq, above, hoctave, Int.sub_self, Int.mul_zero, Int.add_zero]
    rw [Chord.heard, Chord.heard, hvalues, hcd.length]
  rw [heard, hv, List.map_append, hheard, heard]

/-- Every time the same is heard once more, and the settings stay. -/
theorem heard_of_appendTimes {k : Nat} (h : (appendTimes t k).on t = (.ok (), u)) :
    u.octave = t.octave ∧ u.velocity = t.velocity ∧ u.heard = (List.replicate (k + 1) t.heard).flatten := by
  -- the octave is part of the induction, for it is what makes the distance nothing
  induction k generalizing u with
  | zero =>
    obtain rfl : t = u := (Prod.mk.inj h).2
    refine ⟨rfl, rfl, ?_⟩
    rw [List.replicate_one, List.flatten_singleton]
  | succ k ih =>
    rw [appendTimes, Change.on_bind] at h
    rcases hbefore : (appendTimes t k).on t with ⟨fault | _, before⟩
    · rw [hbefore] at h
      cases h
    · rw [hbefore] at h
      obtain ⟨hoctave, hvelocity, hheard⟩ := ih hbefore
      have happended := (replaces_appendTrack t).on_eq_ok_iff.1 h
      obtain ⟨-, hu⟩ := appended_eq_ok_iff.1 happended
      refine ⟨hu.octave.trans hoctave, hu.velocity.trans hvelocity, ?_⟩
      rw [heard_of_appended happended hoctave, hheard, List.replicate_succ' (n := k + 1), List.flatten_append,
        List.flatten_singleton]

/-- What is heard of a repeated track is heard that many times. -/
theorem heard_repeated (h : t.IsRepeated factor.toInt.toNat u) :
    u.heard = (List.replicate factor.toInt.toNat t.heard).flatten := by
  rw [heard, h.copies, List.map_flatten, List.map_replicate, heard]

/-- **The laws of repetition.** A negative number of copies is refused, and any other is made: the chords over
and over in the settings of the track. Copies of copies are as many as the product, as long as that is a word.
One copy or more may be made before or after all pitches or lengths are changed, with the same result or the
same failure. And a track that is put behind itself, where that can be done, sounds like the copies. -/
theorem repetition_laws (t : Track) :
    (∀ n : Int32,
      (t.repeated n = .error (.negativeRepeat n) ↔ n.toInt < 0) ∧
      ((repeatInPlace n).on t = (.error (.negativeRepeat n), t) ↔ n.toInt < 0) ∧
      (0 ≤ n.toInt → ∃ u, t.repeated n = .ok u ∧ (repeatInPlace n).on t = (.ok (), u) ∧
        t.IsRepeated n.toInt.toNat u)) ∧
    (∀ m n : Int32, 0 ≤ m.toInt → 0 ≤ n.toInt → IsWord (m.toInt * n.toInt) →
      (t.repeated m >>= (·.repeated n)) = t.repeated (m * n)) ∧
    ∀ n : Int32, 1 ≤ n.toInt →
      (∀ delta, (t.repeated n >>= (·.transposed delta)) = t.transposed delta >>= (·.repeated n)) ∧
      (∀ source dest,
        (t.repeated n >>= (·.modulated source dest)) = t.modulated source dest >>= (·.repeated n)) ∧
      (∀ factor, (t.repeated n).map (·.resized factor) = (t.resized factor).repeated n) ∧
      ∀ u, (appendTimes t (n.toInt.toNat - 1)).on t = (.ok (), u) →
        ∃ r, t.repeated n = .ok r ∧ r.octave = u.octave ∧ r.velocity = u.velocity ∧ r.heard = u.heard := by
  refine ⟨?_, ?_, ?_⟩
  · intro n
    refine ⟨repeated_eq_negativeRepeat_iff, ?_, ?_⟩
    · rw [(replaces_repeatInPlace n).on_eq_error_iff, repeated_eq_negativeRepeat_iff]
    · intro hn
      have hu := repeated_of_nonneg hn t
      exact ⟨_, hu, (replaces_repeatInPlace n).on_of_ok hu, isRepeated_of_repeated hu⟩
  · intro m n hm hn hword
    exact repeated_repeated hm hn hword t
  · intro n hn
    refine ⟨fun delta => mapChords_repeated hn _ t, modulated_repeated hn t, t.resized_repeated n, ?_⟩
    intro u hu
    obtain ⟨hoctave, hvelocity, hheard⟩ := heard_of_appendTimes hu
    have hr := isRepeated_of_repeated (repeated_of_nonneg (Int.le_of_lt hn) t)
    refine ⟨_, repeated_of_nonneg (Int.le_of_lt hn) t, hoctave.symm, hvelocity.symm, ?_⟩
    -- `n - 1` appends and the track itself make `n` copies
    rw [heard_repeated hr, hheard, Nat.sub_add_cancel (by omega)]

/-- An E sharp with the highest B of all, and a rest. -/
def ostinato : Track := ⟨[⟨[⟨.e, 1, 0⟩, ⟨.b, 0, Int32.maxValue⟩], .ofFloat 1⟩, ⟨[], .ofFloat 0.5⟩], 5, 64⟩

/-- The first copy cannot be moved a semitone up, and so neither can three. Put behind itself twice, the track
turns to F where it is moved, which sounds like the copies and is none of them. -/
theorem repetition_laws_ostinato :
    (ostinato.repeated (-1) = .error (.negativeRepeat (-1))) ∧
    (ostinato.repeated 2 >>= (·.repeated 3)) = ostinato.repeated 6 ∧
    (ostinato.repeated 3 >>= (·.transposed 1)) = .error .pitchOverflow ∧
    ∃ u r, (appendTimes ostinato 2).on ostinato = (.ok (), u) ∧ ostinato.repeated 3 = .ok r ∧
      ostinato.IsRepeated 3 r ∧ r.heard = u.heard ∧ r ≠ u := by
  obtain ⟨hcopies, hproduct, hchanges⟩ := repetition_laws ostinato
  obtain ⟨htransposed, -, -, happended⟩ := hchanges 3 (by decide)
  have htimes : (appendTimes ostinato 2).on ostinato = (.ok (), ⟨[⟨[⟨.e, 1, 0⟩, ⟨.b, 0, Int32.maxValue⟩], .ofFloat 1⟩,
      ⟨[], .ofFloat 0.5⟩, ⟨[⟨.f, 0, 0⟩, ⟨.b, 0, Int32.maxValue⟩], .ofFloat 1⟩, ⟨[], .ofFloat 0.5⟩,
      ⟨[⟨.f, 0, 0⟩, ⟨.b, 0, Int32.maxValue⟩], .ofFloat 1⟩, ⟨[], .ofFloat 0.5⟩], 5, 64⟩) := by decide +kernel
  obtain ⟨r, hr, -, -, hheard⟩ := happended _ htimes
  obtain ⟨r', hr', -, hrepeated⟩ := (hcopies 3).2.2 (by decide)
  obtain rfl : r' = r := Except.ok.inj (hr'.symm.trans hr)
  refine ⟨(hcopies (-1)).1.2 (by decide), hproduct 2 3 (by decide) (by decide) (by decide), ?_,
    _, r', htimes, hr, hrepeated, hheard, ?_⟩
  · rw [htransposed 1]
    decide +kernel
  · -- the pitches of the copies were spelled anew when they were appended
    rintro rfl
    exact absurd hr (by decide +kernel)

end Track

end Melody
