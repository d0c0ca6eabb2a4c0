import Melody.Proofs.InPlace
import Melody.Proofs.Scale.Composition
import Melody.Proofs.Scale.KeyPairs

/-!
# A change of key, pitch by pitch

What a change of key does to a track can be said of each of its pitches alone, by the degrees of the two scales
and without the table that is made of them. All else about the track stays as it was.

## The architecture

* **`Scale.IsLastMove`** is the one place in the scales that counts for a pitch class: of the degrees of the
  class that have to move, the last. **`hit?_eq_some_iff`** and **`hit?_eq_none_iff`** find it in the table.
* **`Pitch.IsModulated`** says what becomes of a pitch, and **`shifted_eq_ok_iff`** that the table does it.
* **`Chord.IsModulated`** and **`Track.IsModulated`** go up the layers, and **`modulate_pitch_by_pitch`** is the
  change of a track where it stands.
-/

namespace Melody

open Outcome

/-- The last element of a list that a test lets through, by its place. -/
theorem getLast?_filter_eq_some_iff {α : Type} {p : α → Bool} {l : List α} {a : α} :
    (l.filter p).getLast? = some a ↔
      ∃ i : Nat, l[i]? = some a ∧ p a = true ∧ ∀ (j : Nat) b, i < j → l[j]? = some b → ¬ p b = true := by
  constructor
  · intro h
    -- the last that passes is the first in the reversed list
    rw [List.getLast?_filter, List.find?_eq_some_iff_append] at h
    obtain ⟨hp, behind, before, hl, hbehind⟩ := h
    obtain rfl : l = before.reverse ++ a :: behind.reverse := by
      rw [← List.reverse_reverse l, hl, List.reverse_append, List.reverse_cons, List.append_assoc]
      rfl
    refine ⟨before.length, by simp, hp, ?_⟩
    intro j b hj hb
    rw [List.getElem?_append_right (by rw [List.length_reverse]; omega), List.length_reverse,
      List.getElem?_cons, if_neg (by omega)] at hb
    simpa using hbehind b (List.mem_reverse.1 (List.mem_of_getElem? hb))
  · rintro ⟨i, hi, hp, hlast⟩
    obtain ⟨hlt, ha⟩ := List.getElem?_eq_some_iff.1 hi
    have hbehind : (l.drop (i + 1)).filter p = [] := by
      rw [List.filter_eq_nil_iff]
      intro b hb
      obtain ⟨k, hk⟩ := List.mem_iff_getElem?.1 hb
      rw [List.getElem?_drop] at hk
      exact hlast (i + 1 + k) b (by omega) hk
    -- nothing behind the place passes, so what is filtered ends with it
    have hl : l = l.take i ++ a :: l.drop (i + 1) := by
      rw [← ha, ← List.drop_eq_getElem_cons, List.take_append_drop]
    rw [hl, List.filter_append, List.filter_cons_of_pos hp, hbehind, List.getLast?_append]
    rfl

namespace Scale

variable {source dest : Scale}

/-- The place that counts for a pitch class between two scales: the degree there is of the class and has a
match somewhere else, and no degree of the class behind it has. -/
structure IsLastMove (source dest : Scale) (key : Int) (i : Nat) (degree goal : Int32) : Prop where
  degree_at : source.degrees[i]? = some degree
  goal_at : dest.degrees[i]? = some goal
  of_class : degree.toInt % octaveWidth = key
  leaves : goal ≠ degree
  last : ∀ (j : Nat) degree' goal', i < j → source.degrees[j]? = some degree' →
    dest.degrees[j]? = some goal' → degree'.toInt % octaveWidth = key → goal' = degree'

/-- The moves between two scales, by their places. -/
theorem mem_moves_iff {degree goal : Int32} :
    (degree, goal) ∈ source.degrees.zip dest.degrees ↔
      ∃ i : Nat, source.degrees[i]? = some degree ∧ dest.degrees[i]? = some goal := by
  rw [List.mem_iff_getElem?]
  exact exists_congr fun i => List.getElem?_zip_eq_some

/-- A pair of degrees leaves a class if its first degree is in the class and the second is another degree. -/
theorem leaves_iff {key : Int} {move : Int32 × Int32} :
    leaves key move = true ↔ move.1.toInt % octaveWidth = key ∧ move.2 ≠ move.1 := by
  rw [leaves, Bool.and_eq_true, beq_iff_eq, bne_iff_ne, ne_comm]

/-- A pitch is moved by the last pair that leaves its class. -/
theorem hit?_eq_some_iff {p : Pitch} {d : Int} :
    source.hit? dest p = some d ↔
      ∃ i degree goal, source.IsLastMove dest p.residue i degree goal ∧ d = goal.toInt - degree.toInt := by
  rw [hit?, Option.map_eq_some_iff]
  -- the last element of a filtered list, said by its position among the moves
  simp only [getLast?_filter_eq_some_iff, leaves_iff, List.getElem?_zip_eq_some]
  constructor
  · rintro ⟨⟨degree, goal⟩, ⟨i, ⟨hdegree, hgoal⟩, ⟨hclass, hleaves⟩, hlast⟩, rfl⟩
    refine ⟨i, degree, goal, ⟨hdegree, hgoal, hclass, hleaves, ?_⟩, rfl⟩
    intro j degree' goal' hj hdegree' hgoal' hclass'
    by_contra hne
    exact hlast j (degree', goal') hj ⟨hdegree', hgoal'⟩ ⟨hclass', hne⟩
  · rintro ⟨i, degree, goal, h, rfl⟩
    refine ⟨(degree, goal), ⟨i, ⟨h.degree_at, h.goal_at⟩, ⟨h.of_class, h.leaves⟩, ?_⟩, rfl⟩
    rintro j ⟨degree', goal'⟩ hj ⟨hdegree', hgoal'⟩ ⟨hclass', hne⟩
    exact hne (h.last j degree' goal' hj hdegree' hgoal' hclass')

/-- It is not moved if no pair does. -/
theorem hit?_eq_none_iff {p : Pitch} :
    source.hit? dest p = none ↔ ∀ (i : Nat) degree goal, source.degrees[i]? = some degree →
      dest.degrees[i]? = some goal → degree.toInt % octaveWidth = p.residue → goal = degree := by
  rw [hit?, Option.map_eq_none_iff, List.getLast?_eq_none_iff, List.filter_eq_nil_iff]
  simp only [leaves_iff, not_and, not_not]
  constructor
  · intro h i degree goal hdegree hgoal hclass
    exact h (degree, goal) (mem_moves_iff.2 ⟨i, hdegree, hgoal⟩) hclass
  · rintro h ⟨degree, goal⟩ hmove hclass
    obtain ⟨i, hdegree, hgoal⟩ := mem_moves_iff.1 hmove
    exact h i degree goal hdegree hgoal hclass

end Scale

/-! ## Pitches, chords and tracks -/

/-- What becomes of a pitch: it goes as far as the last degree of its letter and accidental that has to move,
and is canonical then; where no such degree has to move it stays, spelling and all. -/
structure Pitch.IsModulated (source dest : Scale) (p q : Pitch) : Prop where
  moved : ∀ i degree goal, source.IsLastMove dest p.residue i degree goal →
    q.IsCanonical ∧ q.value = p.value + (goal.toInt - degree.toInt)
  kept : (∀ (i : Nat) degree goal, source.degrees[i]? = some degree → dest.degrees[i]? = some goal →
    degree.toInt % octaveWidth = p.residue → goal = degree) → q = p

structure Chord.IsModulated (source dest : Scale) (c d : Chord) : Prop where
  length : d.length = c.length
  pitches : List.Forall₂ (Pitch.IsModulated source dest) c.pitches d.pitches

structure Track.IsModulated (source dest : Scale) (t u : Track) : Prop where
  octave : u.octave = t.octave
  velocity : u.velocity = t.velocity
  chords : List.Forall₂ (Chord.IsModulated source dest) t.chords u.chords

/-- Two scales whose degrees can be matched: they are of one size, and no degree is too far from its match. -/
structure Scale.Matches (source dest : Scale) : Prop where
  size : source.size = dest.size
  distances : ∀ (i : Nat) degree goal, source.degrees[i]? = some degree → dest.degrees[i]? = some goal →
    IsWord (goal.toInt - degree.toInt)

namespace Scale

variable {source dest : Scale} {table : ShiftTable}

/-- The table of shifts can be made exactly if the scales match. -/
theorem exists_shiftsTo_iff_matches : (∃ table, source.shiftsTo dest = .ok table) ↔ source.Matches dest := by
  rw [exists_shiftsTo_iff]
  constructor
  · rintro ⟨hsize, hdistances⟩
    refine ⟨hsize, ?_⟩
    intro i degree goal hdegree hgoal
    exact hdistances (degree, goal) (mem_moves_iff.2 ⟨i, hdegree, hgoal⟩)
  · intro h
    refine ⟨h.size, ?_⟩
    rintro ⟨degree, goal⟩ hmove
    obtain ⟨i, hdegree, hgoal⟩ := mem_moves_iff.1 hmove
    exact h.distances i degree goal hdegree hgoal

/-- Shifting a pitch by the table is modulating it, as the scales say. -/
theorem shifted_eq_ok_iff (htable : source.shiftsTo dest = .ok table) {p q : Pitch} :
    p.shifted table = .ok q ↔ p.IsModulated source dest q := by
  rw [shifted_eq_hit? htable]
  -- either no pair of degrees moves the class of the pitch, or the last one that does moves it
  cases hhit : source.hit? dest p with
  | none =>
    have hstays := hit?_eq_none_iff.1 hhit
    constructor
    · intro h
      obtain rfl : p = q := Except.ok.inj h
      refine ⟨?_, fun _ => rfl⟩
      intro i degree goal hlast
      exact absurd (hstays i degree goal hlast.degree_at hlast.goal_at hlast.of_class) hlast.leaves
    · intro h
      rw [h.kept hstays]
  | some d =>
    obtain ⟨i, degree, goal, hlast, rfl⟩ := hit?_eq_some_iff.1 hhit
    show Pitch.canonical _ = _ ↔ _
    rw [Pitch.canonical_eq_ok_iff_isCanonical]
    constructor
    · intro h
      refine ⟨?_, ?_⟩
      · intro i' degree' goal' hlast'
        -- the distance is that of the table, whichever place it is read off from
        have hsame := hhit.symm.trans (hit?_eq_some_iff.2 ⟨i', degree', goal', hlast', rfl⟩)
        rw [← Option.some.inj hsame]
        exact h
      · intro hstays
        exact absurd (hstays i degree goal hlast.degree_at hlast.goal_at hlast.of_class) hlast.leaves
    · intro h
      exact h.moved i degree goal hlast

end Scale

/-- A chord is modulated pitch by pitch. -/
theorem Chord.shifted_eq_ok_iff {source dest : Scale} {table : ShiftTable}
    (htable : source.shiftsTo dest = .ok table) {c d : Chord} :
    c.shifted table = .ok d ↔ c.IsModulated source dest d := by
  rw [shifted, mapPitches_eq_ok_iff, mapM_eq_ok_iff]
  simp only [Scale.shifted_eq_ok_iff htable]
  constructor
  · rintro ⟨hpitches, hlength⟩
    exact ⟨hlength, hpitches⟩
  · intro h
    exact ⟨h.pitches, h.length⟩

namespace Track

variable {source dest : Scale} {t u : Track}

/-- And a track chord by chord, by scales that match. -/
theorem modulated_eq_ok_iff_isModulated :
    t.modulated source dest = .ok u ↔ source.Matches dest ∧ t.IsModulated source dest u := by
  -- with the table at hand, modulating is a change of the chords one by one
  have hchords {table : ShiftTable} (htable : source.shiftsTo dest = .ok table) :
      t.mapChords (·.shifted table) = .ok u ↔ t.IsModulated source dest u := by
    rw [mapChords_eq_ok_iff, mapM_eq_ok_iff]
    simp only [Chord.shifted_eq_ok_iff htable]
    constructor
    · rintro ⟨hchords, hoctave, hvelocity⟩
      exact ⟨hoctave, hvelocity, hchords⟩
    · intro h
      exact ⟨h.chords, h.octave, h.velocity⟩
  rw [modulated_eq_ok_iff, ← Scale.exists_shiftsTo_iff_matches]
  constructor
  · rintro ⟨table, htable, hu⟩
    exact ⟨⟨table, htable⟩, (hchords htable).1 hu⟩
  · rintro ⟨⟨table, htable⟩, hu⟩
    exact ⟨table, htable, (hchords htable).2 hu⟩

end Track

/-- A pitch whose letter and accidental are no class of the scale, above all one that is spelled outside the
twelve residues, is where no degree is. -/
theorem Pitch.IsModulated.eq_of_not_mem {source dest : Scale} {p q : Pitch} (h : p.IsModulated source dest q)
    (hp : p.residue ∉ source.pitchClasses) : q = p := by
  apply h.kept
  intro i degree goal hdegree _ hclass
  exact absurd (List.mem_map.2 ⟨degree, List.mem_of_getElem? hdegree, hclass⟩) hp

/-- The classes of a scale are those of one octave, however far apart its degrees are. -/
theorem Scale.bounds_of_mem_pitchClasses {s : Scale} {key : Int} (h : key ∈ s.pitchClasses) :
    0 ≤ key ∧ key < octaveWidth := by
  obtain ⟨degree, -, rfl⟩ := List.mem_map.1 h
  simp only [octaveWidth]
  omega

namespace Track

/-- **A change of key, pitch by pitch.** It can be made exactly if the degrees of the two scales match and every
pitch has somewhere to go, and it changes nothing but the pitches. A pitch goes as far as the last degree of
its class that has to move, and stays as it is spelled if there is none: if it is not spelled as one of the
twelve residues, if the scale has no degree there, or if all of these stay. A change into the same key changes
nothing. -/
theorem modulate_pitch_by_pitch :
    (∀ (source dest : Scale) (t u : Track), (modulate source dest).on t = (.ok (), u) ↔
      source.Matches dest ∧ t.IsModulated source dest u) ∧
    (∀ (source dest : Scale) (p q : Pitch), p.IsModulated source dest q →
      p.residue < 0 ∨ octaveWidth ≤ p.residue ∨ p.residue ∉ source.pitchClasses → q = p) ∧
    ∀ (s : Scale) (t : Track), (modulate s s).on t = (.ok (), t) := by
  refine ⟨?_, ?_, ?_⟩
  · intro source dest t u
    rw [(replaces_modulate source dest).on_eq_ok_iff, modulated_eq_ok_iff_isModulated]
  · intro source dest p q h hp
    apply h.eq_of_not_mem
    intro hmem
    have hbounds := Scale.bounds_of_mem_pitchClasses hmem
    -- a residue outside the octave is no class of any scale
    obtain hlow | hhigh | hp := hp
    · omega
    · omega
    · exact hp hmem
  · intro s t
    exact (replaces_modulate s s).on_of_ok (t.modulated_self s)

/-- A C, a C flat and an E below it, and then a D. -/
def carillon : Track := ⟨[⟨[⟨.c, 0, 0⟩, ⟨.c, -1, 1⟩, ⟨.e, 0, -1⟩], .ofFloat 1⟩, ⟨[⟨.d, 0, 0⟩], .ofFloat 2⟩], 5, 64⟩

/-- From a triad with its octave into one whose octave lies a ninth higher. The class of C has two degrees, of
which only the second moves; C flat and D are no degrees at all. -/
theorem modulate_pitch_by_pitch_carillon :
    ∃ u : Track, (modulate ⟨[0, 4, 7, 12]⟩ ⟨[0, 3, 7, 26]⟩).on carillon = (.ok (), u) ∧
      u.chords = [⟨[⟨.d, 0, 1⟩, ⟨.c, -1, 1⟩, ⟨.e, -1, -1⟩], .ofFloat 1⟩, ⟨[⟨.d, 0, 0⟩], .ofFloat 2⟩] ∧
      Scale.Matches ⟨[0, 4, 7, 12]⟩ ⟨[0, 3, 7, 26]⟩ ∧ carillon.IsModulated ⟨[0, 4, 7, 12]⟩ ⟨[0, 3, 7, 26]⟩ u ∧
      (∀ q, (⟨.c, -1, 1⟩ : Pitch).IsModulated ⟨[0, 4, 7, 12]⟩ ⟨[0, 3, 7, 26]⟩ q → q = ⟨.c, -1, 1⟩) ∧
      (modulate ⟨[0, 4, 7, 12]⟩ ⟨[0, 4, 7, 12]⟩).on carillon = (.ok (), carillon) := by
  obtain ⟨hmodulate, hkept, hself⟩ := modulate_pitch_by_pitch
  have hu : (modulate ⟨[0, 4, 7, 12]⟩ ⟨[0, 3, 7, 26]⟩).on carillon = (.ok (), ⟨[⟨[⟨.d, 0, 1⟩, ⟨.c, -1, 1⟩,
      ⟨.e, -1, -1⟩], .ofFloat 1⟩, ⟨[⟨.d, 0, 0⟩], .ofFloat 2⟩], 5, 64⟩) := by decide +kernel
  obtain ⟨hmatches, hmodulated⟩ := (hmodulate _ _ _ _).1 hu
  refine ⟨_, hu, rfl, hmatches, hmodulated, ?_, hself _ _⟩
  intro q hq
  exact hkept _ _ _ _ hq (.inl (by decide))

end Track

end Melody
