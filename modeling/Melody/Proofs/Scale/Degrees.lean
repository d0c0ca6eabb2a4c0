import Melody.Proofs.Scale.Modulation

/-!
# Degrees outside the scale

A scale goes on above its last degree and below its first, an octave further with every whole scale.

## The architecture

* **`FallsOn`** is where a degree goes: so many octaves away from one of the degrees that the scale has. The next
  scale is one octave further (**`FallsOn.add_size`**), and **`FallsOn.pitch_eq`** is the pitch.
* **`WithinOctave`** is the condition under which the next scale does not begin below the end of this one. With it
  a higher degree is never a lower pitch (**`FallsOn.le_of_le`**).
* **`degrees_go_on`** puts this together, for single degrees and for chords.
-/

namespace Melody.Scale

open Outcome

variable {s : Scale} {d e octaves octaves' : Int} {base base' : Int32}

/-! ## Where a degree falls -/

/-- A degree falls on a degree of the scale, whole scales away from it and as many octaves. -/
structure FallsOn (s : Scale) (d octaves : Int) (base : Int32) : Prop where
  octaves_eq : octaves = d / s.size
  get?_eq : s.get? (d - octaves * s.size).toNat = some base

namespace FallsOn

/-- A degree falls somewhere only in a scale that has degrees. -/
theorem size_pos (h : s.FallsOn d octaves base) : 0 < s.size :=
  Nat.zero_lt_of_lt (List.getElem?_eq_some_iff.1 h.get?_eq).1

theorem emod_eq (h : s.FallsOn d octaves base) : d - octaves * s.size = d % s.size := by
  rw [h.octaves_eq, Int.emod_def, Int.mul_comm]

/-- Every degree falls on one of the scale's, where there is one. -/
theorem exists_of_size_pos (hsize : 0 < s.size) (d : Int) : ∃ octaves base, s.FallsOn d octaves base := by
  have hpos : (0 : Int) < s.size := Int.natCast_pos.2 hsize
  have hlow := Int.emod_nonneg d (Int.ne_of_gt hpos)
  have hhigh := Int.emod_lt_of_pos d hpos
  have hindex : (d % s.size).toNat < s.degrees.length := by
    show _ < s.size
    omega
  refine ⟨d / s.size, s.degrees[(d % s.size).toNat], rfl, ?_⟩
  rw [Int.mul_comm, ← Int.emod_def]
  exact List.getElem?_eq_getElem hindex

/-- The degree that is a whole scale further on falls on the same place, an octave higher. -/
theorem add_size (h : s.FallsOn d octaves base) : s.FallsOn (d + s.size) (octaves + 1) base := by
  have hpos : (s.size : Int) ≠ 0 := Int.natCast_ne_zero.2 (Nat.ne_of_gt h.size_pos)
  refine ⟨?_, ?_⟩
  · rw [Int.add_ediv_of_dvd_right (Int.dvd_refl _), Int.ediv_self hpos, h.octaves_eq]
  · rw [Int.add_mul, Int.one_mul, Int.add_sub_add_right]
    exact h.get?_eq

/-- The pitch of a degree is spelled from the degree it falls on and its octaves. -/
theorem pitch_eq {degree : Int32} (h : s.FallsOn degree.toInt octaves base) :
    s.pitch degree = Pitch.canonical (base.toInt + octaveWidth * octaves) := by
  have hbase := h.get?_eq
  rw [h.emod_eq] at hbase
  rw [h.octaves_eq]
  exact pitch_eq_canonical hbase

theorem value_eq {degree : Int32} {p : Pitch} (h : s.FallsOn degree.toInt octaves base)
    (hp : s.pitch degree = .ok p) : p.value = base.toInt + octaveWidth * octaves :=
  Pitch.value_of_canonical (h.pitch_eq.symm.trans hp)

/-- Only the octave of the pitch can be out of range. -/
theorem exists_pitch_eq_ok_iff {degree : Int32} (h : s.FallsOn degree.toInt octaves base) :
    (∃ p, s.pitch degree = .ok p) ↔ IsWord (base.toInt / octaveWidth + octaves) := by
  have hoctave : (base.toInt + octaveWidth * octaves) / octaveWidth = base.toInt / octaveWidth + octaves := by
    simp only [octaveWidth]
    omega
  rw [h.pitch_eq, Pitch.exists_canonical_eq_ok_iff, hoctave]

end FallsOn

theorem exists_fallsOn_of_pitch {degree : Int32} {p : Pitch} (h : s.pitch degree = .ok p) :
    ∃ octaves base, s.FallsOn degree.toInt octaves base :=
  FallsOn.exists_of_size_pos (size_pos_of_pitch h) degree.toInt

/-- A whole scale further is an octave further. -/
theorem value_of_pitch_add_size {degree degree' : Int32} {p p' : Pitch}
    (hdegree : degree'.toInt = degree.toInt + s.size) (hp : s.pitch degree = .ok p)
    (hp' : s.pitch degree' = .ok p') : p'.value = p.value + octaveWidth := by
  obtain ⟨octaves, base, hfalls⟩ := exists_fallsOn_of_pitch hp
  have hfalls' : s.FallsOn degree'.toInt (octaves + 1) base := hdegree ▸ hfalls.add_size
  rw [hfalls'.value_eq hp', hfalls.value_eq hp, Int.mul_add, Int.mul_one, Int.add_assoc]

/-! ## Order -/

/-- The degrees ascend, and not by more than an octave altogether. -/
structure WithinOctave (s : Scale) : Prop where
  ascending : s.degrees.Pairwise (· ≤ ·)
  span : ∀ low high, s.degrees.head? = some low → s.degrees.getLast? = some high →
    high.toInt ≤ low.toInt + octaveWidth

namespace WithinOctave

variable {i j : Nat}

/-- Within the octave the degrees ascend with their places. -/
theorem le_of_le (h : s.WithinOctave) (hij : i ≤ j) (hbase : s.get? i = some base)
    (hbase' : s.get? j = some base') : base.toInt ≤ base'.toInt := by
  obtain ⟨hi, rfl⟩ := List.getElem?_eq_some_iff.1 hbase
  obtain ⟨hj, rfl⟩ := List.getElem?_eq_some_iff.1 hbase'
  rcases Nat.eq_or_lt_of_le hij with rfl | hlt
  · exact Int.le_refl _
  · exact Int32.le_iff_toInt_le.1 (List.pairwise_iff_getElem.1 h.ascending i j hi hj hlt)

/-- No degree is more than an octave above another. -/
theorem le_add_octaveWidth (h : s.WithinOctave) (hbase : s.get? i = some base)
    (hbase' : s.get? j = some base') : base'.toInt ≤ base.toInt + octaveWidth := by
  have hj : j < s.degrees.length := (List.getElem?_eq_some_iff.1 hbase').1
  have hlow : s.degrees.head? = some s.degrees[0] := by
    rw [List.head?_eq_getElem?]
    exact List.getElem?_eq_getElem (Nat.zero_lt_of_lt hj)
  have hhigh : s.degrees.getLast? = some s.degrees[s.degrees.length - 1] := by
    rw [List.getLast?_eq_getElem?]
    exact List.getElem?_eq_getElem (Nat.sub_one_lt_of_lt hj)
  -- all degrees are between the first and the last
  calc base'.toInt
      ≤ s.degrees[s.degrees.length - 1].toInt :=
        h.le_of_le (Nat.le_sub_one_of_lt hj) hbase' (List.getLast?_eq_getElem? ▸ hhigh)
    _ ≤ s.degrees[0].toInt + octaveWidth := h.span _ _ hlow hhigh
    _ ≤ base.toInt + octaveWidth :=
        Int.add_le_add_right (h.le_of_le (Nat.zero_le i) (List.head?_eq_getElem? ▸ hlow) hbase) _

end WithinOctave

/-- So they do across octaves, if a scale spans no more than one. -/
theorem FallsOn.le_of_le (hs : s.WithinOctave) (hde : d ≤ e) (h : s.FallsOn d octaves base)
    (h' : s.FallsOn e octaves' base') :
    base.toInt + octaveWidth * octaves ≤ base'.toInt + octaveWidth * octaves' := by
  have hle : octaves ≤ octaves' := by
    rw [h.octaves_eq, h'.octaves_eq]
    exact Int.ediv_le_ediv (Int.natCast_pos.2 h.size_pos) hde
  rcases Int.lt_or_eq_of_le hle with hlt | rfl
  · -- a later scale begins no lower than this one ends
    have hspan := hs.le_add_octaveWidth h'.get?_eq h.get?_eq
    simp only [octaveWidth] at hspan ⊢
    omega
  · have hindex : (d - octaves * s.size).toNat ≤ (e - octaves * s.size).toNat := by omega
    exact Int.add_le_add_right (hs.le_of_le hindex h.get?_eq h'.get?_eq) _

theorem value_le_of_pitch (hs : s.WithinOctave) {d e : Int32} {p q : Pitch} (hde : d ≤ e)
    (hp : s.pitch d = .ok p) (hq : s.pitch e = .ok q) : p.value ≤ q.value := by
  obtain ⟨octaves, base, hd⟩ := exists_fallsOn_of_pitch hp
  obtain ⟨octaves', base', he⟩ := exists_fallsOn_of_pitch hq
  rw [hd.value_eq hp, he.value_eq hq]
  exact FallsOn.le_of_le hs (Int32.le_iff_toInt_le.1 hde) hd he

/-! ## Chords -/

variable {degrees : List Int32} {length : Binary64}

/-- A chord of degrees has the pitches of the degrees, in their order. -/
theorem chord_eq_ok_iff {c : Chord} :
    s.chord degrees length = .ok c ↔
      List.Forall₂ (fun d p => s.pitch d = .ok p) degrees c.pitches ∧ c.length = length := by
  rw [chord, bind_eq_ok_iff, ← mapM_eq_ok_iff]
  constructor
  · rintro ⟨pitches, hpitches, hc⟩
    obtain rfl := pure_eq_ok_iff.1 hc
    exact ⟨hpitches, rfl⟩
  · rintro ⟨hpitches, rfl⟩
    exact ⟨c.pitches, hpitches, rfl⟩

/-- A chord fails with its first degree that has no pitch. -/
theorem chord_eq_error_iff {fault : Error} :
    s.chord degrees length = .error fault ↔ ∃ before d after, degrees = before ++ d :: after ∧
      (∀ x ∈ before, ∃ p, s.pitch x = .ok p) ∧ s.pitch d = .error fault := by
  rw [chord, bind_eq_error_iff, mapM_eq_error_iff]
  refine or_iff_left ?_
  rintro ⟨_, -, h⟩
  exact pure_ne_error h

/-- **Degrees go on outside the scale.** In a scale that has degrees, every degree falls on one of them; it has a
pitch exactly when the octave of that degree and the octaves in between are a word together, and that is the
canonically spelled one of so many semitones. A whole scale further is an octave further. Where the scale ascends
and stays within an octave, a higher degree is never a lower pitch. A chord has the pitches of its degrees in their
order, or fails with the first degree that has none. -/
theorem degrees_go_on (s : Scale) :
    (0 < s.size → ∀ d, ∃ octaves base, s.FallsOn d octaves base) ∧
    (∀ (degree : Int32) octaves base, s.FallsOn degree.toInt octaves base →
      ((∃ p, s.pitch degree = .ok p) ↔ IsWord (base.toInt / octaveWidth + octaves)) ∧
      (∀ p, s.pitch degree = .ok p → p.IsCanonical ∧ p.value = base.toInt + octaveWidth * octaves) ∧
      ∀ fault, s.pitch degree = .error fault → fault = .pitchOverflow) ∧
    (∀ (d e : Int32) (p q : Pitch), e.toInt = d.toInt + s.size → s.pitch d = .ok p →
      s.pitch e = .ok q → q.value = p.value + octaveWidth) ∧
    (s.WithinOctave → ∀ (d e : Int32) (p q : Pitch), d ≤ e → s.pitch d = .ok p →
      s.pitch e = .ok q → p.value ≤ q.value) ∧
    ∀ (degrees : List Int32) (length : Binary64),
      (∀ c, s.chord degrees length = .ok c ↔
        List.Forall₂ (fun d p => s.pitch d = .ok p) degrees c.pitches ∧ c.length = length) ∧
      ∀ fault, s.chord degrees length = .error fault ↔ ∃ before d after, degrees = before ++ d :: after ∧
        (∀ x ∈ before, ∃ p, s.pitch x = .ok p) ∧ s.pitch d = .error fault := by
  refine ⟨FallsOn.exists_of_size_pos, ?_, fun _ _ _ _ => value_of_pitch_add_size,
    fun hs _ _ _ _ => value_le_of_pitch hs, fun _ _ => ⟨fun _ => chord_eq_ok_iff, fun _ => chord_eq_error_iff⟩⟩
  intro degree octaves base h
  refine ⟨h.exists_pitch_eq_ok_iff, ?_, fun _ => eq_pitchOverflow_of_pitch h.size_pos⟩
  intro p hp
  exact Pitch.canonical_eq_ok_iff_isCanonical.1 (h.pitch_eq.symm.trans hp)

/-- Two degrees of a triad that are a whole scale apart, both below its first; and one too far down for a pitch. -/
theorem degrees_go_on_triad :
    (∃ octaves base, (⟨[-1, 4, 11]⟩ : Scale).FallsOn (-4) octaves base) ∧
    (⟨[-1, 4, 11]⟩ : Scale).FallsOn (-4) (-2) 11 ∧
    (⟨[-1, 4, 11]⟩ : Scale).pitch (-4) = .ok ⟨.b, 0, -2⟩ ∧
    ((⟨.b, 0, -2⟩ : Pitch).IsCanonical ∧ (⟨.b, 0, -2⟩ : Pitch).value = 11 + octaveWidth * -2) ∧
    (⟨[-1, 4, 11]⟩ : Scale).pitch (-1) = .ok ⟨.b, 0, -1⟩ ∧
    (⟨.b, 0, -1⟩ : Pitch).value = (⟨.b, 0, -2⟩ : Pitch).value + octaveWidth ∧
    (⟨[-1, 4, 11]⟩ : Scale).WithinOctave ∧
    (⟨.b, 0, -2⟩ : Pitch).value ≤ (⟨.b, 0, -1⟩ : Pitch).value ∧
    (⟨[-1]⟩ : Scale).FallsOn (-2147483648) (-2147483648) (-1) ∧
    ¬∃ p, (⟨[-1]⟩ : Scale).pitch (-2147483648) = .ok p := by
  obtain ⟨hexists, hpitch, hnext, horder, -⟩ := degrees_go_on ⟨[-1, 4, 11]⟩
  have hfalls : (⟨[-1, 4, 11]⟩ : Scale).FallsOn (-4) (-2) 11 := ⟨by decide, by decide⟩
  have hlow : (⟨[-1, 4, 11]⟩ : Scale).pitch (-4) = .ok ⟨.b, 0, -2⟩ := by decide
  have hhigh : (⟨[-1, 4, 11]⟩ : Scale).pitch (-1) = .ok ⟨.b, 0, -1⟩ := by decide
  have hwithin : (⟨[-1, 4, 11]⟩ : Scale).WithinOctave := by
    refine ⟨by decide, ?_⟩
    rintro low high ⟨⟩ ⟨⟩
    decide
  -- a degree whose octave is out of range, though the degree itself is not
  have hfar : (⟨[-1]⟩ : Scale).FallsOn (-2147483648) (-2147483648) (-1) := ⟨by decide, by decide⟩
  refine ⟨hexists (by decide) (-4), hfalls, hlow, (hpitch (-4) _ _ hfalls).2.1 _ hlow, hhigh,
    hnext (-4) (-1) _ _ (by decide) hlow hhigh, hwithin, horder hwithin (-4) (-1) _ _ (by decide) hlow hhigh,
    hfar, ?_⟩
  rw [((degrees_go_on ⟨[-1]⟩).2.1 (-2147483648) _ _ hfar).1]
  decide

end Melody.Scale
