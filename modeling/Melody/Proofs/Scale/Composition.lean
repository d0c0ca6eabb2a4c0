import Melody.Proofs.Changes
import Melody.Proofs.Scale.Modulation

/-!
# One change of key after another

A melody that is moved from a first key into a second and from there into a third sounds as if it had been
moved into the third at once. It has to be a melody of the first key, and neither the first nor the second key
may have two degrees of one pitch class: the second table is asked for the pitches that the first one has left.

## The architecture

* **`Chord.heard`** and **`Track.heard`** are what there is to hear, whatever the spelling.
* **`value_residue_shifted`**: a pitch on a degree goes to the matching degree, by the distance of the two.
  Where that is nothing the pitch keeps its spelling, and its residue is that of the degree all the same.
* **`value_shifted_shifted`** is the law for one pitch, **`heard_modulated_modulated`** for a track, and
  **`modulated_self`** makes the way back a case of it.
-/

namespace Melody

open Outcome

/-- What there is to hear of a chord: the values of its pitches, and its length. -/
def Chord.heard (c : Chord) : List Int × Binary64 := (c.pitches.map (·.value), c.length)

def Track.heard (t : Track) : List (List Int × Binary64) := t.chords.map Chord.heard

namespace Scale

variable {a b c source dest : Scale} {table : ShiftTable}

/-! ## Pitches -/

/-- A pitch on a degree is moved to the matching degree of the other scale. -/
theorem value_residue_shifted (hdistinct : source.DistinctClasses)
    (htable : source.shiftsTo dest = .ok table) {move : Int32 × Int32}
    (hmove : move ∈ source.degrees.zip dest.degrees) {p q : Pitch}
    (hp : p.residue = move.1.toInt % octaveWidth) (hq : p.shifted table = .ok q) :
    q.value = p.value + distance move ∧ q.residue = move.2.toInt % octaveWidth := by
  have hshift := get?_shiftsTo_of_distinct hdistinct htable hmove
  have hvalue : p.value % octaveWidth = move.1.toInt % octaveWidth := by
    rw [Pitch.value, Int.add_mul_emod_self_left, hp, Int.emod_emod]
  rw [Pitch.shifted, hp] at hq
  cases hentry : table.get? (move.1.toInt % octaveWidth) with
  | none =>
    -- the degrees are equal, and the pitch stays as it is spelled
    rw [hentry] at hq hshift
    obtain rfl : p = q := Except.ok.inj hq
    have hzero : 0 = distance move := hshift
    have hsame : move.2.toInt = move.1.toInt := by
      rw [distance] at hzero
      omega
    rw [← hzero, Int.add_zero, hp, hsame]
    exact ⟨rfl, rfl⟩
  -- the pitch is moved by the distance of the degrees, which takes its class to that of the second degree
  | some delta =>
    rw [hentry] at hq hshift
    have hdelta : delta.toInt = distance move := hshift
    have hcanonical : Pitch.canonical (p.value + distance move) = .ok q := hdelta ▸ hq
    refine ⟨Pitch.value_of_canonical hcanonical, ?_⟩
    rw [Pitch.residue_of_canonical hcanonical, Int.add_emod, hvalue, ← Int.add_emod, distance]
    congr 1
    omega

theorem exists_degree_of_mem_pitchClasses {s : Scale} {key : Int} (h : key ∈ s.pitchClasses) :
    ∃ (i : Nat) (degree : Int32), s.degrees[i]? = some degree ∧ key = degree.toInt % octaveWidth := by
  obtain ⟨degree, hdegree, rfl⟩ := List.mem_map.1 h
  obtain ⟨i, hi⟩ := List.mem_iff_getElem?.1 hdegree
  exact ⟨i, degree, hi, rfl⟩

/-- Two tables one after the other move a pitch of the first scale as far as the table between the ends. -/
theorem value_shifted_shifted (ha : a.DistinctClasses) (hb : b.DistinctClasses)
    {ab bc ac : ShiftTable} (hab : a.shiftsTo b = .ok ab) (hbc : b.shiftsTo c = .ok bc)
    (hac : a.shiftsTo c = .ok ac) {p q r direct : Pitch} (hp : p.residue ∈ a.pitchClasses)
    (hq : p.shifted ab = .ok q) (hr : q.shifted bc = .ok r) (hdirect : p.shifted ac = .ok direct) :
    r.value = direct.value := by
  obtain ⟨i, x, hx, hresidue⟩ := exists_degree_of_mem_pitchClasses hp
  -- the three degrees at one place, and the moves between them
  obtain ⟨y, hy, hxy⟩ := exists_move (shiftsTo_eq_ok_iff.1 hab).1 hx
  obtain ⟨z, hz, hyz⟩ := exists_move (shiftsTo_eq_ok_iff.1 hbc).1 hy
  obtain ⟨z', hz', hxz⟩ := exists_move (shiftsTo_eq_ok_iff.1 hac).1 hx
  obtain rfl : z = z' := Option.some.inj (hz.symm.trans hz')
  -- each shift moves a pitch by the distance between its degrees, and the distances add up
  obtain ⟨hqvalue, hqresidue⟩ := value_residue_shifted ha hab hxy hresidue hq
  obtain ⟨hrvalue, -⟩ := value_residue_shifted hb hbc hyz hqresidue hr
  obtain ⟨hdvalue, -⟩ := value_residue_shifted ha hac hxz hresidue hdirect
  rw [hrvalue, hqvalue, hdvalue]
  simp only [distance]
  omega

/-! ## No change of key -/

/-- A scale is taken to itself by the empty table. -/
theorem shiftsTo_self (s : Scale) : s.shiftsTo s = .ok .empty := by
  rw [shiftsTo_eq_ok_iff]
  refine ⟨rfl, ?_⟩
  -- no degree moves
  have hstay : ∀ move ∈ s.degrees.zip s.degrees, addShift .empty move.1 move.2 = .ok .empty := by
    intro move hmove
    obtain ⟨i, hi⟩ := List.mem_iff_getElem?.1 hmove
    obtain ⟨hfirst, hsecond⟩ := List.getElem?_zip_eq_some.1 hi
    obtain hsame : move.1 = move.2 := Option.some.inj (hfirst.symm.trans hsecond)
    rw [hsame, addShift_eq_ok_iff]
    refine ⟨0, ?_, ?_⟩
    · rw [Int.sub_self]
      rfl
    · rw [if_pos rfl]
  generalize s.degrees.zip s.degrees = moves at hstay
  induction moves with
  | nil => rfl
  | cons move rest ih =>
    rw [List.forall_mem_cons] at hstay
    rw [List.foldlM_cons, hstay.1]
    exact ih hstay.2

end Scale

/-! ## Tracks -/

namespace Outcome

variable {ε α β γ : Type}

/-- Where every step of a list agrees with a direct one, in some view of the results, so does the list. -/
theorem map_eq_map_of_mapM {f g k : α → Except ε α} {view : α → β} {l m n direct : List α}
    (hm : l.mapM f = .ok m) (hn : m.mapM g = .ok n) (hdirect : l.mapM k = .ok direct)
    (h : ∀ x ∈ l, ∀ y z w, f x = .ok y → g y = .ok z → k x = .ok w → view z = view w) :
    n.map view = direct.map view := by
  -- the three lists are made element by element
  rw [mapM_eq_ok_iff] at hm hn hdirect
  induction hm generalizing n direct with
  | nil =>
    cases hn
    cases hdirect
    rfl
  | cons hxy _ ih =>
    cases hn with
    | cons hyz hn =>
      cases hdirect with
      | cons hxw hdirect =>
        rw [List.forall_mem_cons] at h
        rw [List.map_cons, List.map_cons, h.1 _ _ _ hxy hyz hxw, ih hn hdirect h.2]

end Outcome

namespace Track

variable {a b : Scale} {t t₁ : Track}

/-- A track all of whose pitches are on degrees of a scale, in any octave but spelled within one. -/
def IsIn (t : Track) (s : Scale) : Prop := ∀ c ∈ t.chords, ∀ p ∈ c.pitches, p.residue ∈ s.pitchClasses

instance (t : Track) (s : Scale) : Decidable (t.IsIn s) :=
  inferInstanceAs (Decidable (∀ c ∈ t.chords, ∀ p ∈ c.pitches, p.residue ∈ s.pitchClasses))

/-- Modulating a track from a scale to itself changes nothing, not even the spelling. -/
theorem modulated_self (t : Track) (s : Scale) : t.modulated s s = .ok t := by
  have hpitches (pitches : List Pitch) : pitches.mapM (·.shifted .empty) = .ok pitches :=
    mapM_eq_ok_iff.2 (List.forall₂_same.2 fun _ _ => rfl)
  have hchord (c : Chord) : c.shifted .empty = .ok c :=
    Chord.mapPitches_eq_ok_iff.2 ⟨hpitches c.pitches, rfl⟩
  have hchords : t.chords.mapM (·.shifted .empty) = .ok t.chords :=
    mapM_eq_ok_iff.2 (List.forall₂_same.2 fun c _ => hchord c)
  rw [modulated_eq_ok_iff]
  exact ⟨.empty, s.shiftsTo_self, mapChords_eq_ok_iff.2 ⟨hchords, rfl, rfl⟩⟩

/-- Two modulations one after the other sound like the one between the outer scales, for a track whose pitches
are in the first scale. -/
theorem heard_of_modulated {c : Scale} {t₂ direct : Track} (ha : a.DistinctClasses)
    (hb : b.DistinctClasses) (ht : t.IsIn a) (hab : t.modulated a b = .ok t₁)
    (hbc : t₁.modulated b c = .ok t₂) (hac : t.modulated a c = .ok direct) :
    t₂.heard = direct.heard := by
  obtain ⟨ab, hab, h₁⟩ := modulated_eq_ok_iff.1 hab
  obtain ⟨bc, hbc, h₂⟩ := modulated_eq_ok_iff.1 hbc
  obtain ⟨ac, hac, hdirect⟩ := modulated_eq_ok_iff.1 hac
  refine map_eq_map_of_mapM (mapChords_eq_ok_iff.1 h₁).1 (mapChords_eq_ok_iff.1 h₂).1
    (mapChords_eq_ok_iff.1 hdirect).1 ?_
  intro chord hchord chord₁ chord₂ chord₃ h₁ h₂ h₃
  obtain ⟨hpitches₁, hlength₁⟩ := Chord.mapPitches_eq_ok_iff.1 h₁
  obtain ⟨hpitches₂, hlength₂⟩ := Chord.mapPitches_eq_ok_iff.1 h₂
  obtain ⟨hpitches₃, hlength₃⟩ := Chord.mapPitches_eq_ok_iff.1 h₃
  -- the pitches agree in value, though they may be spelled in two ways
  have hvalues : chord₂.pitches.map (·.value) = chord₃.pitches.map (·.value) := by
    refine map_eq_map_of_mapM hpitches₁ hpitches₂ hpitches₃ ?_
    intro p hp q r s hq hr hs
    exact Scale.value_shifted_shifted ha hb hab hbc hac (ht chord hchord p hp) hq hr hs
  rw [Chord.heard, Chord.heard, hvalues, hlength₂, hlength₁, hlength₃]

/-- **Changes of key compose:** a melody of the first key sounds alike whether it is moved into a third key by
way of a second or at once, and on the way back it sounds as it did. -/
theorem heard_modulated_modulated (ha : a.DistinctClasses) (hb : b.DistinctClasses) (ht : t.IsIn a)
    (hab : t.modulated a b = .ok t₁) :
    (∀ c t₂ direct, t₁.modulated b c = .ok t₂ → t.modulated a c = .ok direct →
      t₂.heard = direct.heard) ∧
    ∀ back, t₁.modulated b a = .ok back → back.heard = t.heard := by
  constructor
  · intro c t₂ direct hbc hac
    exact heard_of_modulated ha hb ht hab hbc hac
  · intro back hba
    exact heard_of_modulated ha hb ht hab hba (t.modulated_self a)

/-- An F flat, an E sharp of the octave above, and a rest. -/
def waver : Track := ⟨[⟨[⟨.f, -1, 0⟩, ⟨.e, 1, 1⟩], .ofFloat 1⟩, ⟨[], .ofFloat 2⟩], 5, 64⟩

/-- From C major into C minor, and from there into F sharp minor or back. The first step moves one pitch only,
and the way back spells it anew. -/
theorem heard_modulated_modulated_waver :
    ∃ a b c t₁ t₂ direct back, a.DistinctClasses ∧ b.DistinctClasses ∧ waver.IsIn a ∧
      waver.modulated a b = .ok t₁ ∧ t₁.modulated b c = .ok t₂ ∧ waver.modulated a c = .ok direct ∧
      t₁.modulated b a = .ok back ∧ t₂.heard = direct.heard ∧ back.heard = waver.heard ∧ back ≠ waver := by
  have ha : Scale.DistinctClasses ⟨[0, 2, 4, 5, 7, 9, 11]⟩ := by decide +kernel
  have hb : Scale.DistinctClasses ⟨[0, 2, 3, 5, 7, 8, 10]⟩ := by decide +kernel
  have hin : waver.IsIn ⟨[0, 2, 4, 5, 7, 9, 11]⟩ := by decide +kernel
  have hab : waver.modulated ⟨[0, 2, 4, 5, 7, 9, 11]⟩ ⟨[0, 2, 3, 5, 7, 8, 10]⟩ =
      .ok ⟨[⟨[⟨.e, -1, 0⟩, ⟨.e, 1, 1⟩], .ofFloat 1⟩, ⟨[], .ofFloat 2⟩], 5, 64⟩ := by decide +kernel
  have hbc : Track.modulated ⟨[⟨[⟨.e, -1, 0⟩, ⟨.e, 1, 1⟩], .ofFloat 1⟩, ⟨[], .ofFloat 2⟩], 5, 64⟩
      ⟨[0, 2, 3, 5, 7, 8, 10]⟩ ⟨[6, 8, 9, 11, 13, 14, 17]⟩ =
      .ok ⟨[⟨[⟨.a, 0, 0⟩, ⟨.b, 0, 1⟩], .ofFloat 1⟩, ⟨[], .ofFloat 2⟩], 5, 64⟩ := by decide +kernel
  have hac : waver.modulated ⟨[0, 2, 4, 5, 7, 9, 11]⟩ ⟨[6, 8, 9, 11, 13, 14, 17]⟩ =
      .ok ⟨[⟨[⟨.a, 0, 0⟩, ⟨.b, 0, 1⟩], .ofFloat 1⟩, ⟨[], .ofFloat 2⟩], 5, 64⟩ := by decide +kernel
  have hba : Track.modulated ⟨[⟨[⟨.e, -1, 0⟩, ⟨.e, 1, 1⟩], .ofFloat 1⟩, ⟨[], .ofFloat 2⟩], 5, 64⟩
      ⟨[0, 2, 3, 5, 7, 8, 10]⟩ ⟨[0, 2, 4, 5, 7, 9, 11]⟩ =
      .ok ⟨[⟨[⟨.e, 0, 0⟩, ⟨.e, 1, 1⟩], .ofFloat 1⟩, ⟨[], .ofFloat 2⟩], 5, 64⟩ := by decide +kernel
  -- the runs are computed; that onward and back agree in sound is the theorem
  obtain ⟨honward, hback⟩ := heard_modulated_modulated ha hb hin hab
  exact ⟨_, _, _, _, _, _, _, ha, hb, hin, hab, hbc, hac, hba, honward _ _ _ hbc hac, hback _ hba,
    by decide +kernel⟩

end Track

end Melody
