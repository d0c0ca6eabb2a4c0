import Mathlib.Data.List.Nodup
import Melody.Chord
import Melody.Proofs.Pitch.Canonical
import Melody.Proofs.Scale.Stacking

/-!
# Degrees under a change of key

A melody that is made of degrees of one scale and then moved into another is the melody of the same degrees
of that other scale, spelling included.

## The architecture

* **`pitch_eq_canonical`**: the pitch of any degree is canonical, for a scale that has degrees at all.
* **`get?_shiftsTo`**: the table between two scales answers with the last move from a pitch class.
* **`DistinctClasses`**: where no two degrees are of one class, there is only one such move
  (**`get?_shiftsTo_of_distinct`**). The modes are such scales (**`distinctClasses_of_mode?`**).
* **`shifted_degrees`** puts this together.
-/

namespace Melody

open Outcome

namespace Scale

variable {source dest : Scale} {table : ShiftTable}

/-! ## Degrees -/

/-- The octave of a degree is always a word: a quotient is no larger than the degree. -/
theorem exists_narrow_ediv (degree : Int32) {size : Nat} (hsize : 0 < size) :
    ∃ octaves : Int32, narrow (degree.toInt / size) = .ok octaves ∧
      octaves.toInt = degree.toInt / size := by
  have hlow := degree.le_toInt
  have hhigh := degree.toInt_lt
  -- dividing by a positive size only brings a word nearer to zero
  have hquotient : -2 ^ 31 ≤ degree.toInt / size ∧ degree.toInt / size < 2 ^ 31 := by
    have hpos : (0 : Int) < size := by omega
    constructor
    · rw [Int.le_ediv_iff_mul_le hpos]
      omega
    · rw [Int.ediv_lt_iff_lt_mul hpos]
      omega
  have hword := Int32.toInt_ofInt_of_le hquotient.1 hquotient.2
  exact ⟨Int32.ofInt (degree.toInt / size), narrow_eq_ok_iff.2 hword, hword⟩

/-- A degree stands whole octaves away from a degree of the scale, and that is all there is to its pitch. -/
theorem pitch_eq_canonical {s : Scale} {degree base : Int32}
    (h : s.degrees[(degree.toInt % s.size).toNat]? = some base) :
    s.pitch degree = Pitch.canonical (base.toInt + octaveWidth * (degree.toInt / s.size)) := by
  have hsize : 0 < s.size := by
    have hlt := (List.getElem?_eq_some_iff.1 h).1
    exact Nat.zero_lt_of_lt hlt
  obtain ⟨octaves, hnarrow, hoctaves⟩ := exists_narrow_ediv degree hsize
  rw [pitch, h]
  dsimp only
  rw [hnarrow, ← hoctaves]
  exact Pitch.octaveShifted_ofInt32 base octaves

/-- In a scale that has degrees, the pitch of a degree fails only by its octave. -/
theorem eq_pitchOverflow_of_pitch {s : Scale} {degree : Int32} {fault : Error}
    (hsize : 0 < s.size) (h : s.pitch degree = .error fault) : fault = .pitchOverflow := by
  -- the remainder is the place of a degree
  have hindex : (degree.toInt % s.size).toNat < s.degrees.length := by
    have hpos : (0 : Int) < s.size := by omega
    have hlow := Int.emod_nonneg degree.toInt (Int.ne_of_gt hpos)
    have hhigh := Int.emod_lt_of_pos degree.toInt hpos
    show _ < s.size
    omega
  rw [pitch_eq_canonical (List.getElem?_eq_getElem hindex)] at h
  exact Pitch.eq_pitchOverflow_of_canonical h

theorem size_pos_of_pitch {s : Scale} {degree : Int32} {p : Pitch} (h : s.pitch degree = .ok p) :
    0 < s.size := by
  rw [pitch] at h
  split at h
  · cases h
  · next hbase => exact Nat.zero_lt_of_lt (List.getElem?_eq_some_iff.1 hbase).1

/-! ## Tables -/

/-- A pair of degrees is entered under the class of the first, unless they are equal. -/
theorem addShift_eq_ok_iff {t t' : ShiftTable} {a b : Int32} :
    addShift t a b = .ok t' ↔ ∃ delta : Int32, delta.toInt = b.toInt - a.toInt ∧
      t' = if delta = 0 then t else t.insert (a.toInt % octaveWidth) delta := by
  rw [addShift, bind_eq_ok_iff]
  constructor
  · rintro ⟨delta, hdelta, ht⟩
    exact ⟨delta, narrow_eq_ok_iff.1 hdelta, (pure_eq_ok_iff.1 ht).symm⟩
  · rintro ⟨delta, hdelta, ht⟩
    exact ⟨delta, narrow_eq_ok_iff.2 hdelta, pure_eq_ok_iff.2 ht.symm⟩

/-- Whether a move is from a pitch class, and to somewhere else. -/
def leaves (key : Int) (move : Int32 × Int32) : Bool :=
  move.1.toInt % octaveWidth == key && move.1 != move.2

def distance (move : Int32 × Int32) : Int := move.2.toInt - move.1.toInt

/-- What a class is moved by behind one more pair: the distance of the pair, if it leaves the class, or as
before. -/
theorem get?_addShift {t t' : ShiftTable} {move : Int32 × Int32}
    (h : addShift t move.1 move.2 = .ok t') (key : Int) :
    (t'.get? key).map (·.toInt) =
      if leaves key move then some (distance move) else (t.get? key).map (·.toInt) := by
  obtain ⟨delta, hdelta, rfl⟩ := addShift_eq_ok_iff.1 h
  have hzero : delta = 0 ↔ move.1 = move.2 := by
    rw [← Int32.toInt_inj, ← Int32.toInt_inj, hdelta]
    show move.2.toInt - move.1.toInt = 0 ↔ _
    omega
  rw [leaves, distance, ← hdelta]
  by_cases hstays : move.1 = move.2
  · rw [if_pos (hzero.2 hstays), hstays, bne_self_eq_false, Bool.and_false, if_neg Bool.false_ne_true]
  · rw [if_neg (mt hzero.1 hstays), ShiftTable.get?_insert, bne_iff_ne.2 hstays, Bool.and_true]
    -- the move was put into the table, so only its own key reads it
    by_cases hkey : key = move.1.toInt % octaveWidth
    · rw [if_pos hkey, if_pos (beq_iff_eq.2 hkey.symm)]
      rfl
    · rw [if_neg hkey, if_neg (by rw [beq_iff_eq]; exact Ne.symm hkey)]

/-- Of all pairs that leave a class, the last one counts. Induction over the pairs, the first one taken off.
-/
theorem get?_foldlM_addShift {moves : List (Int32 × Int32)} {t t' : ShiftTable}
    (h : moves.foldlM (fun t move => addShift t move.1 move.2) t = .ok t') (key : Int) :
    (t'.get? key).map (·.toInt) =
      ((moves.filter (leaves key)).getLast?.map distance).or ((t.get? key).map (·.toInt)) := by
  induction moves generalizing t with
  | nil =>
    obtain rfl := pure_eq_ok_iff.1 h
    rfl
  | cons move rest ih =>
    rw [List.foldlM_cons, bind_eq_ok_iff] at h
    obtain ⟨t₁, hfirst, hrest⟩ := h
    rw [ih hrest, get?_addShift hfirst]
    by_cases hleaves : leaves key move = true
    · -- a later move from the same class replaces this one
      rw [if_pos hleaves, List.filter_cons_of_pos hleaves, List.getLast?_cons]
      cases (rest.filter (leaves key)).getLast? with
      | none => rfl
      | some last => rfl
    · rw [if_neg hleaves, List.filter_cons_of_neg hleaves]

/-- The table is made from the pairs of degrees in their order, for scales of one size. -/
theorem shiftsTo_eq_ok_iff :
    source.shiftsTo dest = .ok table ↔ source.size = dest.size ∧
      (source.degrees.zip dest.degrees).foldlM (fun t move => addShift t move.1 move.2) .empty =
        .ok table := by
  rw [shiftsTo]
  by_cases hsize : source.size = dest.size
  · rw [if_neg (not_not.2 hsize)]
    exact (and_iff_right hsize).symm
  · rw [if_pos hsize]
    refine ⟨nofun, ?_⟩
    intro h
    exact absurd h.1 hsize

/-- A table moves a pitch class as far as its last move that leaves the class. -/
theorem get?_shiftsTo (h : source.shiftsTo dest = .ok table) (key : Int) :
    (table.get? key).map (·.toInt) =
      ((source.degrees.zip dest.degrees).filter (leaves key)).getLast?.map distance := by
  rw [get?_foldlM_addShift (shiftsTo_eq_ok_iff.1 h).2]
  exact Option.or_none

/-! ## Scales of distinct classes -/

def pitchClasses (s : Scale) : List Int := s.degrees.map (·.toInt % octaveWidth)

/-- No two degrees are of one pitch class. -/
def DistinctClasses (s : Scale) : Prop := s.pitchClasses.Nodup

instance (s : Scale) : Decidable s.DistinctClasses := inferInstanceAs (Decidable s.pitchClasses.Nodup)

/-- Of the moves between two scales, one at most is from each class. -/
theorem move_eq_of_distinct (hdistinct : source.DistinctClasses) (hsize : source.size = dest.size)
    {m m' : Int32 × Int32} (hm : m ∈ source.degrees.zip dest.degrees)
    (hm' : m' ∈ source.degrees.zip dest.degrees)
    (h : m.1.toInt % octaveWidth = m'.1.toInt % octaveWidth) : m = m' := by
  -- the classes of the moves are those of the source, and distinct
  have hclasses : (source.degrees.zip dest.degrees).map (fun m => m.1.toInt % octaveWidth) =
      source.pitchClasses := by
    have hfirst := List.map_fst_zip (Nat.le_of_eq hsize)
    rw [pitchClasses]
    conv_rhs => rw [← hfirst, List.map_map]
    rfl
  rw [DistinctClasses, ← hclasses] at hdistinct
  exact List.inj_on_of_nodup_map hdistinct hm hm' h

/-- Between scales of distinct classes the table has every move, and an entry missing is one that stays. -/
theorem get?_shiftsTo_of_distinct (hdistinct : source.DistinctClasses)
    (h : source.shiftsTo dest = .ok table) {m : Int32 × Int32}
    (hm : m ∈ source.degrees.zip dest.degrees) :
    ((table.get? (m.1.toInt % octaveWidth)).map (·.toInt)).getD 0 = distance m := by
  have hsize := (shiftsTo_eq_ok_iff.1 h).1
  rw [get?_shiftsTo h]
  cases hlast : ((source.degrees.zip dest.degrees).filter (leaves (m.1.toInt % octaveWidth))).getLast? with
  | none =>
    -- no move leaves the class, and so this one does not
    have hstays := List.filter_eq_nil_iff.1 (List.getLast?_eq_none_iff.1 hlast) m hm
    rw [leaves, beq_self_eq_true, Bool.true_and, bne_iff_ne, not_not] at hstays
    rw [distance, hstays, Int.sub_self]
    rfl
  | some m' =>
    obtain ⟨hm', hleaves⟩ := List.mem_filter.1 (List.mem_of_getLast? hlast)
    rw [leaves, Bool.and_eq_true, beq_iff_eq] at hleaves
    obtain rfl := move_eq_of_distinct hdistinct hsize hm' hm hleaves.1
    rfl

/-! ## Modes -/

/-- A scale has the classes of its intervals from the root. -/
theorem pitchClasses_ofIntervals {root : Int32} {intervals : List Int32} {s : Scale}
    (h : ofIntervals root intervals = .ok s) :
    s.pitchClasses = intervals.map fun i => (root.toInt + i.toInt) % octaveWidth := by
  have hclasses := (ofValues_eq_ok_iff.1 h).classes
  rw [List.map_map, List.map_map] at hclasses
  exact hclasses

/-- No mode has two intervals of one class. -/
theorem nodup_of_mode? {name : String} {intervals : List Int32} (h : mode? name = some intervals) :
    (intervals.map (·.toInt % octaveWidth)).Nodup := by
  unfold mode? at h
  dsimp only at h
  -- one case for each name, each a closed list of residues
  split at h
  · obtain rfl := Option.some.inj h
    decide
  · split at h
    · obtain rfl := Option.some.inj h
      decide
    · split at h
      · obtain rfl := Option.some.inj h
        decide
      · split at h
        · obtain rfl := Option.some.inj h
          decide
        · cases h

/-- Every mode on every root has distinct classes. -/
theorem distinctClasses_of_mode? {name : String} {intervals : List Int32} {root : Int32} {s : Scale}
    (hmode : mode? name = some intervals) (h : ofIntervals root intervals = .ok s) :
    s.DistinctClasses := by
  have hnodup := nodup_of_mode? hmode
  rw [DistinctClasses, pitchClasses_ofIntervals h]
  refine List.Nodup.map_on ?_ hnodup.of_map
  intro a ha b hb hab
  apply List.inj_on_of_nodup_map hnodup ha hb
  simp only [octaveWidth] at hab ⊢
  omega

/-! ## Changing the key -/

/-- A canonical pitch moves as far as the table says for its value, and stays if the table says nothing. -/
theorem shifted_of_canonical {v : Int} {p : Pitch} (h : Pitch.canonical v = .ok p)
    (table : ShiftTable) :
    p.shifted table =
      Pitch.canonical (v + ((table.get? (v % octaveWidth)).map (·.toInt)).getD 0) := by
  rw [Pitch.shifted, Pitch.residue_of_canonical h]
  cases table.get? (v % octaveWidth) with
  | none =>
    show Except.ok p = Pitch.canonical (v + 0)
    rw [Int.add_zero, h]
  | some delta =>
    show Pitch.canonical (p.value + delta.toInt) = _
    rw [Pitch.value_of_canonical h]
    rfl

theorem exists_move {i : Nat} {base : Int32} (hsize : source.size = dest.size)
    (h : source.degrees[i]? = some base) :
    ∃ goal, dest.degrees[i]? = some goal ∧ (base, goal) ∈ source.degrees.zip dest.degrees := by
  have hlength : source.degrees.length = dest.degrees.length := hsize
  have hindex := (List.getElem?_eq_some_iff.1 h).1
  have hgoal := List.getElem?_eq_getElem (hlength ▸ hindex)
  exact ⟨_, hgoal, List.mem_iff_getElem?.2 ⟨i, List.getElem?_zip_eq_some.2 ⟨h, hgoal⟩⟩⟩

/-- A degree that is moved into another scale is the same degree of that scale. -/
theorem shifted_pitch (hdistinct : source.DistinctClasses) (htable : source.shiftsTo dest = .ok table)
    {degree : Int32} {p : Pitch} (hp : source.pitch degree = .ok p) :
    p.shifted table = dest.pitch degree := by
  have hsize := (shiftsTo_eq_ok_iff.1 htable).1
  cases hbase : source.degrees[(degree.toInt % source.size).toNat]? with
  | none =>
    rw [pitch, hbase] at hp
    cases hp
  | some base =>
    -- both scales are read at one place, and the octaves from there are the same
    obtain ⟨goal, hgoal, hmove⟩ := exists_move hsize hbase
    have hshift := get?_shiftsTo_of_distinct hdistinct htable hmove
    rw [pitch_eq_canonical hbase] at hp
    rw [hsize] at hgoal
    rw [shifted_of_canonical hp, pitch_eq_canonical hgoal, Int.add_mul_emod_self_left, hshift, distance,
      hsize]
    congr 1
    dsimp only
    omega

/-- **A change of key takes degrees to degrees:** a pitch that is a degree of one scale becomes the same
degree of the other, in the spelling of that scale, and is out of range exactly when that degree is. So does
a chord of degrees. -/
theorem shifted_degrees (hdistinct : source.DistinctClasses)
    (htable : source.shiftsTo dest = .ok table) :
    (∀ degree p, source.pitch degree = .ok p →
      p.shifted table = dest.pitch degree ∧
      ∀ fault, p.shifted table = .error fault → fault = .pitchOverflow) ∧
    ∀ degrees length c, source.chord degrees length = .ok c →
      c.shifted table = dest.chord degrees length := by
  refine ⟨?_, ?_⟩
  · intro degree p hp
    have hshifted := shifted_pitch hdistinct htable hp
    refine ⟨hshifted, ?_⟩
    intro fault hfault
    rw [hshifted] at hfault
    have hsize := size_pos_of_pitch hp
    rw [(shiftsTo_eq_ok_iff.1 htable).1] at hsize
    exact eq_pitchOverflow_of_pitch hsize hfault
  · -- a chord is shifted pitch by pitch, and fails at the same pitch
    intro degrees length c hc
    obtain ⟨pitches, hpitches, hc⟩ := bind_eq_ok_iff.1 hc
    obtain rfl := pure_eq_ok_iff.1 hc
    rw [Chord.shifted, Chord.mapPitches, chord]
    rw [mapM_of_mapM_eq_ok hpitches fun degree p hp => shifted_pitch hdistinct htable hp]

/-- Two octaves below the scale, from C major into the harmonic minor of F sharp. -/
theorem shifted_degrees_major_to_minor :
    ∃ source dest table, ofIntervals 0 major = .ok source ∧ ofIntervals 6 harmonicMinor = .ok dest ∧
      source.DistinctClasses ∧ source.shiftsTo dest = .ok table ∧
      source.pitch (-9) = .ok ⟨.a, 0, -2⟩ ∧ dest.pitch (-9) = .ok ⟨.d, 0, -1⟩ ∧
      (⟨.a, 0, -2⟩ : Pitch).shifted table = .ok ⟨.d, 0, -1⟩ ∧
      (⟨[⟨.a, 0, -2⟩, ⟨.c, 0, 0⟩], .ofFloat 1⟩ : Chord).shifted table =
        .ok ⟨[⟨.d, 0, -1⟩, ⟨.f, 1, 0⟩], .ofFloat 1⟩ := by
  have hmajor : ofIntervals 0 major = .ok ⟨[0, 2, 4, 5, 7, 9, 11]⟩ := by decide +kernel
  have hminor : ofIntervals 6 harmonicMinor = .ok ⟨[6, 8, 9, 11, 13, 14, 17]⟩ := by decide +kernel
  have hmode : mode? "major" = some major := by decide +kernel
  have hdistinct := distinctClasses_of_mode? hmode hmajor
  -- every degree of the scale moves, by one of two distances
  have htable : shiftsTo ⟨[0, 2, 4, 5, 7, 9, 11]⟩ ⟨[6, 8, 9, 11, 13, 14, 17]⟩ =
      .ok ⟨[(0, 6), (2, 6), (4, 5), (5, 6), (7, 6), (9, 5), (11, 6)]⟩ := by decide +kernel
  have hsource : pitch ⟨[0, 2, 4, 5, 7, 9, 11]⟩ (-9) = .ok ⟨.a, 0, -2⟩ := by decide +kernel
  have hdest : pitch ⟨[6, 8, 9, 11, 13, 14, 17]⟩ (-9) = .ok ⟨.d, 0, -1⟩ := by decide +kernel
  have hchord : chord ⟨[0, 2, 4, 5, 7, 9, 11]⟩ [-9, 0] (.ofFloat 1) =
      .ok ⟨[⟨.a, 0, -2⟩, ⟨.c, 0, 0⟩], .ofFloat 1⟩ := by decide +kernel
  obtain ⟨hpitches, hchords⟩ := shifted_degrees hdistinct htable
  refine ⟨_, _, _, hmajor, hminor, hdistinct, htable, hsource, hdest, ?_, ?_⟩
  · exact (hpitches _ _ hsource).1.trans hdest
  · exact (hchords _ _ _ hchord).trans (by decide +kernel)

end Scale

end Melody
