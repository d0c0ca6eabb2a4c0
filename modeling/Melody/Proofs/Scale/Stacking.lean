import Mathlib.Data.List.Chain
import Mathlib.Order.Bounds.Basic
import Melody.Proofs.Pitch.Canonical
import Melody.Scale

/-!
# Scales from raw values

The degrees of a scale are its raw values lifted: each is the least number of its pitch class that is below neither
its raw value nor the degree before it. That is said of integers, where every list of raw values has one lift; a
scale can be built when all of the lift are words, and the lift is what it holds.

## The architecture

* **`IsLift`** is the specification, place by place, and **`lifted`** computes it (**`isLift_iff`**).
* **`leastAbove`** is one step, shown to be the least number by **`isLeast_leastAbove`**.
* **`ofValues_eq_ok_iff`** ties the scale of raw values to their lift. **`Lifts`** is what a scale is to its raw
  values, and **`Stacks`** what comes of a constructor.
* **`IsLift.pairwise`**, **`IsLift.classes`** and **`IsLift.leap`** are what is known of a lift. An ascending list
  is its own (**`isLift_self`**), and a lift may be moved (**`IsLift.shift`**).
* **`scales_are_lifts`** puts this together.
-/

namespace Melody.Scale

open Outcome

variable {raw l : List Int}

/-! ## Lifts -/

/-- What a degree has to choose from: the numbers of the class of its raw value that are below neither that
value nor the degree before. -/
def candidates (before value : Int) : Set Int :=
  {d | max value before ≤ d ∧ d % octaveWidth = value % octaveWidth}

/-- Raw values lifted: the first as it is, and each of the others to the least of its candidates. -/
structure IsLift (raw lifted : List Int) : Prop where
  length : lifted.length = raw.length
  first : lifted[0]? = raw[0]?
  next : ∀ (i : Nat) (value before d : Int), raw[i + 1]? = some value → lifted[i]? = some before →
    lifted[i + 1]? = some d → IsLeast (candidates before value) d

/-- The least candidate. -/
def leastAbove (before value : Int) : Int :=
  if value < before then
    value + (before - value + (octaveWidth - 1)) / octaveWidth * octaveWidth
  else value

/-- The value that is taken is the least one of its class that is not below the one before and not below
itself. -/
theorem isLeast_leastAbove (before value : Int) :
    IsLeast (candidates before value) (leastAbove before value) := by
  unfold leastAbove candidates
  simp only [octaveWidth]
  split
  · refine ⟨⟨by omega, by omega⟩, ?_⟩
    rintro d ⟨hd, hclass⟩
    omega
  · refine ⟨⟨by omega, rfl⟩, ?_⟩
    rintro d ⟨hd, -⟩
    omega

/-- The lift of values behind a degree. -/
def liftedAbove (before : Int) : List Int → List Int
  | [] => []
  | value :: rest => leastAbove before value :: liftedAbove (leastAbove before value) rest

/-- The lift of raw values. -/
def lifted : List Int → List Int
  | [] => []
  | value :: rest => value :: liftedAbove value rest

/-- Behind its first degree a lift is the lift of what is left, with the second degree for its raw value. -/
theorem isLift_cons_cons_iff {before before' value d : Int} {rest rest' : List Int} :
    IsLift (before :: value :: rest) (before' :: d :: rest') ↔
      before' = before ∧ IsLeast (candidates before' value) d ∧ IsLift (d :: rest) (d :: rest') := by
  constructor
  · intro h
    refine ⟨Option.some.inj h.first, h.next 0 _ _ _ rfl rfl rfl, Nat.succ.inj h.length, rfl, ?_⟩
    intro i v b e hv hb he
    exact h.next (i + 1) v b e hv hb he
  · rintro ⟨rfl, hd, hrest⟩
    refine ⟨congrArg (· + 1) hrest.length, rfl, ?_⟩
    intro i v b e hv hb he
    -- the first step is the one given, and the others are those of the rest
    cases i with
    | zero =>
      obtain rfl := Option.some.inj hv
      obtain rfl := Option.some.inj hb
      obtain rfl := Option.some.inj he
      exact hd
    | succ i => exact hrest.next i v b e hv hb he

/-- There is one lift, and it is computed value by value. Induction over the values that are left. -/
theorem isLift_cons_iff {before : Int} : IsLift (before :: raw) l ↔ l = before :: liftedAbove before raw := by
  induction raw generalizing before l with
  | nil =>
    constructor
    · intro h
      obtain ⟨d, rfl⟩ := List.length_eq_one_iff.1 h.length
      obtain rfl := Option.some.inj h.first
      rfl
    · rintro rfl
      exact ⟨rfl, rfl, fun i _ _ _ hv _ _ => by cases hv⟩
  | cons value rest ih =>
    constructor
    · intro h
      obtain ⟨before', d, rest', rfl⟩ : ∃ before' d rest', l = before' :: d :: rest' := by
        match l, h.length with
        | before' :: d :: rest', _ => exact ⟨before', d, rest', rfl⟩
      obtain ⟨rfl, hd, hrest⟩ := isLift_cons_cons_iff.1 h
      -- the second degree is the least candidate above the first, and a least one is unique
      obtain rfl := hd.unique (isLeast_leastAbove before' value)
      rw [ih.1 hrest]
      rfl
    · rintro rfl
      exact isLift_cons_cons_iff.2 ⟨rfl, isLeast_leastAbove before value, ih.2 rfl⟩

/-- Every list of raw values has one lift. -/
theorem isLift_iff : IsLift raw l ↔ l = lifted raw := by
  cases raw with
  | nil =>
    constructor
    · intro h
      exact List.length_eq_zero_iff.1 h.length
    · rintro rfl
      exact ⟨rfl, rfl, fun i _ _ _ hv _ _ => by cases hv⟩
  | cons value rest => exact isLift_cons_iff

/-! ## What is known of a lift -/

namespace IsLift

/-- The raw value and the degree before, where there is a degree that is not the first. -/
theorem exists_of_succ (h : IsLift raw l) {i : Nat} (hi : i + 1 < l.length) :
    ∃ value, raw[i + 1]? = some value ∧ IsLeast (candidates l[i] value) l[i + 1] := by
  have hraw : i + 1 < raw.length := h.length ▸ hi
  refine ⟨raw[i + 1], List.getElem?_eq_getElem hraw, ?_⟩
  exact h.next i _ _ _ (List.getElem?_eq_getElem hraw) (List.getElem?_eq_getElem (Nat.lt_of_succ_lt hi))
    (List.getElem?_eq_getElem hi)

theorem pairwise (h : IsLift raw l) : l.Pairwise (· ≤ ·) := by
  refine List.IsChain.pairwise (List.isChain_iff_getElem.2 fun i hi => ?_)
  obtain ⟨value, -, hd⟩ := h.exists_of_succ hi
  exact (le_max_right _ _).trans hd.1.1

/-- A lift keeps the classes of the values. -/
theorem classes (h : IsLift raw l) : l.map (· % octaveWidth) = raw.map (· % octaveWidth) := by
  refine List.ext_getElem? fun i => ?_
  rw [List.getElem?_map, List.getElem?_map]
  cases i with
  | zero => rw [h.first]
  | succ i =>
    by_cases hi : i + 1 < l.length
    · obtain ⟨value, hvalue, hd⟩ := h.exists_of_succ hi
      rw [hvalue, List.getElem?_eq_getElem hi, Option.map_some, Option.map_some, hd.1.2]
    · rw [List.getElem?_eq_none (Nat.le_of_not_lt hi),
        List.getElem?_eq_none (h.length ▸ Nat.le_of_not_lt hi)]

/-- Only a raw value that is an octave above the degree before makes a leap of an octave. -/
theorem leap (h : IsLift raw l) {i : Nat} {value before d : Int} (hvalue : raw[i + 1]? = some value)
    (hbefore : l[i]? = some before) (hd : l[i + 1]? = some d) (hleap : before + octaveWidth ≤ d) :
    before + octaveWidth ≤ value := by
  obtain ⟨⟨hle, hclass⟩, hleast⟩ := h.next i value before d hvalue hbefore hd
  by_contra hnear
  -- an octave less would have been enough
  have hlower : d - octaveWidth ∈ candidates before value := by
    simp only [candidates, Set.mem_ofPred_eq, octaveWidth] at *
    omega
  have hle := hleast hlower
  simp only [octaveWidth] at hle
  omega

/-- It moves with the values, since nothing in it depends on where zero is. -/
theorem shift (h : IsLift raw l) (n : Int) : IsLift (raw.map (· + n)) (l.map (· + n)) := by
  refine ⟨by rw [List.length_map, List.length_map, h.length], ?_, ?_⟩
  · rw [List.getElem?_map, List.getElem?_map, h.first]
  · intro i value before d hvalue hbefore hd
    rw [List.getElem?_map, Option.map_eq_some_iff] at hvalue hbefore hd
    obtain ⟨value, hvalue, rfl⟩ := hvalue
    obtain ⟨before, hbefore, rfl⟩ := hbefore
    obtain ⟨d, hd, rfl⟩ := hd
    obtain ⟨⟨hle, hclass⟩, hleast⟩ := h.next i value before d hvalue hbefore hd
    simp only [candidates, octaveWidth, lowerBounds, Set.mem_ofPred_eq] at hclass hleast
    refine ⟨⟨by omega, by simp only [octaveWidth]; omega⟩, ?_⟩
    rintro e ⟨he, heclass⟩
    simp only [octaveWidth] at heclass
    -- a candidate above the moved value, moved back, is one above the value itself
    have hmoved := hleast (a := e - n) ⟨by omega, by omega⟩
    omega

end IsLift

/-- What ascends is its own lift. -/
theorem isLift_self (h : l.Pairwise (· ≤ ·)) : IsLift l l := by
  refine ⟨rfl, rfl, ?_⟩
  intro i value before d hvalue hbefore hd
  obtain rfl : value = d := Option.some.inj (hvalue.symm.trans hd)
  have hle : before ≤ value := by
    obtain ⟨hi, rfl⟩ := List.getElem?_eq_some_iff.1 hbefore
    obtain ⟨hj, rfl⟩ := List.getElem?_eq_some_iff.1 hvalue
    exact List.pairwise_iff_getElem.1 h i (i + 1) hi hj (Nat.lt_succ_self i)
  exact ⟨⟨max_le (le_refl _) hle, rfl⟩, fun e he => (le_max_left _ _).trans he.1⟩

/-! ## Scales -/

/-- One degree is raised above the one before and must be in range. -/
theorem stacked_cons_eq_ok_iff {before : Option Int32} {value : Int} {degrees : List Int32} :
    stacked before (value :: raw) = .ok degrees ↔ ∃ degree above, degrees = degree :: above ∧
      degree.toInt = raised before value ∧ stacked (some degree) raw = .ok above := by
  rw [stacked, bind_eq_ok_iff]
  simp only [bind_eq_ok_iff, pure_eq_ok_iff, narrow_eq_ok_iff]
  constructor
  · rintro ⟨degree, hdegree, above, habove, rfl⟩
    exact ⟨degree, above, rfl, hdegree, habove⟩
  · rintro ⟨degree, above, rfl, hdegree, habove⟩
    exact ⟨degree, hdegree, above, habove, rfl⟩

/-- The degrees are the lift, in range. Induction over the values. -/
theorem stacked_above_eq_ok_iff {before : Int32} {degrees : List Int32} :
    stacked (some before) raw = .ok degrees ↔ degrees.map (·.toInt) = liftedAbove before.toInt raw := by
  induction raw generalizing before degrees with
  | nil => rw [stacked, Except.ok.injEq, liftedAbove, List.map_eq_nil_iff, eq_comm]
  | cons value rest ih =>
    rw [stacked_cons_eq_ok_iff, liftedAbove, List.map_eq_cons_iff]
    refine exists₂_congr fun degree above => and_congr_right fun _ => and_congr_right fun hdegree => ?_
    rw [ih, hdegree]
    rfl

/-- The scale of raw values holds their lift. -/
theorem ofValues_eq_ok_iff {s : Scale} : ofValues raw = .ok s ↔ IsLift raw (s.degrees.map (·.toInt)) := by
  obtain ⟨degrees⟩ := s
  have hstacked : ofValues raw = .ok ⟨degrees⟩ ↔ stacked none raw = .ok degrees := by
    rw [ofValues, bind_eq_ok_iff]
    simp only [pure_eq_ok_iff, mk.injEq, exists_eq_right]
  rw [hstacked, isLift_iff]
  -- the first degree is only narrowed; every further one is lifted above it
  cases raw with
  | nil => rw [stacked, Except.ok.injEq, lifted, List.map_eq_nil_iff, eq_comm]
  | cons value rest =>
    rw [stacked_cons_eq_ok_iff, lifted, List.map_eq_cons_iff]
    refine exists₂_congr fun degree above => and_congr_right fun _ => and_congr_right fun hdegree => ?_
    rw [stacked_above_eq_ok_iff, hdegree]
    rfl

/-- A stack fails only by a degree out of range. -/
theorem eq_pitchOverflow_of_stacked {before : Option Int32} {fault : Error}
    (h : stacked before raw = .error fault) : fault = .pitchOverflow := by
  -- narrowing is all that can fail, at every degree
  induction raw generalizing before with
  | nil => cases h
  | cons value rest ih =>
    rw [stacked, bind_eq_error_iff] at h
    obtain hdegree | ⟨degree, -, h⟩ := h
    · exact eq_pitchOverflow_of_narrow hdegree
    · obtain hrest | ⟨above, -, h⟩ := bind_eq_error_iff.1 h
      · exact ih hrest
      · exact absurd h pure_ne_error

theorem eq_pitchOverflow_of_ofValues {fault : Error} (h : ofValues raw = .error fault) :
    fault = .pitchOverflow := by
  rw [ofValues, bind_eq_error_iff] at h
  obtain hstacked | ⟨degrees, -, h⟩ := h
  · exact eq_pitchOverflow_of_stacked hstacked
  · exact absurd h pure_ne_error

/-- There is a scale when the whole lift is made of words. -/
theorem exists_ofValues_eq_ok_iff (h : IsLift raw l) :
    (∃ s, ofValues raw = .ok s) ↔ ∀ d ∈ l, IsWord d := by
  simp only [ofValues_eq_ok_iff]
  constructor
  · rintro ⟨s, hs⟩ d hd
    rw [(isLift_iff.1 h).trans (isLift_iff.1 hs).symm] at hd
    obtain ⟨w, -, rfl⟩ := List.mem_map.1 hd
    exact ⟨w.minValue_le_toInt, w.toInt_le⟩
  · intro hwords
    refine ⟨⟨l.map Int32.ofInt⟩, ?_⟩
    -- a lift of words is the lift of those degrees
    have hback : (l.map Int32.ofInt).map (·.toInt) = l := by
      rw [List.map_map]
      refine (List.map_congr_left fun d hd => ?_).trans (List.map_id l)
      obtain ⟨hlow, hhigh⟩ := hwords d hd
      exact Int32.toInt_ofInt_of_le hlow (Int.lt_add_one_of_le hhigh)
    rw [hback]
    exact h

/-! ## Constructors -/

/-- What a scale is to the raw values it stands for. -/
structure Lifts (raw : List Int) (s : Scale) : Prop where
  isLift : IsLift raw (s.degrees.map (·.toInt))
  size : s.size = raw.length
  ascending : s.degrees.Pairwise (· ≤ ·)
  classes : s.degrees.map (·.toInt % octaveWidth) = raw.map (· % octaveWidth)
  leap : ∀ (i : Nat) (value : Int) (before d : Int32), raw[i + 1]? = some value →
    s.degrees[i]? = some before → s.degrees[i + 1]? = some d →
    before.toInt + octaveWidth ≤ d.toInt → before.toInt + octaveWidth ≤ value
  rebuilt : ofIntervals 0 s.degrees = .ok s

/-- A scale on the root 0 has its intervals for raw values. -/
theorem ofIntervals_zero (intervals : List Int32) :
    ofIntervals 0 intervals = ofValues (intervals.map (·.toInt)) := by
  have hzero : (0 : Int32).toInt = 0 := rfl
  simp only [ofIntervals, hzero, Int.zero_add]

/-- A scale whose degrees are a lift has all the properties of one. -/
theorem lifts_of_isLift {s : Scale} (h : IsLift raw (s.degrees.map (·.toInt))) : Lifts raw s := by
  have hpairwise := h.pairwise
  refine ⟨h, ?_, ?_, ?_, ?_, ?_⟩
  · rw [size, ← h.length, List.length_map]
  · rw [List.pairwise_map] at hpairwise
    exact hpairwise.imp Int32.le_iff_toInt_le.2
  · rw [← h.classes, List.map_map]
    rfl
  · intro i value before d hvalue hbefore hd hleap
    refine h.leap hvalue ?_ ?_ hleap
    · rw [List.getElem?_map, hbefore, Option.map_some]
    · rw [List.getElem?_map, hd, Option.map_some]
  · -- what ascends is not lifted again
    rw [ofIntervals_zero]
    exact ofValues_eq_ok_iff.2 (isLift_self hpairwise)

/-- What comes of building a scale from raw values. -/
structure Stacks (raw : List Int) (result : Result Scale) : Prop where
  scale : ∀ s, result = .ok s → Lifts raw s
  succeeds_iff : ∀ lift, IsLift raw lift → ((∃ s, result = .ok s) ↔ ∀ d ∈ lift, IsWord d)
  fault : ∀ e, result = .error e → e = .pitchOverflow

theorem stacks_ofValues (raw : List Int) : Stacks raw (ofValues raw) :=
  ⟨fun _ hs => lifts_of_isLift (ofValues_eq_ok_iff.1 hs), fun _ hlift => exists_ofValues_eq_ok_iff hlift,
    fun _ he => eq_pitchOverflow_of_ofValues he⟩

/-- Reading a scale is lifting the values of its pitches. -/
theorem stacks_parse {text : String} {pitches : List Pitch}
    (h : (Text.words text.toList).mapM Pitch.parseChars = .ok pitches) :
    Stacks (pitches.map (·.value)) (parse text) := by
  rw [parse, h]
  exact stacks_ofValues _

theorem parse_eq_error {text : String} {fault : Error}
    (h : (Text.words text.toList).mapM Pitch.parseChars = .error fault) : parse text = .error fault := by
  rw [parse, h]
  rfl

/-- A root that is moved takes every degree along. -/
theorem ofIntervals_moved {root root' : Int32} {n : Int} {intervals : List Int32} {s s' : Scale}
    (hroot : root'.toInt = root.toInt + n) (h : ofIntervals root intervals = .ok s)
    (h' : ofIntervals root' intervals = .ok s') :
    s'.degrees.map (·.toInt) = s.degrees.map (·.toInt + n) := by
  -- moving the root moves every value
  have hraw : intervals.map (root'.toInt + ·.toInt) =
      (intervals.map (root.toInt + ·.toInt)).map (· + n) := by
    rw [List.map_map]
    refine List.map_congr_left fun interval _ => ?_
    simp only [Function.comp_apply, hroot]
    omega
  have hmoved := (ofValues_eq_ok_iff.1 h).shift n
  rw [← hraw] at hmoved
  rw [isLift_iff.1 (ofValues_eq_ok_iff.1 h'), ← isLift_iff.1 hmoved, List.map_map]
  rfl

/-- **Scales are lifts.** Raw values have one lift, and a scale of them is that lift. From intervals, from pitches
and from text there is a scale exactly when every degree of the lift is a word, and `pitchOverflow` otherwise; text
fails before that with its first token that is no pitch. The scale has a degree for each raw value, of the same
class and not below the degree before, and an octave above that degree only if the raw value is. It is the scale of
its own degrees above 0, and it moves with its root. -/
theorem scales_are_lifts :
    (∀ raw, ∃! l, IsLift raw l) ∧
    (∀ root intervals, Stacks (intervals.map (root.toInt + ·.toInt)) (ofIntervals root intervals)) ∧
    (∀ pitches, Stacks (pitches.map (·.value % octaveWidth)) (ofPitches pitches)) ∧
    (∀ text pitches, (Text.words text.toList).mapM Pitch.parseChars = .ok pitches →
      Stacks (pitches.map (·.value)) (parse text)) ∧
    (∀ text fault, (Text.words text.toList).mapM Pitch.parseChars = .error fault →
      parse text = .error fault) ∧
    ∀ (root root' : Int32) (n : Int) (intervals : List Int32) (s s' : Scale),
      root'.toInt = root.toInt + n → ofIntervals root intervals = .ok s →
      ofIntervals root' intervals = .ok s' →
      s'.degrees.map (·.toInt) = s.degrees.map (·.toInt + n) := by
  refine ⟨?_, fun _ _ => stacks_ofValues _, fun _ => stacks_ofValues _, fun _ _ => stacks_parse,
    fun _ _ => parse_eq_error, fun _ _ _ _ _ _ => ofIntervals_moved⟩
  intro raw
  exact ⟨lifted raw, isLift_iff.2 rfl, fun l hl => isLift_iff.1 hl⟩

/-- A chord with two tones above it, moved down a tone; a text that goes down and is lifted, and one with a token
that is no pitch. -/
theorem scales_are_lifts_major :
    ofIntervals 0 [0, 4, 7, 0, 16] = .ok ⟨[0, 4, 7, 12, 16]⟩ ∧
    ofIntervals (-2) [0, 4, 7, 0, 16] = .ok ⟨[-2, 2, 5, 10, 14]⟩ ∧
    ([-2, 2, 5, 10, 14] : List Int32).map (·.toInt) =
      ([0, 4, 7, 12, 16] : List Int32).map (·.toInt + -2) ∧
    parse "G C_2 E" = .ok ⟨[7, 12, 16]⟩ ∧
    Lifts [7, -24, 4] ⟨[7, 12, 16]⟩ ∧
    parse "G H" = .error (.malformedToken "H" .noLetter) := by
  obtain ⟨-, -, -, hparse, hrefused, hmoved⟩ := scales_are_lifts
  have hhome : ofIntervals 0 [0, 4, 7, 0, 16] = .ok ⟨[0, 4, 7, 12, 16]⟩ := by decide
  have haway : ofIntervals (-2) [0, 4, 7, 0, 16] = .ok ⟨[-2, 2, 5, 10, 14]⟩ := by decide
  have htext : parse "G C_2 E" = .ok ⟨[7, 12, 16]⟩ := by decide
  -- the second pitch is two octaves low, and is raised above the first
  have htokens : (Text.words "G C_2 E".toList).mapM Pitch.parseChars =
      .ok [⟨.g, 0, 0⟩, ⟨.c, 0, -2⟩, ⟨.e, 0, 0⟩] := by decide
  exact ⟨hhome, haway, hmoved 0 (-2) (-2) _ _ _ (by decide) hhome haway, htext,
    (hparse _ _ htokens).scale _ htext, hrefused _ _ (by decide)⟩

end Melody.Scale
