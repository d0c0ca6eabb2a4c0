import Mathlib.Data.List.Forall2
import Melody.Proofs.Float.Bits
import Melody.Proofs.Notation.Leftovers

/-!
# Chords by their positions

The reader is a single pass with the active length and the last chord in hand. What it gives can be looked up
at each word by itself: the active length is that of the nearest word in front that sets one, a chord is held
on by the extensions up to the next word that sounds, and the first word that cannot be read is the error.

## The architecture

* **`activeAt`**, **`extensionsAt`** and **`lengthAt`** look up lengths, **`onsets`** are the words that sound,
  and **`IsChordAt`** is the chord of one.
* **`IsReadable`** says when a word can be read, and **`Offends`** what the error is if it cannot.
* **`onsets_concat`**, **`activeAt_concat`** and **`lengthAt_concat`**: one more word behind the others. Only an
  extension changes what is in front of it, and only the last chord.
* **`State.Describes`** is the invariant of the pass, **`State.Describes.step_cases`** is one step, and
  **`State.run_cases`** is the whole pass.
* **`parse_by_position`** is about a line of notation.
-/

namespace Melody.Notation

open Outcome

variable {ws front : List (List Char)} {w : List Char} {i : Nat}

/-! ## Looking up -/

/-- Whether a word makes a length active. -/
def setsLength (w : List Char) : Bool := w.getLast? == some '(' || w == [')']

/-- Whether a word is a chord or a rest. -/
def sounds (w : List Char) : Bool := !setsLength w && w != ['-']

/-- The length that a word makes active. -/
def lengthSet (w : List Char) : Float :=
  if w = [')'] then defaultLength else subdivided (UInt32.ofNat (Decimal.ofDigits w.dropLast))

/-- The length that is active at a position: the nearest word in front that sets one decides. -/
def activeAt (ws : List (List Char)) (i : Nat) : Float :=
  (((ws.take i).reverse.find? setsLength).map lengthSet).getD defaultLength

/-- The words that sound, with their positions. -/
def onsets (ws : List (List Char)) : List (List Char × Nat) := ws.zipIdx.filter (sounds ·.1)

/-- The positions of the extensions behind a position, up to the next word that sounds. -/
def extensionsAt (ws : List (List Char)) (i : Nat) : List Nat :=
  ((((ws.drop (i + 1)).zipIdx (i + 1)).takeWhile (!sounds ·.1)).filter (·.1 == ['-'])).map (·.2)

/-- The length of a chord: the one that is active, and what is active at every extension. -/
def lengthAt (ws : List (List Char)) (i : Nat) : Float :=
  ((extensionsAt ws i).map (activeAt ws)).foldl (· + ·) (activeAt ws i)

/-- The chord of a word that sounds. -/
structure IsChordAt (ws : List (List Char)) (onset : List Char × Nat) (c : Chord) : Prop where
  rest : c.pitches = [] ↔ onset.1 = ['.']
  pitches : onset.1 ≠ ['.'] → chordPitches onset.1 = .ok c.pitches
  length : c.length = .ofFloat (lengthAt ws onset.2)

/-! ## Words that can be read -/

/-- Whether a word can be read behind some others. -/
structure IsReadable (before : List (List Char)) (w : List Char) : Prop where
  opening : w.getLast? = some '(' →
    ∃ n : Nat, Decimal.digits? w.dropLast = some n ∧ 1 ≤ n ∧ n < UInt32.size
  chord : sounds w = true → w ≠ ['.'] → ∃ pitches, chordPitches w = .ok pitches
  extension : w = ['-'] → ∃ v ∈ before, sounds v = true

/-- The error of a word that cannot be read. -/
inductive Offends (before : List (List Char)) : List Char → Error → Prop
  | noDigits {front : List Char} (h : Decimal.digits? front = none) :
      Offends before (front ++ ['(']) (.malformedToken (String.ofList (front ++ ['('])) .durationForm)
  | zero {front : List Char} (h : Decimal.digits? front = some 0) :
      Offends before (front ++ ['(']) (.malformedToken (String.ofList (front ++ ['('])) .subdivisionZero)
  | tooLarge {front : List Char} {n : Nat} (h : Decimal.digits? front = some n) (hn : UInt32.size ≤ n) :
      Offends before (front ++ ['('])
        (.malformedToken (String.ofList (front ++ ['('])) .subdivisionOutOfRange)
  | chord {w : List Char} {e : Error} (hsounds : sounds w = true) (hrest : w ≠ ['.'])
      (h : chordPitches w = .error e) : Offends before w e
  | extension (h : ∀ v ∈ before, sounds v = false) :
      Offends before ['-'] (.danglingExtend before.length)

/-- Every word can be read behind those in front of it. -/
def AllReadable (ws : List (List Char)) : Prop :=
  ∀ before w after, ws = before ++ w :: after → IsReadable before w

/-- No word that offends can be read. -/
theorem Offends.not_isReadable {before : List (List Char)} {e : Error} (h : Offends before w e) :
    ¬IsReadable before w := by
  intro hreadable
  -- each fault contradicts the condition on words of its kind
  cases h with
  | noDigits h =>
    obtain ⟨n, hn, -, -⟩ := hreadable.opening List.getLast?_concat
    rw [List.dropLast_concat, h] at hn
    cases hn
  | zero h =>
    obtain ⟨n, hn, hpos, -⟩ := hreadable.opening List.getLast?_concat
    rw [List.dropLast_concat, h] at hn
    rw [← Option.some.inj hn] at hpos
    cases hpos
  | tooLarge h hle =>
    obtain ⟨n, hn, -, hlt⟩ := hreadable.opening List.getLast?_concat
    rw [List.dropLast_concat, h] at hn
    rw [← Option.some.inj hn] at hlt
    exact absurd hlt (Nat.not_lt_of_le hle)
  | chord hsounds hrest h =>
    obtain ⟨pitches, hpitches⟩ := hreadable.chord hsounds hrest
    rw [h] at hpitches
    cases hpitches
  | extension h =>
    obtain ⟨v, hv, hsounds⟩ := hreadable.extension rfl
    rw [h v hv] at hsounds
    cases hsounds

theorem setsLength_append (front : List Char) : setsLength (front ++ ['(']) = true := by
  rw [setsLength, List.getLast?_concat]
  rfl

theorem not_sounds_of_setsLength (h : setsLength w = true) : sounds w = false := by
  rw [sounds, h]
  rfl

/-- A closing parenthesis is always readable, since the parser does not count groups. -/
theorem isReadable_closing (before : List (List Char)) : IsReadable before [')'] :=
  ⟨fun h => absurd h (by decide), fun h => absurd h (by decide), fun h => absurd h (by decide)⟩

theorem isReadable_rest (before : List (List Char)) : IsReadable before ['.'] :=
  ⟨fun h => absurd h (by decide), fun _ => absurd rfl, fun h => absurd h (by decide)⟩

theorem isReadable_extension {before : List (List Char)} (h : ∃ v ∈ before, sounds v = true) :
    IsReadable before ['-'] :=
  ⟨fun h => absurd h (by decide), fun h => absurd h (by decide), fun _ => h⟩

/-- An opening word makes its length active or offends. -/
theorem activeLength_cases (before : List (List Char)) (front : List Char) :
    (activeLength (front ++ ['(']) = .ok (lengthSet (front ++ ['('])) ∧
      IsReadable before (front ++ ['('])) ∨
    ∃ e, activeLength (front ++ ['(']) = .error e ∧ Offends before (front ++ ['(']) e := by
  have hother {c : Char} (hc : '(' ≠ c) : front ++ ['('] ≠ [c] := by
    intro heq
    have hlast := congrArg List.getLast? heq
    rw [List.getLast?_concat] at hlast
    exact hc (Option.some.inj hlast)
  rw [activeLength_append, groupLength, lengthSet, if_neg (hother (by decide)), List.dropLast_concat]
  -- the three ways in which a length can be wrong
  cases hdigits : Decimal.digits? front with
  | none => exact .inr ⟨_, rfl, .noDigits hdigits⟩
  | some n =>
    dsimp only
    by_cases hzero : n = 0
    · rw [if_pos hzero]
      exact .inr ⟨_, rfl, .zero (hzero ▸ hdigits)⟩
    by_cases hlt : n < UInt32.size
    · rw [if_neg hzero, if_pos hlt]
      refine .inl ⟨?_, fun _ => ⟨n, ?_, by omega, hlt⟩, fun h => ?_, fun h => absurd h (hother (by decide))⟩
      · rw [(Decimal.digits?_eq_some_iff.1 hdigits).2.2, subdivided]
      · rwa [List.dropLast_concat]
      · rw [not_sounds_of_setsLength (setsLength_append front)] at h
        cases h
    · rw [if_neg hzero, if_neg hlt]
      exact .inr ⟨_, rfl, .tooLarge hdigits (Nat.le_of_not_lt hlt)⟩

theorem allReadable_concat (h : AllReadable ws) (hw : IsReadable ws w) : AllReadable (ws ++ [w]) := by
  intro before v after hws
  rcases List.eq_nil_or_concat after with rfl | ⟨after, last, rfl⟩
  · obtain ⟨rfl, hv⟩ := List.append_inj' hws rfl
    rw [← (List.cons.inj hv).1]
    exact hw
  · rw [List.concat_eq_append, ← List.cons_append, ← List.append_assoc] at hws
    exact h before v after (List.append_inj' hws rfl).1

/-! ## One more word -/

theorem onsets_concat :
    onsets (ws ++ [w]) = onsets ws ++ if sounds w then [(w, ws.length)] else [] := by
  rw [onsets, List.zipIdx_append, List.filter_append, Nat.zero_add, onsets]
  congr 1
  cases hsounds : sounds w with
  | true => exact List.filter_cons_of_pos hsounds
  | false => exact List.filter_cons_of_neg (by rw [hsounds]; exact Bool.false_ne_true)

theorem lt_length_of_mem_onsets {onset : List Char × Nat} (h : onset ∈ onsets ws) :
    onset.2 < ws.length := by
  have hmem := List.mk_mem_zipIdx_iff_getElem?.1 (List.mem_filter.1 h).1
  exact (List.getElem?_eq_some_iff.1 hmem).1

/-- What is behind a position does not matter for the length there. -/
theorem activeAt_concat (hi : i ≤ ws.length) : activeAt (ws ++ [w]) i = activeAt ws i := by
  rw [activeAt, List.take_append_of_le_length hi, activeAt]

/-- Behind a word the length is the one it sets, or as it was. -/
theorem activeAt_concat_length :
    activeAt (ws ++ [w]) (ws.length + 1) =
      if setsLength w then lengthSet w else activeAt ws ws.length := by
  rw [activeAt, activeAt, List.take_length, List.take_of_length_le (by rw [List.length_append]; rfl),
    List.reverse_append, List.reverse_singleton, List.singleton_append, List.find?_cons]
  split
  · next h => rw [if_pos h]; rfl
  · next h => rw [if_neg (by rw [h]; exact Bool.false_ne_true)]

/-- Whether nothing sounds behind a position. -/
def IsLastOnset (ws : List (List Char)) (i : Nat) : Prop :=
  ∀ o ∈ (ws.drop (i + 1)).zipIdx (i + 1), (!sounds o.1) = true

instance (ws : List (List Char)) (i : Nat) : Decidable (IsLastOnset ws i) :=
  inferInstanceAs (Decidable (∀ o ∈ _, _))

/-- One more word extends the chord at a position exactly if it is a line and that chord is the last. -/
theorem extensionsAt_concat (hi : i < ws.length) :
    extensionsAt (ws ++ [w]) i =
      extensionsAt ws i ++ if w = ['-'] ∧ IsLastOnset ws i then [ws.length] else [] := by
  have hdrop : ((ws ++ [w]).drop (i + 1)).zipIdx (i + 1) =
      (ws.drop (i + 1)).zipIdx (i + 1) ++ [(w, ws.length)] := by
    rw [List.drop_append_of_le_length hi, List.zipIdx_append, List.length_drop, Nat.add_sub_cancel' hi]
    rfl
  rw [extensionsAt, extensionsAt, hdrop, List.takeWhile_append]
  by_cases hlast : IsLastOnset ws i
  · -- the search for extensions comes as far as the new word
    rw [List.takeWhile_eq_self_iff.2 hlast, if_pos rfl, List.filter_append, List.map_append]
    congr 1
    by_cases hw : w = ['-']
    · rw [if_pos ⟨hw, hlast⟩, hw]
      rfl
    · rw [if_neg fun h => hw h.1, List.map_eq_nil_iff, List.filter_eq_nil_iff]
      intro o ho
      rw [List.mem_singleton.1 ((List.takeWhile_prefix _).subset ho), beq_iff_eq]
      exact hw
  · have hshort : (((ws.drop (i + 1)).zipIdx (i + 1)).takeWhile (!sounds ·.1)).length ≠
        ((ws.drop (i + 1)).zipIdx (i + 1)).length := fun hlength =>
      hlast (List.takeWhile_eq_self_iff.1 ((List.takeWhile_prefix _).eq_of_length hlength))
    rw [if_neg hshort, if_neg fun h => hlast h.2, List.append_nil]

theorem lt_length_of_mem_extensionsAt {j : Nat} (h : j ∈ extensionsAt ws i) : j < ws.length := by
  obtain ⟨o, ho, rfl⟩ := List.mem_map.1 h
  have hmem := (List.takeWhile_prefix _).subset (List.mem_of_mem_filter ho)
  obtain ⟨hle, hlt, -⟩ := List.mem_zipIdx hmem
  rw [List.length_drop] at hlt
  omega

/-- An extension is added to the last chord, and no other word changes a length in front of it. -/
theorem lengthAt_concat (hi : i < ws.length) :
    lengthAt (ws ++ [w]) i =
      if w = ['-'] ∧ IsLastOnset ws i then lengthAt ws i + activeAt ws ws.length else lengthAt ws i := by
  have hactive : (extensionsAt ws i).map (activeAt (ws ++ [w])) = (extensionsAt ws i).map (activeAt ws) :=
    List.map_congr_left fun j hj => activeAt_concat (Nat.le_of_lt (lt_length_of_mem_extensionsAt hj))
  rw [lengthAt, extensionsAt_concat hi, List.map_append, hactive, activeAt_concat (Nat.le_of_lt hi),
    List.foldl_append, ← lengthAt]
  split
  · -- the new word extends this chord: its length is added last
    rw [List.map_singleton, activeAt_concat (Nat.le_refl _)]
    rfl
  · rfl

/-- A new chord has the length that is active where it stands. -/
theorem lengthAt_concat_length : lengthAt (ws ++ [w]) ws.length = activeAt ws ws.length := by
  have hnone : extensionsAt (ws ++ [w]) ws.length = [] := by
    rw [extensionsAt, List.drop_of_length_le (by rw [List.length_append]; rfl)]
    rfl
  rw [lengthAt, hnone, activeAt_concat (Nat.le_refl _)]
  rfl

/-- A word that does not extend a chord leaves it as it was described. -/
theorem IsChordAt.concat {onset : List Char × Nat} {c : Chord} (hi : onset.2 < ws.length)
    (hw : ¬(w = ['-'] ∧ IsLastOnset ws onset.2)) (h : IsChordAt ws onset c) :
    IsChordAt (ws ++ [w]) onset c := by
  refine ⟨h.rest, h.pitches, ?_⟩
  rw [lengthAt_concat hi, if_neg hw]
  exact h.length

/-- The last word that sounds is the last onset, and those in front of it are not. -/
theorem isLastOnset_of_onsets {onset : List Char × Nat} {before : List (List Char × Nat)}
    (h : (onsets ws).reverse = onset :: before) :
    IsLastOnset ws onset.2 ∧ ∀ o ∈ before, ¬IsLastOnset ws o.2 := by
  -- onsets are listed by position
  have hsorted : (onset :: before).Pairwise fun o o' => o'.2 < o.2 := by
    rw [← h, List.pairwise_reverse]
    refine List.Pairwise.filter _ (List.pairwise_map.1 ?_)
    rw [List.zipIdx_map_snd]
    exact List.pairwise_lt_range' 1
  rw [List.pairwise_cons] at hsorted
  have hmem (o : List Char × Nat) : o ∈ onset :: before ↔ ws[o.2]? = some o.1 ∧ sounds o.1 = true := by
    rw [← h, List.mem_reverse, onsets, List.mem_filter, List.mk_mem_zipIdx_iff_getElem?]
  -- an onset behind the last one would be listed before it
  have hbehind (i : Nat) (o : List Char × Nat) :
      o ∈ (ws.drop (i + 1)).zipIdx (i + 1) ↔ i < o.2 ∧ ws[o.2]? = some o.1 := by
    rw [List.mk_mem_zipIdx_iff_le_and_getElem?_sub, List.getElem?_drop]
    refine and_congr_right fun hle => ?_
    rw [Nat.add_sub_cancel' hle]
  constructor
  · intro o ho
    obtain ⟨hlt, hget⟩ := (hbehind _ o).1 ho
    rw [Bool.not_eq_true']
    refine eq_false_of_ne_true fun hsounds => ?_
    rcases List.mem_cons.1 ((hmem o).2 ⟨hget, hsounds⟩) with rfl | hbefore
    · exact Nat.lt_irrefl _ hlt
    · exact Nat.lt_asymm hlt (hsorted.1 o hbefore)
  · intro o ho hlast
    obtain ⟨hget, hsounds⟩ := (hmem onset).1 List.mem_cons_self
    have hsilent := hlast onset ((hbehind _ onset).2 ⟨hsorted.1 o ho, hget⟩)
    rw [hsounds] at hsilent
    cases hsilent

/-! ## The pass -/

namespace State

variable {s s' : State}

/-- What the reader has in hand behind some words. -/
structure Describes (s : State) (ws : List (List Char)) : Prop where
  active : s.active = activeAt ws ws.length
  sounded : List.Forall₂ (IsChordAt ws) (onsets ws).reverse s.sounded

theorem run_concat {position : Nat} :
    s.run position (ws ++ [w]) = s.run position ws >>= fun s => s.step (position + ws.length) w := by
  rw [run_append]
  congr 1
  funext s
  show (s.step (position + ws.length) w >>= fun s => pure s) = _
  exact bind_pure _

theorem describes_start : start.Describes [] := ⟨rfl, .nil⟩

/-- There is a chord exactly if a word has sounded. -/
theorem Describes.sounded_eq_nil_iff (h : s.Describes ws) :
    s.sounded = [] ↔ ∀ v ∈ ws, sounds v = false := by
  -- as many chords have sounded as there are onsets
  have honsets : s.sounded = [] ↔ onsets ws = [] := by
    have hlength := h.sounded.length_eq
    rw [List.length_reverse] at hlength
    rw [← List.length_eq_zero_iff, ← hlength, List.length_eq_zero_iff]
  rw [honsets, onsets, List.filter_eq_nil_iff]
  constructor
  · intro hall v hv
    obtain ⟨i, hi⟩ := List.mem_iff_getElem?.1 hv
    exact eq_false_of_ne_true (hall (v, i) (List.mk_mem_zipIdx_iff_getElem?.2 hi))
  · intro hall o ho
    rw [hall o.1 (List.mem_iff_getElem?.2 ⟨o.2, List.mk_mem_zipIdx_iff_getElem?.1 ho⟩)]
    exact Bool.false_ne_true

theorem Describes.sounded_below (h : s.Describes ws) :
    List.Forall₂ (fun o c => o.2 < ws.length ∧ IsChordAt ws o c) (onsets ws).reverse s.sounded :=
  (List.forall₂_and_left _ _).2 ⟨fun _ ho => lt_length_of_mem_onsets (List.mem_reverse.1 ho), h.sounded⟩

/-- What is in front of a word that is no extension stays as it is. -/
theorem Describes.sounded_concat (h : s.Describes ws) (hw : w ≠ ['-']) :
    List.Forall₂ (IsChordAt (ws ++ [w])) (onsets ws).reverse s.sounded := by
  refine h.sounded_below.imp ?_
  intro o c hc
  exact hc.2.concat hc.1 fun hlast => hw hlast.1

/-- A word that sets a length. -/
theorem Describes.concat_setsLength (h : s.Describes ws) (hsets : setsLength w = true) :
    Describes { s with active := lengthSet w } (ws ++ [w]) := by
  have hsilent := not_sounds_of_setsLength hsets
  have hne : w ≠ ['-'] := by
    rintro rfl
    cases hsets
  refine ⟨?_, ?_⟩
  · rw [List.length_append, List.length_singleton, activeAt_concat_length, if_pos hsets]
  · rw [onsets_concat, hsilent, if_neg Bool.false_ne_true, List.append_nil]
    exact h.sounded_concat hne

/-- A word that sounds. -/
theorem Describes.concat_sounds (h : s.Describes ws) (hsounds : sounds w = true) {pitches : List Pitch}
    (hrest : pitches = [] ↔ w = ['.']) (hpitches : w ≠ ['.'] → chordPitches w = .ok pitches) :
    Describes { s with sounded := ⟨pitches, .ofFloat s.active⟩ :: s.sounded } (ws ++ [w]) := by
  -- a word that sounds sets no length and extends nothing
  have hkind : setsLength w = false ∧ w ≠ ['-'] := by
    rwa [sounds, Bool.and_eq_true, Bool.not_eq_true', bne_iff_ne] at hsounds
  refine ⟨?_, ?_⟩
  · rw [List.length_append, List.length_singleton, activeAt_concat_length, hkind.1,
      if_neg Bool.false_ne_true]
    exact h.active
  · rw [onsets_concat, if_pos hsounds, List.reverse_append]
    refine .cons ⟨hrest, hpitches, ?_⟩ (h.sounded_concat hkind.2)
    rw [lengthAt_concat_length, h.active]

/-- An extension, which is added to the last chord. -/
theorem Describes.concat_extension (h : s.Describes ws) {last : Chord} {before : List Chord}
    (hsounded : s.sounded = last :: before) :
    Describes { s with
      sounded := { last with length := .ofFloat (last.length.value + s.active) } :: before }
      (ws ++ [['-']]) := by
  have hchords := h.sounded_below
  rw [hsounded, List.forall₂_cons_right_iff] at hchords
  obtain ⟨onset, onsets', ⟨hlt, hlast⟩, hbefore, hreverse⟩ := hchords
  obtain ⟨hend, hinner⟩ := isLastOnset_of_onsets hreverse
  refine ⟨?_, ?_⟩
  · rw [List.length_append, List.length_singleton, activeAt_concat_length]
    exact h.active
  · -- a line makes no onset, and only the last chord has a new length
    have hsame : onsets (ws ++ [['-']]) = onsets ws := by
      rw [onsets_concat]
      exact List.append_nil _
    rw [hsame, hreverse]
    refine .cons ⟨hlast.rest, hlast.pitches, ?_⟩ ?_
    · rw [lengthAt_concat hlt, if_pos ⟨rfl, hend⟩, hlast.length, Binary64.value_ofFloat, h.active]
    · refine ((List.forall₂_and_left _ _).2 ⟨hinner, hbefore⟩).imp ?_
      intro o c hc
      exact hc.2.2.concat hc.2.1 fun hlast => hc.1 hlast.2

/-- **One step of the pass**: a word that can be read adds what is looked up at it. -/
theorem Describes.step_cases (h : s.Describes ws) (w : List Char) :
    (∃ s' : State, s.step ws.length w = .ok s' ∧ s'.Describes (ws ++ [w]) ∧ IsReadable ws w) ∨
      ∃ e, s.step ws.length w = .error e ∧ Offends ws w e := by
  -- a word that opens a group: the length is read or is at fault
  by_cases hopening : w.getLast? = some '('
  · obtain ⟨front, rfl⟩ := List.getLast?_eq_some_iff.1 hopening
    rcases activeLength_cases ws front with ⟨hlength, hreadable⟩ | ⟨e, hlength, hoffends⟩
    · refine .inl ⟨_, ?_, h.concat_setsLength (setsLength_append front), hreadable⟩
      rw [step, ofWord_append]
      dsimp only
      rw [hlength]
      rfl
    · refine .inr ⟨e, ?_, hoffends⟩
      rw [step, ofWord_append]
      dsimp only
      rw [hlength]
      rfl
  by_cases hclosing : w = [')']
  · subst hclosing
    exact .inl ⟨{ s with active := lengthSet [')'] }, rfl, h.concat_setsLength rfl, isReadable_closing ws⟩
  -- a line needs a chord before it
  by_cases hextension : w = ['-']
  · subst hextension
    obtain ⟨sounded, active⟩ := s
    cases sounded with
    | nil => exact .inr ⟨.danglingExtend ws.length, rfl, .extension (h.sounded_eq_nil_iff.1 rfl)⟩
    | cons last before =>
      refine .inl ⟨_, rfl, h.concat_extension rfl, isReadable_extension ?_⟩
      by_contra hnone
      have hnil := h.sounded_eq_nil_iff.2 fun v hv => eq_false_of_ne_true fun hv' => hnone ⟨v, hv, hv'⟩
      cases hnil
  have hsounds : sounds w = true := by
    rw [sounds, setsLength, beq_false_of_ne hopening, beq_false_of_ne hclosing, bne_iff_ne.2 hextension]
    rfl
  by_cases hrest : w = ['.']
  · subst hrest
    exact .inl ⟨_, rfl, h.concat_sounds hsounds (iff_of_true rfl rfl) (absurd rfl), isReadable_rest ws⟩
  have hchord : Token.ofWord w = .chord w := by
    rw [Token.ofWord, if_neg hopening, if_neg hclosing, if_neg hextension, if_neg hrest]
  -- any other word is read as a chord or is at fault
  cases hpitches : chordPitches w with
  | error e =>
    refine .inr ⟨e, ?_, .chord hsounds hrest hpitches⟩
    rw [step, hchord]
    dsimp only
    rw [hpitches]
    rfl
  | ok pitches =>
    have hne := (mapM_of_chordPitches hpitches).2
    refine .inl ⟨_, ?_, h.concat_sounds hsounds (iff_of_false hne hrest) fun _ => hpitches, ?_⟩
    · rw [step, hchord]
      dsimp only
      rw [hpitches]
      rfl
    · exact ⟨fun h => absurd h hopening, fun _ _ => ⟨pitches, hpitches⟩, fun h => absurd h hextension⟩

/-- **The whole pass**: either every word can be read and the state is what is looked up, or the error is that
of the first word that offends. -/
theorem run_cases (ws : List (List Char)) :
    (∃ s : State, start.run 0 ws = .ok s ∧ s.Describes ws ∧ AllReadable ws) ∨
      ∃ e before w after, start.run 0 ws = .error e ∧ ws = before ++ w :: after ∧
        AllReadable before ∧ Offends before w e := by
  induction ws using List.reverseRecOn with
  | nil => exact .inl ⟨start, rfl, describes_start, fun before w after h => absurd h (by simp)⟩
  | append_singleton ws w ih =>
    rw [run_concat, Nat.zero_add]
    -- the words before are read, and this one is read or at fault; or the fault is among them already
    rcases ih with ⟨s, hrun, hs, hall⟩ | ⟨e, before, v, after, hrun, hws, hall, hoffends⟩
    · rw [hrun]
      rcases hs.step_cases w with ⟨s', hstep, hs', hreadable⟩ | ⟨e, hstep, hoffends⟩
      · exact .inl ⟨s', hstep, hs', allReadable_concat hall hreadable⟩
      · exact .inr ⟨e, ws, w, [], hstep, rfl, hall, hoffends⟩
    · refine .inr ⟨e, before, v, after ++ [w], ?_, ?_, hall, hoffends⟩
      · rw [hrun]
        rfl
      · rw [hws, List.append_assoc, List.cons_append]

end State

/-- **A line of notation by its positions.** It is read exactly if every word can be read behind those in front
of it. Then there is a chord for each word that sounds, in order, as it is looked up; and otherwise the error
is that of the first word that cannot be read. -/
theorem parse_by_position (text : String) :
    ((∃ chords, parse text = .ok chords) ↔ AllReadable (Text.words text.toList)) ∧
    (∀ chords, parse text = .ok chords →
      List.Forall₂ (IsChordAt (Text.words text.toList)) (onsets (Text.words text.toList)) chords) ∧
    ∀ e, parse text = .error e → ∃ before w after, Text.words text.toList = before ++ w :: after ∧
      AllReadable before ∧ Offends before w e := by
  rw [parse, parseChars]
  -- the whole line is read, or there is a first word that offends
  rcases State.run_cases (Text.words text.toList) with
    ⟨s, hrun, hs, hall⟩ | ⟨e, before, w, after, hrun, hwords, hall, hoffends⟩
  · rw [hrun]
    refine ⟨iff_of_true ⟨_, rfl⟩ hall, fun chords hchords => ?_, fun e he => ?_⟩
    · rw [← pure_eq_ok_iff.1 hchords, ← List.forall₂_reverse_iff, List.reverse_reverse]
      exact hs.sounded
    · cases he
  · rw [hrun]
    refine ⟨iff_of_false ?_ fun hreadable => ?_, fun chords hchords => ?_, fun e' he => ?_⟩
    · rintro ⟨chords, hchords⟩
      cases hchords
    · exact hoffends.not_isReadable (hreadable before w after hwords)
    · cases hchords
    · exact ⟨before, w, after, hwords, hall, Except.error.inj he ▸ hoffends⟩

/-- A chord that is held on in its group and behind it, and a word that offends in a group. -/
theorem parse_by_position_held :
    onsets (Text.words "8( E/G - ) - .".toList) = [("E/G".toList, 1), (['.'], 5)] ∧
    IsChordAt (Text.words "8( E/G - ) - .".toList) ("E/G".toList, 1)
      ⟨[⟨.e, 0, 0⟩, ⟨.g, 0, 0⟩], .ofFloat 2⟩ ∧
    ∃ before w after, Text.words "4( - C ) 0( H".toList = before ++ w :: after ∧
      AllReadable before ∧ Offends before w (.danglingExtend 1) := by
  have honsets : onsets (Text.words "8( E/G - ) - .".toList) = [("E/G".toList, 1), (['.'], 5)] := by decide
  have hheld : parse "8( E/G - ) - ." =
      .ok [⟨[⟨.e, 0, 0⟩, ⟨.g, 0, 0⟩], .ofFloat 2⟩, ⟨[], .ofFloat 1⟩] := by
    decide +kernel
  -- a line at the beginning of a group, with further faults behind it
  have hdangling : parse "4( - C ) 0( H" = .error (.danglingExtend 1) := by decide +kernel
  refine ⟨honsets, ?_, ?_⟩
  · have hchords := (parse_by_position _).2.1 _ hheld
    rw [honsets] at hchords
    cases hchords with
    | cons hchord _ => exact hchord
  · exact (parse_by_position _).2.2 _ hdangling

end Melody.Notation
