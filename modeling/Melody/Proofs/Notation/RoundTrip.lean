import Melody.Notation.Reading
import Melody.Proofs.Float.Bits
import Melody.Proofs.Notation.Words

/-!
# Chords read back

Chords that are written in the notation, each in a group of its own and held on for a number of extensions,
are read back as they were, field by field, whatever blanks stand between the words.

## The architecture

* **`Item`** is a chord as it is to be written, **`Item.words`** are the words that it is written with, and
  **`Item.chord`** is the chord that it stands for.
* **`run_of_step`** and the `step_` lemmas: what each word does to the reader.
* **`run_extensions`**: extensions add up in the order in which they are read.
* **`run_words`**: the words of one item add its chord and leave nothing else behind. **`run_flatMap`** is the
  run over all items.
* **`parse_of_spaced`** puts this together with the cut into words.
-/

namespace Melody.Notation

/-! ## Items -/

/-- A chord as it is to be written. -/
structure Item where
  pitches : List Pitch
  /-- The part of a whole that the chord and every extension take. -/
  subdivision : UInt32
  extensions : Nat
  /-- Whether there are slashes between the pitches. -/
  slashed : Bool

namespace Item

def words (i : Item) : List (List Char) :=
  openingWord i.subdivision :: chordWord i.slashed i.pitches ::
    (List.replicate i.extensions ['-'] ++ [[')']])

/-- The length of an item: its part of a whole, and again for every extension. -/
def length (i : Item) : Float :=
  (List.replicate i.extensions (subdivided i.subdivision)).foldl (· + ·) (subdivided i.subdivision)

def chord (i : Item) : Chord := ⟨i.pitches, .ofFloat i.length⟩

/-- What the notation has signs for: a subdivision, and octaves that may be marked. -/
structure Legible (i : Item) : Prop where
  subdivision : i.subdivision ≠ 0
  octaves : ∀ p ∈ i.pitches, p.octave.toInt.natAbs ≤ Pitch.maxOctave

end Item

/-! ## Words and blanks -/

theorem isBlank_of_isChordChar {c : Char} (h : isChordChar c = true) : Text.isBlank c = false := by
  rw [isChordChar, Bool.or_eq_true, Bool.or_eq_true, beq_iff_eq] at h
  rcases h with (hletter | hmark) | rfl
  · obtain ⟨l, hl⟩ := Option.isSome_iff_exists.1 hletter
    rw [← Letter.toChar_of_ofChar? hl]
    exact (Pitch.toChar_apart l).2.1
  · exact Pitch.isBlank_of_isMark hmark
  · decide

theorem isBlank_of_mem_openingWord {n : UInt32} {c : Char} (h : c ∈ openingWord n) :
    Text.isBlank c = false := by
  rw [openingWord, List.mem_append, List.mem_singleton] at h
  rcases h with hdigit | rfl
  · exact Pitch.isBlank_of_isDigit (Decimal.isDigit_of_mem_digits hdigit)
  · decide

theorem isBlank_of_mem_chordWord {slashed : Bool} {pitches : List Pitch} {c : Char}
    (h : c ∈ chordWord slashed pitches) : Text.isBlank c = false := by
  cases pitches with
  | nil =>
    rw [List.mem_singleton.1 h]
    decide
  | cons p rest => exact isBlank_of_isChordChar (isChordChar_of_mem_chordWord h)

/-- The word is not empty: without pitches it is a rest. -/
theorem chordWord_ne_nil (slashed : Bool) (pitches : List Pitch) : chordWord slashed pitches ≠ [] := by
  cases pitches with
  | nil => exact List.cons_ne_nil _ _
  | cons p rest =>
    obtain ⟨more, hword⟩ := chordWord_cons slashed p rest
    rw [hword]
    exact List.cons_ne_nil _ _

/-- The words of an item stay in one piece when they are put into a text. -/
theorem Item.word_of_mem_words {i : Item} {w : List Char} (h : w ∈ i.words) :
    w ≠ [] ∧ ∀ c ∈ w, Text.isBlank c = false := by
  rw [Item.words, List.mem_cons, List.mem_cons, List.mem_append, List.mem_singleton] at h
  -- the four kinds of word an item is written with
  rcases h with rfl | rfl | hextension | rfl
  · refine ⟨?_, fun c hc => isBlank_of_mem_openingWord hc⟩
    rw [openingWord]
    exact List.append_ne_nil_of_right_ne_nil _ (List.cons_ne_nil _ _)
  · exact ⟨chordWord_ne_nil _ _, fun c hc => isBlank_of_mem_chordWord hc⟩
  · rw [List.eq_of_mem_replicate hextension]
    exact ⟨List.cons_ne_nil _ _, List.forall_mem_singleton.2 (by decide)⟩
  · exact ⟨List.cons_ne_nil _ _, List.forall_mem_singleton.2 (by decide)⟩

/-! ## Steps -/

namespace State

variable (s : State) (position : Nat)

theorem run_of_step {s s' : State} {position : Nat} {word : List Char}
    (h : s.step position word = .ok s') (rest : List (List Char)) :
    s.run position (word :: rest) = s'.run (position + 1) rest := by
  rw [run, h]
  rfl

theorem step_openingWord {n : UInt32} (hn : n ≠ 0) :
    s.step position (openingWord n) = .ok { s with active := subdivided n } := by
  rw [step, ofWord_openingWord]
  dsimp only
  rw [activeLength_openingWord hn]
  rfl

theorem step_closing : s.step position [')'] = .ok { s with active := defaultLength } := rfl

theorem step_extension (pitches : List Pitch) (length : Float) (before : List Chord)
    (active : Float) :
    step ⟨⟨pitches, .ofFloat length⟩ :: before, active⟩ position ['-'] =
      .ok ⟨⟨pitches, .ofFloat (length + active)⟩ :: before, active⟩ := by
  show Except.ok (State.mk (⟨pitches, .ofFloat ((Binary64.ofFloat length).value + active)⟩ :: before)
    active) = _
  rw [Binary64.value_ofFloat]

/-- The word of a chord adds the chord, also if it is a rest. -/
theorem step_chordWord (slashed : Bool) {pitches : List Pitch}
    (h : ∀ p ∈ pitches, p.octave.toInt.natAbs ≤ Pitch.maxOctave) :
    s.step position (chordWord slashed pitches) =
      .ok { s with sounded := ⟨pitches, .ofFloat s.active⟩ :: s.sounded } := by
  -- no pitches are written as a rest, which has a step of its own
  cases pitches with
  | nil => rfl
  | cons p rest =>
    rw [step, ofWord_chordWord]
    dsimp only
    rw [chordPitches_chordWord slashed h]
    rfl

/-! ## Runs -/

/-- Extensions are added to the last chord one after the other. -/
theorem run_extensions (pitches : List Pitch) (length : Float) (before : List Chord)
    (active : Float) (k : Nat) (rest : List (List Char)) :
    run ⟨⟨pitches, .ofFloat length⟩ :: before, active⟩ position (List.replicate k ['-'] ++ rest) =
      run ⟨⟨pitches, .ofFloat ((List.replicate k active).foldl (· + ·) length)⟩ :: before, active⟩
        (position + k) rest := by
  induction k generalizing position length with
  | zero => rfl
  | succ k ih =>
    rw [List.replicate_succ, List.cons_append, run_of_step (step_extension ..), ih,
      List.replicate_succ, List.foldl_cons, Nat.add_assoc, Nat.add_comm 1 k]

/-- The words of an item add its chord, and the active length is the default one again. -/
theorem run_words {i : Item} (h : i.Legible) (rest : List (List Char)) :
    s.run position (i.words ++ rest) =
      run ⟨i.chord :: s.sounded, defaultLength⟩ (position + i.words.length) rest := by
  have hposition : position + i.words.length = position + 1 + 1 + i.extensions + 1 := by
    simp only [Item.words, List.length_cons, List.length_append, List.length_replicate,
      List.length_nil]
    omega
  -- a group is opened, its chord is sounded and held on, and the group is closed
  rw [hposition, Item.words, List.cons_append, List.cons_append, List.append_assoc]
  rw [run_of_step (step_openingWord _ _ h.subdivision), run_of_step (step_chordWord _ _ _ h.octaves),
    run_extensions, List.singleton_append, run_of_step (step_closing _ _)]
  rfl

/-- A run over items: their chords are added, the latest first. -/
theorem run_flatMap {items : List Item} (h : ∀ i ∈ items, i.Legible) (sounded : List Chord) :
    run ⟨sounded, defaultLength⟩ position (items.flatMap Item.words) =
      .ok ⟨(items.map Item.chord).reverse ++ sounded, defaultLength⟩ := by
  induction items generalizing sounded position with
  | nil => rfl
  | cons i rest ih =>
    rw [List.forall_mem_cons] at h
    rw [List.flatMap_cons, run_words _ _ h.1, ih _ h.2, List.map_cons, List.reverse_cons,
      List.append_assoc]
    rfl

end State

/-- **Chords are read back** from the words of the notation, however these are spaced: one for each item, in
order, with its own pitches and length. -/
theorem parse_of_spaced {items : List Item} {text : String} (h : ∀ i ∈ items, i.Legible)
    (htext : Text.Spaced (items.flatMap Item.words) text.toList) :
    parse text = .ok (items.map Item.chord) := by
  -- the text is cut at its white space into the words it was put together from
  have hwords : Text.words text.toList = items.flatMap Item.words := by
    apply Text.words_of_spaced htext
    · intro w hw
      obtain ⟨i, -, hi⟩ := List.mem_flatMap.1 hw
      exact (Item.word_of_mem_words hi).1
    · intro w hw
      obtain ⟨i, -, hi⟩ := List.mem_flatMap.1 hw
      exact (Item.word_of_mem_words hi).2
  rw [parse, parseChars, hwords, State.start, State.run_flatMap 0 h]
  -- the latest chord stands in front
  show Except.ok ((items.map Item.chord).reverse ++ []).reverse = _
  rw [List.append_nil, List.reverse_reverse]

/-- A chord that is held on twice, a rest, and a chord without slashes. -/
def phrase : List Item :=
  [⟨[⟨.c, 1, 5⟩, ⟨.b, -1, -1⟩], 8, 2, true⟩, ⟨[], 1, 0, true⟩, ⟨[⟨.e, -1, 0⟩, ⟨.g, 0, 2⟩], 3, 0, false⟩]

/-- The text is the words of the phrase, with blanks of several kinds between them. -/
theorem spaced_phrase :
    Text.Spaced (phrase.flatMap Item.words) "8( C#^5/Bb_1 -\t- )  1( . )\n3( EbG^2 ) ".toList := by
  have hword {w rest : List Char} {ws : List (List Char)} (h : Text.Spaced ws rest) :
      Text.Spaced (w :: ws) (w ++ ' ' :: rest) := .word w (by decide) h
  show Text.Spaced ["8(".toList, "C#^5/Bb_1".toList, ['-'], ['-'], [')'], "1(".toList, ['.'], [')'],
    "3(".toList, "EbG^2".toList, [')']] _
  refine hword (hword (.word ['-'] (by decide) (hword (.word [')'] (by decide) (.blank (by decide) ?_)))))
  refine hword (hword (.word [')'] (by decide) (hword (hword (hword .nothing)))))

/-- A slashed chord that is held twice, a rest, and a chord without slashes. -/
theorem parse_phrase :
    parse "8( C#^5/Bb_1 -\t- )  1( . )\n3( EbG^2 ) " =
      .ok [⟨[⟨.c, 1, 5⟩, ⟨.b, -1, -1⟩], .ofFloat 1.5⟩, ⟨[], .ofFloat 4⟩,
        ⟨[⟨.e, -1, 0⟩, ⟨.g, 0, 2⟩], .ofFloat (4 / 3)⟩] := by
  -- the conditions are decidable for a given phrase; only the lengths are computed
  have hlegible : ∀ i ∈ phrase, i.Legible := by
    have hall : ∀ i ∈ phrase, i.subdivision ≠ 0 ∧
        ∀ p ∈ i.pitches, p.octave.toInt.natAbs ≤ Pitch.maxOctave := by decide
    intro i hi
    exact ⟨(hall i hi).1, (hall i hi).2⟩
  rw [parse_of_spaced hlegible spaced_phrase]
  decide +kernel

end Melody.Notation
