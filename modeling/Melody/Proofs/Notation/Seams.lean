import Melody.Proofs.InPlace
import Melody.Proofs.Notation.Positions

/-!
# Lines of notation put together

A line that is written in pieces can be read in pieces, as long as nothing that the reader has in hand is needed
across a seam. It has two things in hand: the active length, which the first piece must leave as it was at the
beginning, and the last chord, which the second piece must not hold on.

## The architecture

* **`EndsClosed`** and **`StartsAfresh`** say this of the words on either side of a seam.
* **`State.above`** puts chords under those of a state. A step does not look at them unless it is an extension
  that finds no other chord (**`State.step_above`**), and so neither does a run over words that start afresh
  (**`State.run_above`**).
* **`run_joined`** is the run over both pieces, and **`parse_joined`** is about texts and tracks.
-/

namespace Melody.Notation

open Outcome Change

variable {w : List Char} {ws front back : List (List Char)}

/-! ## Seams -/

/-- The last word that sets a length, if there is one, closes a group. -/
def EndsClosed (ws : List (List Char)) : Prop := ∀ w ∈ ws.reverse.find? setsLength, w = [')']

/-- The first word that does more than set a length, if there is one, is no extension. -/
def StartsAfresh (ws : List (List Char)) : Prop := ∀ w ∈ ws.find? (!setsLength ·), w ≠ ['-']

instance (ws : List (List Char)) : Decidable (EndsClosed ws) :=
  inferInstanceAs (Decidable (∀ w ∈ ws.reverse.find? setsLength, w = [')']))

instance (ws : List (List Char)) : Decidable (StartsAfresh ws) :=
  inferInstanceAs (Decidable (∀ w ∈ ws.find? (!setsLength ·), w ≠ ['-']))

/-- Where the last word that sets a length closes a group, the default length is active at the end. -/
theorem activeAt_length_of_endsClosed (h : EndsClosed ws) : activeAt ws ws.length = defaultLength := by
  rw [activeAt, List.take_length]
  cases hlast : ws.reverse.find? setsLength with
  | none => rfl
  | some w =>
    rw [h w hlast]
    rfl

/-- A text that starts afresh does not start with a line. -/
theorem ne_extension_of_startsAfresh (h : StartsAfresh (w :: ws)) : w ≠ ['-'] := by
  rintro rfl
  exact h ['-'] rfl rfl

/-- Behind a word that only sets a length the text still starts afresh. -/
theorem StartsAfresh.of_cons (h : StartsAfresh (w :: ws)) (hw : setsLength w = true) :
    StartsAfresh ws := by
  rw [StartsAfresh, List.find?_cons_of_neg (by rw [hw]; exact Bool.false_ne_true)] at h
  exact h

/-! ## Chords underneath -/

/-- Only a line is read as an extension. -/
theorem eq_of_ofWord_eq_extension (h : Token.ofWord w = .extension) : w = ['-'] := by
  rw [Token.ofWord] at h
  split at h
  · cases h
  split at h
  · cases h
  split at h
  · next hw => exact hw
  split at h
  · cases h
  · cases h

namespace State

variable {s s' : State} {base : List Chord} {position position' : Nat}

/-- The state with some chords under its own. -/
def above (s : State) (base : List Chord) : State := { s with sounded := s.sounded ++ base }

/-- A step does not see the chords below its own, unless it extends the last one and has none. Positions
matter for the error of such a line only. -/
theorem step_above (h : w = ['-'] → s.sounded ≠ []) :
    (s.above base).step position' w = (s.step position w).map (·.above base) := by
  obtain ⟨sounded, active⟩ := s
  rw [step, step]
  cases htoken : Token.ofWord w with
  | opening word =>
    dsimp only
    cases activeLength word with
    | error fault => rfl
    | ok length => rfl
  | closing => rfl
  | extension =>
    have hw : w = ['-'] := eq_of_ofWord_eq_extension htoken
    -- an extension reaches for the last chord, and `h` says that one lies above the base
    obtain ⟨last, before, rfl⟩ := List.exists_cons_of_ne_nil (h hw)
    rfl
  | rest => rfl
  | chord word =>
    dsimp only
    cases chordPitches word with
    | error fault => rfl
    | ok pitches => rfl

/-- Only a word that sets a length leaves a reader without a chord. -/
theorem Steps.sounded_eq_nil (h : Steps s w s') (hs' : s'.sounded = []) :
    s.sounded = [] ∧ setsLength w = true := by
  cases h with
  | opening hword _ => exact ⟨hs', by rw [setsLength, hword]; rfl⟩
  | closing hword => exact ⟨hs', by rw [hword]; rfl⟩
  | extension => cases hs'
  | rest => cases hs'
  | chord => cases hs'

/-- Chords underneath are left alone by words that start afresh, and by any words once a chord stands on
them. -/
theorem run_above (h : s.sounded = [] → StartsAfresh ws) :
    (s.above base).run position' ws = (s.run position ws).map (·.above base) := by
  induction ws generalizing s position position' with
  | nil => rfl
  | cons w rest ih =>
    have hstep : (s.above base).step position' w = (s.step position w).map (·.above base) := by
      apply step_above
      intro hw hnil
      exact ne_extension_of_startsAfresh (h hnil) hw
    rw [run, run, hstep]
    cases hs : s.step position w with
    | error fault => rfl
    | ok s₁ =>
      -- as long as no chord of its own has been made, the rest of the text starts afresh as well
      refine ih fun hnil => ?_
      obtain ⟨hs, hw⟩ := (steps_of_step hs).sounded_eq_nil hnil
      exact (h hs).of_cons hw

/-- A run over words that leave nothing in hand and others that need nothing is a run over each. -/
theorem run_joined (hfront : EndsClosed front) (hback : StartsAfresh back)
    (h : start.run 0 front = .ok s) :
    start.run 0 (front ++ back) = (start.run 0 back).map (·.above s.sounded) := by
  -- the groups of the first text are closed, so the second starts with the default length
  have hactive : s.active = defaultLength := by
    rcases run_cases front with ⟨s', hrun, hdescribes, -⟩ | ⟨fault, _, _, _, hrun, -⟩
    · rw [h] at hrun
      rw [Except.ok.inj hrun, hdescribes.active, activeAt_length_of_endsClosed hfront]
    · rw [h] at hrun
      cases hrun
  have hs : s = start.above s.sounded := by
    rw [above, start, List.nil_append, ← hactive]
  rw [run_append, h]
  show s.run (0 + front.length) back = _
  rw [hs, run_above fun _ => hback]
  rfl

end State

/-! ## Texts -/

variable {a b blanks : String} {chords : List Chord}

/-- White space between two texts ends the last word of the one and starts the first word of the other, so the
words of the whole are those of both. -/
theorem words_joined (hne : blanks ≠ "") (hblanks : ∀ c ∈ blanks.toList, Text.isBlank c = true) :
    Text.words (a ++ blanks ++ b).toList = Text.words a.toList ++ Text.words b.toList := by
  have hne : blanks.toList ≠ [] := by
    rwa [Ne, String.toList_eq_nil_iff]
  rw [String.toList_append, String.toList_append, Text.words_append_blanks hne hblanks]

/-- What is read of the second text, a failure too, is all that counts once the first has been read. -/
theorem parse_append_of_ok (hblanks : blanks ≠ "" ∧ ∀ c ∈ blanks.toList, Text.isBlank c = true)
    (ha : EndsClosed (Text.words a.toList)) (hb : StartsAfresh (Text.words b.toList))
    (h : parse a = .ok chords) : parse (a ++ blanks ++ b) = (parse b).map (chords ++ ·) := by
  obtain ⟨s, hrun, hs⟩ := bind_eq_ok_iff.1 h
  obtain rfl := pure_eq_ok_iff.1 hs
  rw [parse, parse, parseChars, parseChars, words_joined hblanks.1 hblanks.2, State.run_joined ha hb hrun]
  -- the state after the first text is a base for the second
  cases State.start.run 0 (Text.words b.toList) with
  | error fault => rfl
  | ok s' =>
    show Except.ok (s'.sounded ++ s.sounded).reverse = Except.ok (s.sounded.reverse ++ s'.sounded.reverse)
    rw [List.reverse_append]

/-! ## Tracks -/

/-- Appending a text to a track is parsing it and putting its chords behind those of the track; nothing else
of the track takes part. -/
theorem withNotation_eq_ok_iff {t u : Track} {text : String} :
    t.withNotation text = .ok u ↔ ∃ chords, parse text = .ok chords ∧ t.extended chords = u := by
  rw [Track.withNotation, bind_eq_ok_iff]
  simp only [pure_eq_ok_iff]

/-- A track that has the chords of the first text takes those of the second as it would have taken both. -/
theorem withNotation_joined (hjoined : parse (a ++ blanks ++ b) = (parse b).map (chords ++ ·))
    {t u : Track} :
    (t.extended chords).withNotation b = .ok u ↔ t.withNotation (a ++ blanks ++ b) = .ok u := by
  have hextended (more : List Chord) :
      (t.extended chords).extended more = t.extended (chords ++ more) := by
    rw [Track.extended, Track.extended, Track.extended, List.append_assoc]
  rw [Track.withNotation, Track.withNotation, hjoined]
  -- both fail with the fault of `b`, or both add its chords behind the others
  cases parse b with
  | error fault => exact Iff.rfl
  | ok more =>
    show Except.ok ((t.extended chords).extended more) = _ ↔ Except.ok (t.extended (chords ++ more)) = _
    rw [hextended]

/-- **Notation may be written in pieces.** If the first of two texts can be read and ends with its groups closed,
and the second does not begin by holding on a chord, then both together are read as the one and then the
other, and fail as the second does. So a track comes to the same chords by two appends and by one. -/
theorem parse_joined (hblanks : blanks ≠ "" ∧ ∀ c ∈ blanks.toList, Text.isBlank c = true)
    (ha : EndsClosed (Text.words a.toList)) (hb : StartsAfresh (Text.words b.toList))
    (h : parse a = .ok chords) :
    (∀ more, parse b = .ok more → parse (a ++ blanks ++ b) = .ok (chords ++ more)) ∧
    (∀ fault, parse b = .error fault → parse (a ++ blanks ++ b) = .error fault) ∧
    ∀ t t₁ t₂ : Track, (Track.appendNotation a).on t = (.ok (), t₁) →
      ((Track.appendNotation b).on t₁ = (.ok (), t₂) ↔
        (Track.appendNotation (a ++ blanks ++ b)).on t = (.ok (), t₂)) := by
  have hjoined := parse_append_of_ok hblanks ha hb h
  refine ⟨?_, ?_, ?_⟩
  · intro more hmore
    rw [hjoined, hmore]
    rfl
  · intro fault hfault
    rw [hjoined, hfault]
    rfl
  · intro t t₁ t₂ ht₁
    -- the first append has left the chords of the first text behind
    obtain ⟨chords', hchords', rfl⟩ :=
      withNotation_eq_ok_iff.1 ((Track.replaces_appendNotation a).on_eq_ok_iff.1 ht₁)
    obtain rfl : chords' = chords := Except.ok.inj (hchords'.symm.trans h)
    rw [(Track.replaces_appendNotation b).on_eq_ok_iff,
      (Track.replaces_appendNotation _).on_eq_ok_iff, withNotation_joined hjoined]

/-- A group on either side of the seam, and an extension that stays on its own side. The third text is refused
behind the first as it is alone. -/
theorem parse_joined_reprise :
    parse ("8( C - ) D" ++ "\n " ++ "2( E/G ) - .") =
      .ok [⟨[⟨.c, 0, 0⟩], .ofFloat 1⟩, ⟨[⟨.d, 0, 0⟩], .ofFloat 1⟩, ⟨[⟨.e, 0, 0⟩, ⟨.g, 0, 0⟩], .ofFloat 3⟩,
        ⟨[], .ofFloat 1⟩] ∧
    parse ("8( C - ) D" ++ "\n " ++ "4( C X") = .error (.malformedToken "X" .noLetter) ∧
    (Track.appendNotation ("8( C - ) D" ++ "\n " ++ "2( E/G ) - .")).on Track.initial =
      (.ok (), Track.initial.extended [⟨[⟨.c, 0, 0⟩], .ofFloat 1⟩, ⟨[⟨.d, 0, 0⟩], .ofFloat 1⟩,
        ⟨[⟨.e, 0, 0⟩, ⟨.g, 0, 0⟩], .ofFloat 3⟩, ⟨[], .ofFloat 1⟩]) := by
  have hblanks : "\n " ≠ "" ∧ ∀ c ∈ "\n ".toList, Text.isBlank c = true :=
    ⟨by decide, List.all_eq_true.1 (by decide)⟩
  -- the first text closes its group and goes on, and the second opens one at once
  have ha : EndsClosed (Text.words "8( C - ) D".toList) := by decide
  have hb : StartsAfresh (Text.words "2( E/G ) - .".toList) := by decide
  have hb' : StartsAfresh (Text.words "4( C X".toList) := by decide
  have hfirst : parse "8( C - ) D" =
      .ok [⟨[⟨.c, 0, 0⟩], .ofFloat 1⟩, ⟨[⟨.d, 0, 0⟩], .ofFloat 1⟩] := by decide +kernel
  have hsecond : parse "2( E/G ) - ." =
      .ok [⟨[⟨.e, 0, 0⟩, ⟨.g, 0, 0⟩], .ofFloat 3⟩, ⟨[], .ofFloat 1⟩] := by decide +kernel
  have hrefused : parse "4( C X" = .error (.malformedToken "X" .noLetter) := by decide +kernel
  have hone : (Track.appendNotation "8( C - ) D").on Track.initial =
      (.ok (), Track.initial.extended [⟨[⟨.c, 0, 0⟩], .ofFloat 1⟩, ⟨[⟨.d, 0, 0⟩], .ofFloat 1⟩]) := by
    decide +kernel
  obtain ⟨hread, -, htrack⟩ := parse_joined hblanks ha hb hfirst
  obtain ⟨-, hfault, -⟩ := parse_joined hblanks ha hb' hfirst
  exact ⟨hread _ hsecond, hfault _ hrefused, (htrack _ _ _ hone).1 (by decide +kernel)⟩

end Melody.Notation
