import Melody.Notation.Reading
import Melody.Proofs.Notation.Scan
import Melody.Proofs.Notation.Words

/-!
# Groups of words

The reader keeps a length in hand and never looks back for a parenthesis. On a text that passes the check it
nevertheless sounds a tree: the words are plain words and groups of words, no group stands in another, and
every word has the length of the group it is in.

## The architecture

* **`Phrase`** is a plain word or a group, and **`Phrase.Bracketed`** says where parentheses may be in it.
* **`soundPhrases`** sounds phrases from left to right, by recursion on the tree and with no length to carry.
* **`Closes`** is what words are under the check, where a parenthesis is open or not; **`closes_of_run`** takes
  the check over a text.
* **`State.run_phrase`** and **`State.run_phrases`**: the reader over the words of a tree.
* **`parse_of_check`** puts these together.
-/

namespace Melody.Notation

open Outcome

/-! ## The tree -/

/-- A word by itself, or a prefix with the words that stand behind it in parentheses. -/
inductive Phrase
  | plain (word : List Char)
  | group (front : List Char) (body : List (List Char))
deriving DecidableEq, Repr

namespace Phrase

def words : Phrase → List (List Char)
  | plain word => [word]
  | group front body => (front ++ ['(']) :: (body ++ [[')']])

/-- The only parentheses are the one behind the prefix of a group and the one that is its last word. -/
def Bracketed : Phrase → Prop
  | plain word => IsFree word
  | group front body => IsFree front ∧ ∀ word ∈ body, IsFree word

instance : DecidablePred Bracketed
  | plain word => inferInstanceAs (Decidable (IsFree word))
  | group front body => inferInstanceAs (Decidable (IsFree front ∧ ∀ word ∈ body, IsFree word))

end Phrase

/-- Adds what a word sounds to the chords in front of it, which are in written order. -/
def soundWord (length : Float) (position : Nat) (chords : List Chord) (word : List Char) :
    Result (List Chord) :=
  if word = ['-'] then
    match chords.getLast? with
    | none => .error (.danglingExtend position)
    | some last =>
      let held := .ofFloat (last.length.value + length)
      .ok (chords.dropLast ++ [{ last with length := held }])
  else if word = ['.'] then .ok (chords ++ [Chord.rest (.ofFloat length)])
  else do return chords ++ [⟨← chordPitches word, .ofFloat length⟩]

def soundWords (length : Float) (position : Nat) (chords : List Chord) :
    List (List Char) → Result (List Chord)
  | [] => .ok chords
  | word :: rest => do
    let chords ← soundWord length position chords word
    soundWords length (position + 1) chords rest

/-- The length of a word in a group: the part of a whole that the prefix names. -/
def groupLength (front : List Char) : Result Float :=
  let malformed := Error.malformedToken (String.ofList (front ++ ['(']))
  match Decimal.digits? front with
  | none => .error (malformed .durationForm)
  | some n =>
    if n = 0 then .error (malformed .subdivisionZero)
    else if n < UInt32.size then .ok (wholeLength / (UInt32.ofNat n).toFloat)
    else .error (malformed .subdivisionOutOfRange)

def Phrase.sound (position : Nat) (chords : List Chord) : Phrase → Result (List Chord)
  | plain word => soundWord defaultLength position chords word
  | group front body => do
    let length ← groupLength front
    soundWords length (position + 1) chords body

/-- Adds what phrases sound to the chords in front of them. The position is that of the first word. -/
def soundPhrases (position : Nat) (chords : List Chord) : List Phrase → Result (List Chord)
  | [] => .ok chords
  | phrase :: rest => do
    let chords ← phrase.sound position chords
    soundPhrases (position + phrase.words.length) chords rest

/-! ## The check over a text -/

/-- What the words are that follow: phrases and, if a parenthesis is open, the rest of its group before. -/
def Closes (opened : Option Nat) (ws : List (List Char)) : Prop :=
  ∃ phrases : List Phrase, (∀ p ∈ phrases, p.Bracketed) ∧
    match opened with
    | none => ws = phrases.flatMap Phrase.words
    | some _ => ∃ body : List (List Char), (∀ word ∈ body, IsFree word) ∧
        ws = body ++ [')'] :: phrases.flatMap Phrase.words

variable {opened opened' : Option Nat} {word text : List Char} {ws : List (List Char)}

theorem closes_nil : Closes none [] := ⟨[], List.forall_mem_nil _, rfl⟩

/-- A word goes in front of the phrases, or of the group that is open, or it opens or closes a group. -/
theorem Closes.cons (h : Passes opened word opened') (hws : Closes opened' ws) :
    Closes opened (word :: ws) := by
  obtain ⟨phrases, hphrases, hws⟩ := hws
  cases h with
  | free hfree =>
    -- in a group the word goes to its body, and outside it is a phrase of its own
    cases opened with
    | none =>
      refine ⟨.plain word :: phrases, List.forall_mem_cons.2 ⟨hfree, hphrases⟩, ?_⟩
      rw [hws]
      rfl
    | some offset =>
      obtain ⟨body, hbody, rfl⟩ := hws
      exact ⟨phrases, hphrases, word :: body, List.forall_mem_cons.2 ⟨hfree, hbody⟩, rfl⟩
  | @opening front offset hfree =>
    obtain ⟨body, hbody, rfl⟩ := hws
    refine ⟨.group front body :: phrases, List.forall_mem_cons.2 ⟨⟨hfree, hbody⟩, hphrases⟩, ?_⟩
    rw [List.flatMap_cons, Phrase.words, List.cons_append, List.append_assoc]
    rfl
  | closing =>
    refine ⟨phrases, hphrases, [], List.forall_mem_nil _, ?_⟩
    rw [hws]
    rfl

/-- The words of a text that the check walks through, when it ends with no parenthesis open. -/
theorem closes_of_run {p q : Place} (h : Text.Spaced ws text)
    (hwords : ∀ w ∈ ws, ∀ c ∈ w, Text.isBlank c = false) (hrun : p.run text = .ok q)
    (hq : q.opened = none) : Closes p.opened ws := by
  -- at the end the run stands at `q`, where no group is open
  have hend {p : Place} (hrun : p.run [] = .ok q) : Closes p.opened [] := by
    rw [Except.ok.inj hrun, hq]
    exact closes_nil
  induction h generalizing p with
  | nothing => exact hend hrun
  | blank hc _ ih =>
    obtain ⟨p', hrun, hopened⟩ := Place.run_blank hc hrun
    rw [← hopened]
    exact ih hwords hrun
  | last w =>
    rw [List.forall_mem_singleton] at hwords
    rw [← List.append_nil w] at hrun
    obtain ⟨p', hrun, hpasses, -⟩ := Place.passes_of_run hwords hrun
    exact (hend hrun).cons hpasses
  | word w hc _ ih =>
    rw [List.forall_mem_cons] at hwords
    obtain ⟨p', hrun, hpasses, -⟩ := Place.passes_of_run hwords.1 hrun
    obtain ⟨p'', hrun, hopened⟩ := Place.run_blank hc hrun
    refine Closes.cons hpasses ?_
    rw [← hopened]
    exact ih hwords.2 hrun

/-- A text that passes the check is run through to its end, with all groups closed. -/
theorem run_of_checkChars (h : checkChars text = .ok ()) :
    ∃ last : Place, Place.start.run text = .ok last ∧ last.opened = none := by
  cases text with
  | nil => cases h
  | cons first rest =>
    rw [checkChars] at h
    split at h
    · cases h
    · obtain ⟨last, hrun, hlast⟩ := bind_eq_ok_iff.1 h
      refine ⟨last, hrun, ?_⟩
      -- what is left open at the end is an error of its own
      split at hlast
      · cases hlast
      · assumption

/-- The words of a text that passes the check are those of a tree. -/
theorem exists_phrases (h : checkChars text = .ok ()) :
    ∃ phrases : List Phrase, (∀ p ∈ phrases, p.Bracketed) ∧
      Text.words text = phrases.flatMap Phrase.words := by
  obtain ⟨hspaced, hwords⟩ := Text.spaced_words text
  obtain ⟨last, hrun, hlast⟩ := run_of_checkChars h
  exact closes_of_run hspaced (fun w hw => (hwords w hw).2) hrun hlast

/-! ## The reader over a tree -/

/-- The length in front of a parenthesis is that of the group, with the same errors. -/
theorem activeLength_append (front : List Char) :
    activeLength (front ++ ['(']) = groupLength front := by
  rw [activeLength, subdivision, groupLength, List.dropLast_concat]
  -- no number, zero, a number that fits, and one that does not
  cases Decimal.digits? front with
  | none => rfl
  | some n =>
    by_cases hzero : n = 0
    · simp only [if_pos hzero]
    · by_cases hlt : n < UInt32.size
      · simp only [if_neg hzero, if_pos hlt, subdivided]
      · simp only [if_neg hzero, if_neg hlt]

/-- A word without parentheses neither opens nor closes a group. -/
theorem ofWord_of_isFree (h : IsFree word) :
    Token.ofWord word =
      if word = ['-'] then .extension else if word = ['.'] then .rest else .chord word := by
  have hopening : word.getLast? ≠ some '(' := fun hlast => h.1 (List.mem_of_getLast? hlast)
  have hclosing : word ≠ [')'] := by
    rintro rfl
    exact h.2 List.mem_cons_self
  rw [Token.ofWord, if_neg hopening, if_neg hclosing]

namespace State

variable (position : Nat) (chords : List Chord)

/-- The reader over a word that is no parenthesis: it keeps the length that is active. -/
theorem step_of_isFree (h : IsFree word) (active : Float) :
    step ⟨chords.reverse, active⟩ position word =
      (soundWord active position chords word).map fun chords => ⟨chords.reverse, active⟩ := by
  rw [step, ofWord_of_isFree h, soundWord]
  by_cases hextension : word = ['-']
  · rw [if_pos hextension, if_pos hextension]
    -- a line extends the last chord, if there is one
    rcases List.eq_nil_or_concat chords with rfl | ⟨before, last, rfl⟩
    · rfl
    · simp only [List.concat_eq_append, List.reverse_append, List.reverse_singleton,
        List.singleton_append, List.getLast?_concat, List.dropLast_concat, Except.map]
  · rw [if_neg hextension, if_neg hextension]
    by_cases hrest : word = ['.']
    · simp only [if_pos hrest, Except.map, List.reverse_append, List.reverse_singleton,
        List.singleton_append]
    · rw [if_neg hrest, if_neg hrest]
      dsimp only
      cases chordPitches word with
      | error fault => rfl
      | ok pitches =>
        show _ = Except.ok (State.mk (chords ++ [_]).reverse active)
        rw [List.reverse_append]
        rfl

/-- The reader over the words in a group. -/
theorem run_body {body : List (List Char)} (h : ∀ word ∈ body, IsFree word) (active : Float)
    (rest : List (List Char)) :
    run ⟨chords.reverse, active⟩ position (body ++ rest) =
      soundWords active position chords body >>= fun chords =>
        run ⟨chords.reverse, active⟩ (position + body.length) rest := by
  induction body generalizing position chords with
  | nil => rfl
  | cons word body ih =>
    rw [List.forall_mem_cons] at h
    -- the chords so far are carried along, in the order of the text
    rw [List.cons_append, run, step_of_isFree _ _ h.1, soundWords, List.length_cons,
      Nat.add_comm body.length 1, ← Nat.add_assoc]
    cases soundWord active position chords word with
    | error fault => rfl
    | ok chords => exact ih _ _ h.2

/-- The reader over the words of a phrase. Behind it the length is the default one again. -/
theorem run_phrase {phrase : Phrase} (h : phrase.Bracketed) (rest : List (List Char)) :
    run ⟨chords.reverse, defaultLength⟩ position (phrase.words ++ rest) =
      phrase.sound position chords >>= fun chords =>
        run ⟨chords.reverse, defaultLength⟩ (position + phrase.words.length) rest := by
  cases phrase with
  -- outside a group a word has the default length
  | plain word =>
    rw [Phrase.words, List.singleton_append, run, step_of_isFree _ _ h, Phrase.sound]
    cases soundWord defaultLength position chords word with
    | error fault => rfl
    | ok chords => rfl
  -- the opening word sets the length, and the words of the body have it
  | group front body =>
    rw [Phrase.words, List.cons_append, List.append_assoc, run, step, ofWord_append]
    dsimp only
    rw [activeLength_append, Phrase.sound]
    cases groupLength front with
    | error fault => rfl
    | ok length =>
      -- the closing word takes the length back
      have hposition : position + (Phrase.group front body).words.length =
          position + 1 + body.length + 1 := by
        rw [Phrase.words, List.length_cons, List.length_append, List.length_singleton]
        omega
      show run ⟨chords.reverse, length⟩ (position + 1) (body ++ ([')'] :: rest)) =
        soundWords length (position + 1) chords body >>= fun chords =>
          run ⟨chords.reverse, defaultLength⟩ (position + (Phrase.group front body).words.length) rest
      rw [run_body _ _ h.2, hposition]
      rfl

/-- The reader over the words of a tree. -/
theorem run_phrases {phrases : List Phrase} (h : ∀ p ∈ phrases, p.Bracketed) :
    run ⟨chords.reverse, defaultLength⟩ position (phrases.flatMap Phrase.words) =
      (soundPhrases position chords phrases).map fun chords => ⟨chords.reverse, defaultLength⟩ := by
  -- phrase by phrase, with the chords sounded so far kept in reverse
  induction phrases generalizing position chords with
  | nil => rfl
  | cons phrase rest ih =>
    rw [List.forall_mem_cons] at h
    rw [List.flatMap_cons, run_phrase _ _ h.1, soundPhrases]
    cases phrase.sound position chords with
    | error fault => rfl
    | ok chords => exact ih _ _ h.2

end State

/-- **On checked text the reader sounds a tree.** The words are phrases, with no group in another, and
whatever tree they are the words of, the chords or the error are those of its phrases from left to right. -/
theorem parse_of_check {text : String} (h : check text = .ok ()) :
    (∃ phrases : List Phrase, (∀ p ∈ phrases, p.Bracketed) ∧
      Text.words text.toList = phrases.flatMap Phrase.words) ∧
    ∀ phrases : List Phrase, (∀ p ∈ phrases, p.Bracketed) →
      Text.words text.toList = phrases.flatMap Phrase.words →
      parse text = soundPhrases 0 [] phrases := by
  refine ⟨exists_phrases h, ?_⟩
  intro phrases hphrases hwords
  rw [parse, parseChars, hwords]
  have hrun := State.run_phrases 0 [] hphrases
  rw [List.reverse_nil] at hrun
  rw [State.start, hrun]
  -- the evaluator keeps the chords in reverse, which the end turns around
  cases soundPhrases 0 [] phrases with
  | error fault => rfl
  | ok chords => exact congrArg Except.ok (List.reverse_reverse chords)

/-- Two groups, and a chord that is held on behind the first and into the second. -/
def bordered : List Phrase :=
  [.group ['4'] [['C'], ['E']], .plain ['-'], .group ['8'] [['-'], "G/B".toList], .plain ['.']]

/-- Groups at both ends and lines across their borders. -/
theorem parse_bordered :
    check "4( C E ) - 8( - G/B ) ." = .ok () ∧
    parse "4( C E ) - 8( - G/B ) ." = soundPhrases 0 [] bordered ∧
    soundPhrases 0 [] bordered =
      .ok [⟨[⟨.c, 0, 0⟩], .ofFloat 1⟩, ⟨[⟨.e, 0, 0⟩], .ofFloat 2.5⟩,
        ⟨[⟨.g, 0, 0⟩, ⟨.b, 0, 0⟩], .ofFloat 0.5⟩, ⟨[], .ofFloat 1⟩] := by
  have hcheck : check "4( C E ) - 8( - G/B ) ." = .ok () := by decide +kernel
  refine ⟨hcheck, (parse_of_check hcheck).2 bordered (by decide) (by decide +kernel), ?_⟩
  decide +kernel

end Melody.Notation
