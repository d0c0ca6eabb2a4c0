import Melody.Proofs.Notation.Groups
import Melody.Proofs.Notation.Steps

/-!
# Words of a checked text

The reader passes over what it does not know in a pitch, and the check is there to keep such characters
out. Each of its rules looks at one character and the next, so that not all of them are: a digit, a dot or a
hyphen may still end a chord word, and a letter behind the first of its piece may stand between slashes.
Nothing else is left over.

## The architecture

* **`isPitchText`** is the written form of one pitch, and **`isLoosePitch`** that form with what may be left
  over. **`IsChordWord`** is what a chord word is in a checked text.
* **`Place.legal_of_run`** and **`Place.isChain_of_run`**: the rules of the check along a text.
* **`isLoosePitch_of_parseChars`** follows the reader over one piece.
* **`words_of_check`** is about all words, and about what the reader makes of each.
-/

namespace Melody.Notation

open Outcome

/-! ## Written forms -/

def isAccidental (c : Char) : Bool := c == '#' || c == 'b'

/-- An octave as it is written behind a pitch: nothing, or a marker with digits. -/
def isOctaveText : List Char → Bool
  | [] => true
  | mark :: ds => (mark == '^' || mark == '_') && (Decimal.digits? ds).isSome

/-- A letter, a run of characters of one kind, and an end. -/
def isPitchForm (inner : Char → Bool) (isEnd : List Char → Bool) : List Char → Bool
  | [] => false
  | c :: rest => Letter.isLetter c && isEnd (rest.dropWhile inner)

/-- The written form of one pitch, from the first character to the last. -/
def isPitchText : List Char → Bool := isPitchForm isAccidental isOctaveText

/-- The characters that the check allows at the end of a word only. -/
def isFinal (c : Char) : Bool := Decimal.isDigit c || c == '.' || c == '-'

/-- Accidentals and, between slashes, letters. -/
def isInner (slashed : Bool) (c : Char) : Bool := isAccidental c || (slashed && Letter.isLetter c)

/-- An octave, or a final character that is left over. -/
def isLooseEnd : List Char → Bool
  | [c] => isFinal c
  | octave => isOctaveText octave

/-- The form of a pitch with what may be left over in a checked text. -/
def isLoosePitch (slashed : Bool) : List Char → Bool := isPitchForm (isInner slashed) isLooseEnd

def isOpeningWord (word : List Char) : Bool :=
  word.getLast? == some '(' && (Decimal.digits? word.dropLast).isSome

/-- The words that are no chords. -/
def isPlainWord (word : List Char) : Bool :=
  isOpeningWord word || word == [')'] || word == ['.'] || word == ['-']

/-- A chord word of a checked text that is read. -/
structure IsChordWord (word : List Char) : Prop where
  final : word.IsChain fun c _ => isFinal c = false
  pieces : ∀ piece ∈ chordPieces word, isLoosePitch (decide ('/' ∈ word)) piece = true
  /-- Every piece is a pitch of the chord. -/
  pitches : ∃ ps, chordPitches word = .ok ps ∧ ps.length = (chordPieces word).length
  /-- Without slashes, so is every letter. -/
  letters : '/' ∉ word → (chordPieces word).length = word.countP Letter.isLetter

/-! ## The rules of the check -/

theorem not_isLetter_of_isDigit {c : Char} (h : Decimal.isDigit c = true) : Letter.isLetter c = false := by
  apply Pitch.isLetter_of_isMark
  rw [Pitch.isMark, h, Bool.or_true]

theorem not_isLetter_of_isBlank {c : Char} (h : Text.isBlank c = true) : Letter.isLetter c = false := by
  rw [Letter.isLetter]
  cases hletter : Letter.ofChar? c with
  | none => rfl
  | some l =>
    rw [← Letter.toChar_of_ofChar? hletter, (Pitch.toChar_apart l).2.1] at h
    cases h

namespace Place

variable {p q : Place} {c : Char} {next : Option Char} {opened : Option Nat} {text : List Char}

/-- Whatever its rule is, a character that is accepted is legal. -/
theorem isLegal_of_judge (h : p.judge c next = .ok opened) : isLegal c = true := by
  rw [judge] at h
  split at h
  · cases h
  · next hlegal => rwa [Bool.not_eq_true', Bool.not_eq_false] at hlegal

/-- Behind a character that ends its word stands a gap or, behind digits, an opening parenthesis. -/
theorem next_of_isFinal (hc : isFinal c = true) (h : p.judge c next = .ok opened) :
    isGap next = true ∨ next = some '(' := by
  have hne (mark : Char) (hmark : isFinal mark = false) : c ≠ mark := by
    intro heq
    rw [heq, hmark] at hc
    cases hc
  rw [judge, isLegal_of_judge h, Bool.not_true, if_neg Bool.false_ne_true,
    if_neg (hne '(' (by decide)), if_neg (hne ')' (by decide)), if_neg (hne '/' (by decide))] at h
  -- a rest or an extension must end its word; a digit may open a group as well
  by_cases hpoint : c = '.' ∨ c = '-'
  · rw [if_pos hpoint, ite_eq_ok_iff] at h
    exact .inl h.1
  · have hdigit : Decimal.isDigit c = true := by
      rw [isFinal, Bool.or_assoc, Bool.or_eq_true, Bool.or_eq_true, beq_iff_eq, beq_iff_eq] at hc
      exact hc.resolve_right hpoint
    rw [if_neg hpoint, if_pos hdigit, ite_eq_ok_iff, Bool.or_eq_true, beq_iff_eq] at h
    exact h.1

/-- A text that is run through has legal characters only. Induction over the text, one step of the run at a
time. -/
theorem legal_of_run (h : p.run text = .ok q) : ∀ c ∈ text, isLegal c = true := by
  induction text generalizing p with
  | nil => exact List.forall_mem_nil _
  | cons c rest ih =>
    obtain ⟨p', hstep, hrun⟩ := run_cons_eq_ok_iff.1 h
    obtain ⟨opened, hjudge, -⟩ := step_eq_ok_iff.1 hstep
    exact List.forall_mem_cons.2 ⟨isLegal_of_judge hjudge, ih hrun⟩

/-- And everywhere in it the characters that end a word are followed as they should be. -/
theorem isChain_of_run (h : p.run text = .ok q) :
    text.IsChain fun c next => isFinal c = true → next = ' ' ∨ next = '(' := by
  induction text generalizing p with
  | nil => exact List.isChain_nil
  | cons c rest ih =>
    obtain ⟨p', hstep, hrun⟩ := run_cons_eq_ok_iff.1 h
    obtain ⟨opened, hjudge, -⟩ := step_eq_ok_iff.1 hstep
    -- each step has judged one character by the next
    refine List.IsChain.cons (ih hrun) ?_
    intro d hd hc
    have hnext := next_of_isFinal hc hjudge
    rw [hd, isGap, Option.all_some, beq_iff_eq, Option.some.injEq] at hnext
    exact hnext

end Place

variable {text word piece : List Char}

/-- A word of a checked text has no parentheses, or opens a group, or closes one. -/
theorem isFree_or_of_check (h : checkChars text = .ok ()) (hword : word ∈ Text.words text) :
    IsFree word ∨ word.getLast? = some '(' ∨ word = [')'] := by
  obtain ⟨phrases, hphrases, hwords⟩ := exists_phrases h
  rw [hwords, List.mem_flatMap] at hword
  obtain ⟨phrase, hphrase, hword⟩ := hword
  have hbracketed := hphrases phrase hphrase
  -- a word of checked text is plain, opens a group, stands in one, or closes it
  cases phrase with
  | plain w =>
    rw [List.mem_singleton.1 hword]
    exact .inl hbracketed
  | group front body =>
    rw [Phrase.words, List.mem_cons, List.mem_append, List.mem_singleton] at hword
    rcases hword with rfl | hbody | rfl
    · exact .inr (.inl List.getLast?_concat)
    · exact .inl (hbracketed.2 word hbody)
    · exact .inr (.inr rfl)

/-- The characters of a word are legal, and in a word without parentheses the final ones are last. -/
theorem final_of_check (h : checkChars text = .ok ()) (hword : word ∈ Text.words text)
    (hfree : IsFree word) :
    (∀ c ∈ word, isLegal c = true ∧ c ≠ ' ') ∧ word.IsChain fun c _ => isFinal c = false := by
  obtain ⟨last, hrun, -⟩ := run_of_checkChars h
  obtain ⟨hstretch, hblank⟩ := Text.isInfix_of_mem_fields hword
  have hspace : ∀ c ∈ word, c ≠ ' ' := by
    rintro c hc rfl
    exact absurd (hblank ' ' hc) (by decide)
  refine ⟨fun c hc => ⟨Place.legal_of_run hrun c (hstretch.subset hc), hspace c hc⟩, ?_⟩
  -- what may follow a final character in the text does not stand in a word of this kind
  have hchain : word.IsChain fun c next => isFinal c = true → next = ' ' ∨ next = '(' :=
    List.IsChain.infix (Place.isChain_of_run hrun) hstretch
  refine hchain.imp_of_mem_imp ?_
  intro c d _ hd hnext
  refine eq_false_of_ne_true fun hc => ?_
  rcases hnext hc with rfl | rfl
  · exact hspace ' ' hd rfl
  · exact hfree.1 hd

/-! ## Pieces of a chord word -/

theorem isInfix_of_mem_chordPieces (h : piece ∈ chordPieces word) : piece <:+: word := by
  rw [chordPieces] at h
  split at h
  · exact (Text.isInfix_of_mem_fields h).1
  · have hflatten := List.infix_of_mem_flatten h
    rw [Text.flatten_groupsFrom] at hflatten
    exact hflatten

theorem not_slash_of_mem_chordPieces (h : piece ∈ chordPieces word) : '/' ∉ piece := by
  by_cases hslash : '/' ∈ word
  · rw [chordPieces, if_pos hslash] at h
    intro hmem
    exact absurd ((Text.isInfix_of_mem_fields h).2 '/' hmem) (by decide)
  · exact fun hmem => hslash ((isInfix_of_mem_chordPieces h).subset hmem)

/-- Only between slashes there are letters behind the first character of a piece. -/
theorem slashed_of_isLetter {c : Char} {rest : List Char} (h : c :: rest ∈ chordPieces word) :
    ∀ d ∈ rest, Letter.isLetter d = true → '/' ∈ word := by
  intro d hd hletter
  by_contra hslash
  rw [chordPieces, if_neg hslash] at h
  rw [Text.not_opens_of_mem_groupsFrom h d hd] at hletter
  cases hletter

theorem isLegal_cases {c : Char} (h : isLegal c = true) (hspace : c ≠ ' ') (hopen : c ≠ '(')
    (hclose : c ≠ ')') (hslash : c ≠ '/') :
    isAccidental c = true ∨ Letter.isLetter c = true ∨ c = '^' ∨ c = '_' ∨ isFinal c = true := by
  simp only [isLegal, Bool.or_eq_true, beq_iff_eq] at h
  simp only [isAccidental, isFinal, Bool.or_eq_true, beq_iff_eq]
  tauto

/-- What is no octave sign is passed over, with or without effect. -/
theorem marks_cons_of_ne {c : Char} {rest : List Char} {accidental : Int32} {result : Int32 × Int32}
    (hup : c ≠ '^') (hdown : c ≠ '_') (h : Pitch.marks accidental (c :: rest) = .ok result) :
    ∃ accidental', Pitch.marks accidental' rest = .ok result := by
  rw [Pitch.marks] at h
  split at h
  · exact ⟨_, h⟩
  · rw [if_neg hup, if_neg hdown] at h
    exact ⟨_, h⟩

/-- Behind an octave marker that is read there are digits, and so in a checked text there is one. -/
theorem isLooseEnd_of_marks {c : Char} {rest : List Char} {accidental : Int32}
    {result : Int32 × Int32} (hc : c = '^' ∨ c = '_')
    (hfinal : rest.IsChain fun c _ => isFinal c = false)
    (h : Pitch.marks accidental (c :: rest) = .ok result) : isLooseEnd (c :: rest) = true := by
  -- the sign is read with its octave, or not at all
  have hoctave : ∃ octave, Pitch.markedOctave rest = .ok octave := by
    cases hmarked : Pitch.markedOctave rest with
    | ok octave => exact ⟨octave, rfl⟩
    | error fault =>
      rw [Pitch.marks] at h
      rcases hc with rfl | rfl
      · rw [hmarked] at h
        cases h
      · rw [hmarked] at h
        cases h
  obtain ⟨octave, hoctave⟩ := hoctave
  cases rest with
  | nil => cases hoctave
  | cons d rest =>
    have hdigit : Decimal.isDigit d = true := by
      by_contra hd
      rw [Pitch.markedOctave, Decimal.span, List.takeWhile_cons_of_neg hd] at hoctave
      cases hoctave
    -- the digit is final, so the piece ends with it
    cases rest with
    | cons e rest =>
      rw [List.isChain_cons_cons, isFinal, hdigit] at hfinal
      cases hfinal.1
    | nil =>
      have hdigits : (Decimal.digits? [d]).isSome = true := by
        rw [Decimal.digits?, List.all_cons, hdigit]
        rfl
      rw [isLooseEnd, isOctaveText, hdigits]
      · rcases hc with rfl | rfl
        · rfl
        · rfl
      · intro e hsingle
        cases hsingle

/-- What is behind the letter of a piece that is read. -/
theorem isLooseEnd_of_isInner {slashed : Bool} {rest : List Char} {accidental : Int32}
    {result : Int32 × Int32}
    (hkind : ∀ c ∈ rest, isInner slashed c = true ∨ (c = '^' ∨ c = '_') ∨ isFinal c = true)
    (hfinal : rest.IsChain fun c _ => isFinal c = false)
    (h : Pitch.marks accidental rest = .ok result) :
    isLooseEnd (rest.dropWhile (isInner slashed)) = true := by
  induction rest generalizing accidental with
  | nil => rfl
  | cons c rest ih =>
    rw [List.forall_mem_cons] at hkind
    by_cases hinner : isInner slashed c = true
    · -- the reader goes on behind the character, too
      have hmarker {mark : Char} (hmark : isAccidental mark = false ∧ Letter.isLetter mark = false) :
          c ≠ mark := by
        rintro rfl
        rw [isInner, hmark.1, hmark.2, Bool.and_false] at hinner
        cases hinner
      obtain ⟨accidental', hrest⟩ := marks_cons_of_ne (hmarker (by decide)) (hmarker (by decide)) h
      rw [List.dropWhile_cons_of_pos hinner]
      exact ih hkind.2 hfinal.tail hrest
    · rw [List.dropWhile_cons_of_neg hinner]
      -- the first character that is not passed over is an octave sign or the last of the piece
      rcases hkind.1 with hpassed | hmarker | hlast
      · exact absurd hpassed hinner
      · exact isLooseEnd_of_marks hmarker hfinal.tail h
      · cases rest with
        | nil => exact hlast
        | cons d rest =>
          rw [List.isChain_cons_cons, hlast] at hfinal
          cases hfinal.1

/-- A piece that is read as a pitch has the form of one, up to characters that the reader passes over. -/
theorem isLoosePitch_of_parseChars {p : Pitch} (hpiece : piece ∈ chordPieces word)
    (hlegal : ∀ c ∈ word, isLegal c = true ∧ c ≠ ' ') (hfree : IsFree word)
    (hfinal : word.IsChain fun c _ => isFinal c = false) (h : Pitch.parseChars piece = .ok p) :
    isLoosePitch (decide ('/' ∈ word)) piece = true ∧
      ∃ c rest, piece = c :: rest ∧ Letter.isLetter c = true := by
  have hstretch := isInfix_of_mem_chordPieces hpiece
  cases piece with
  | nil => cases h
  | cons c rest =>
    rw [Pitch.parseChars] at h
    split at h
    · cases h
    next letter hletter =>
    have hc : Letter.isLetter c = true := by
      rw [Letter.isLetter, hletter]
      rfl
    refine ⟨?_, c, rest, rfl, hc⟩
    split at h
    · cases h
    next accidental octave hmarks =>
    rw [isLoosePitch, isPitchForm, hc, Bool.true_and]
    have hrest : rest.IsChain fun c _ => isFinal c = false :=
      List.IsChain.infix hfinal ((List.suffix_cons c rest).isInfix.trans hstretch)
    refine isLooseEnd_of_isInner ?_ hrest hmarks
    intro d hd
    have hmem : d ∈ word := hstretch.subset (List.mem_cons_of_mem c hd)
    -- slashes and parentheses are not in a piece of this word, which leaves few kinds of characters
    have hslash : d ≠ '/' := by
      rintro rfl
      exact not_slash_of_mem_chordPieces hpiece (List.mem_cons_of_mem c hd)
    have hopen : d ≠ '(' := by
      rintro rfl
      exact hfree.1 hmem
    have hclose : d ≠ ')' := by
      rintro rfl
      exact hfree.2 hmem
    rcases isLegal_cases (hlegal d hmem).1 (hlegal d hmem).2 hopen hclose hslash with
      haccidental | hinner | hup | hdown | hlast
    · rw [isInner, haccidental]
      exact .inl rfl
    · rw [isInner, decide_eq_true (slashed_of_isLetter hpiece d hd hinner), hinner, Bool.and_true, Bool.or_true]
      exact .inl rfl
    · exact .inr (.inl (.inl hup))
    · exact .inr (.inl (.inr hdown))
    · exact .inr (.inr hlast)

/-! ## Words of a checked text -/

/-- The pitches of a word are read piece by piece, and there is one at least. -/
theorem mapM_of_chordPitches {ps : List Pitch} (h : chordPitches word = .ok ps) :
    (chordPieces word).mapM Pitch.parseChars = .ok ps ∧ ps ≠ [] := by
  rw [chordPitches] at h
  split at h
  · cases h
  · next hne =>
    refine ⟨h, ?_⟩
    rintro rfl
    exact hne (List.forall₂_nil_right_iff.1 (mapM_eq_ok_iff.1 h))

/-- A word that is read as a chord is made of such pieces. -/
theorem isChordWord_of_chordPitches {ps : List Pitch} (hcheck : checkChars text = .ok ())
    (hword : word ∈ Text.words text) (hfree : IsFree word) (h : chordPitches word = .ok ps) :
    IsChordWord word := by
  obtain ⟨hlegal, hfinal⟩ := final_of_check hcheck hword hfree
  have hmapM := (mapM_of_chordPitches h).1
  have hpiece : ∀ piece ∈ chordPieces word, isLoosePitch (decide ('/' ∈ word)) piece = true ∧
      ∃ c rest, piece = c :: rest ∧ Letter.isLetter c = true := by
    intro piece hpiece
    obtain ⟨p, hp⟩ := exists_eq_ok_of_mem hmapM hpiece
    exact isLoosePitch_of_parseChars hpiece hlegal hfree hfinal hp
  refine ⟨hfinal, fun piece hmem => (hpiece piece hmem).1, ⟨ps, h, ?_⟩, ?_⟩
  · exact (mapM_eq_ok_iff.1 hmapM).length_eq.symm
  · intro hslash
    rw [chordPieces, if_neg hslash] at hpiece ⊢
    -- each piece opens with its letter and holds no other, so the letters count the pieces
    apply Text.length_groupsFrom
    intro piece hmem
    obtain ⟨-, c, rest, rfl, hc⟩ := hpiece piece hmem
    exact ⟨c, rest, rfl, hc, Text.not_opens_of_mem_groupsFrom hmem⟩

/-- A length is read from digits in front of the parenthesis. -/
theorem isOpeningWord_of_activeLength {length : Float} (hlast : word.getLast? = some '(')
    (h : activeLength word = .ok length) : isOpeningWord word = true := by
  rw [isOpeningWord, hlast]
  cases hdigits : Decimal.digits? word.dropLast with
  | some n => rfl
  | none =>
    rw [activeLength, subdivision, hdigits] at h
    cases h

/-- Words other than chords have no letters. -/
theorem countP_of_isPlainWord (h : isPlainWord word = true) : word.countP Letter.isLetter = 0 := by
  rw [isPlainWord, Bool.or_eq_true, Bool.or_eq_true, Bool.or_eq_true, beq_iff_eq, beq_iff_eq,
    beq_iff_eq] at h
  rcases h with ((hopening | rfl) | rfl) | rfl
  · rw [isOpeningWord, Bool.and_eq_true, beq_iff_eq] at hopening
    obtain ⟨front, rfl⟩ := List.getLast?_eq_some_iff.1 hopening.1
    -- in front of the parenthesis stand digits only
    have hdigits : ∀ c ∈ front, Decimal.isDigit c = true := by
      have hsome := hopening.2
      rw [List.dropLast_concat, Decimal.digits?] at hsome
      split at hsome
      · cases hsome
      · next hall =>
        rw [Bool.or_eq_true, not_or, Bool.not_eq_true', Bool.not_eq_false, List.all_eq_true] at hall
        exact hall.2
    rw [List.countP_append, List.countP_eq_zero.2]
    · rfl
    · intro c hc
      rw [not_isLetter_of_isDigit (hdigits c hc)]
      exact Bool.false_ne_true
  · rfl
  · rfl
  · rfl

theorem isFree_of_ofWord (hcheck : checkChars text = .ok ()) (hword : word ∈ Text.words text)
    (h : Token.ofWord word = .chord word) : IsFree word := by
  rcases isFree_or_of_check hcheck hword with hfree | hlast | rfl
  · exact hfree
  · rw [Token.ofWord, if_pos hlast] at h
    cases h
  · cases h

/-- Each step of the parser reads a word of one of the five kinds. -/
theorem State.Steps.isWord {s s' : State} (hcheck : checkChars text = .ok ())
    (hword : word ∈ Text.words text) (h : s.Steps word s') :
    isPlainWord word = true ∨ IsChordWord word := by
  -- every kind of step but a chord names its word outright
  cases h with
  | opening hlast hlength =>
    rw [isPlainWord, isOpeningWord_of_activeLength hlast hlength]
    exact .inl rfl
  | closing hclosing =>
    rw [hclosing]
    exact .inl rfl
  | extension hextension _ =>
    rw [hextension]
    exact .inl rfl
  | rest hrest =>
    rw [hrest]
    exact .inl rfl
  | chord hchord hpitches =>
    exact .inr (isChordWord_of_chordPitches hcheck hword (isFree_of_ofWord hcheck hword hchord) hpitches)

/-! ## Counting -/

/-- Characters of a kind that no blank is of are counted word by word. -/
theorem countP_of_spaced {q : Char → Bool} {words : List (List Char)}
    (hq : ∀ c, Text.isBlank c = true → q c = false) (h : Text.Spaced words text) :
    text.countP q = (words.map (·.countP q)).sum := by
  -- the blanks between the words do not count
  induction h with
  | nothing => rfl
  | blank hc _ ih =>
    rw [List.countP_cons_of_neg (by rw [hq _ hc]; exact Bool.false_ne_true)]
    exact ih
  | last w =>
    rw [List.map_singleton, List.sum_singleton]
  | word w hc _ ih =>
    rw [List.countP_append, List.countP_cons_of_neg (by rw [hq _ hc]; exact Bool.false_ne_true), ih,
      List.map_cons, List.sum_cons]

/-- Without slashes, a step adds a pitch for every letter. -/
theorem State.Steps.letters {s s' : State} (hcheck : checkChars text = .ok ())
    (hword : word ∈ Text.words text) (hslash : '/' ∉ word) (h : s.Steps word s') :
    (s'.sounded.map Chord.size).sum = (s.sounded.map Chord.size).sum + word.countP Letter.isLetter := by
  cases h with
  | opening hlast hlength =>
    rw [countP_of_isPlainWord]
    · rfl
    · rw [isPlainWord, isOpeningWord_of_activeLength hlast hlength]
      rfl
  | closing hclosing =>
    rw [hclosing]
    rfl
  | extension hextension hsounded =>
    rw [hextension, hsounded]
    rfl
  | rest hrest =>
    rw [hrest, List.map_cons, List.sum_cons, Nat.add_comm]
    rfl
  -- each pitch of the chord has its own letter
  | @chord pitches hchord hpitches =>
    have hchordWord :=
      isChordWord_of_chordPitches hcheck hword (isFree_of_ofWord hcheck hword hchord) hpitches
    have hlength := (mapM_eq_ok_iff.1 (mapM_of_chordPitches hpitches).1).length_eq
    rw [List.map_cons, List.sum_cons, ← hchordWord.letters hslash, hlength, Nat.add_comm]
    rfl

/-- A step adds a rest for a dot, and for no other word. -/
theorem State.Steps.rests {s s' : State} (h : s.Steps word s') :
    s'.sounded.countP Chord.isRest = s.sounded.countP Chord.isRest + [word].count ['.'] := by
  cases h with
  | opening hlast _ =>
    have hne : word ≠ ['.'] := by
      rintro rfl
      cases hlast
    rw [List.count_singleton, beq_false_of_ne hne]
    rfl
  | closing hclosing =>
    rw [hclosing]
    rfl
  | extension hextension hsounded =>
    rw [hextension, hsounded]
    rfl
  | rest hrest =>
    rw [hrest]
    exact List.countP_cons_of_pos rfl
  -- a chord that is read has a pitch, and so is no rest
  | @chord pitches hchord hpitches =>
    have hne : word ≠ ['.'] := by
      rintro rfl
      cases hchord
    have hsounds : ¬ Chord.isRest ⟨pitches, .ofFloat s.active⟩ = true := by
      rw [Chord.isRest, beq_iff_eq]
      exact mt List.length_eq_zero_iff.1 (mapM_of_chordPitches hpitches).2
    rw [List.countP_cons_of_neg hsounds, List.count_singleton, beq_false_of_ne hne]
    rfl

/-- **What a checked text is read from.** Every word is an opening, a closing, a rest, an extension or a chord
word; the reader takes the step of its kind at each; without slashes there is a pitch for every letter; and
there is a rest for every dot. -/
theorem words_of_check {text : String} {chords : List Chord} (hcheck : check text = .ok ())
    (hparse : parse text = .ok chords) :
    (∀ word ∈ Text.words text.toList, isPlainWord word = true ∨ IsChordWord word) ∧
    (∀ before word after, Text.words text.toList = before ++ word :: after →
      ∃ s s' last : State, State.start.run 0 before = .ok s ∧ s.Steps word s' ∧
        s'.run (before.length + 1) after = .ok last ∧ chords = last.sounded.reverse) ∧
    ('/' ∉ text.toList → (chords.map Chord.size).sum = text.toList.countP Letter.isLetter) ∧
    chords.countP Chord.isRest = (Text.words text.toList).count ['.'] := by
  obtain ⟨last, hrun, hchords⟩ := bind_eq_ok_iff.1 hparse
  obtain rfl := pure_eq_ok_iff.1 hchords
  -- every word is read by one step of the run
  have hsteps (before : List (List Char)) (word : List Char) (after : List (List Char))
      (hwords : Text.words text.toList = before ++ word :: after) :
      ∃ s s' : State, State.start.run 0 before = .ok s ∧ s.Steps word s' ∧
        s'.run (before.length + 1) after = .ok last := by
    rw [hwords] at hrun
    obtain ⟨s, s', hbefore, hword, hafter⟩ := State.exists_steps_of_run hrun
    rw [Nat.zero_add] at hafter
    exact ⟨s, s', hbefore, hword, hafter⟩
  refine ⟨?_, ?_, ?_, ?_⟩
  · intro word hword
    obtain ⟨before, after, hwords⟩ := List.append_of_mem hword
    obtain ⟨s, s', -, hstep, -⟩ := hsteps before word after hwords
    exact hstep.isWord hcheck hword
  · intro before word after hwords
    obtain ⟨s, s', hbefore, hstep, hafter⟩ := hsteps before word after hwords
    exact ⟨s, s', last, hbefore, hstep, hafter, rfl⟩
  · intro hslash
    -- blanks aside, the letters of the text are those of its words
    have hadd := State.add_of_run (fun word hword s s' hstep =>
      hstep.letters hcheck hword fun hmem => hslash ((Text.isInfix_of_mem_fields hword).1.subset hmem))
      hrun
    rw [countP_of_spaced (fun c => not_isLetter_of_isBlank) (Text.spaced_words _).1, List.map_reverse, List.sum_reverse, hadd]
    exact Nat.zero_add _
  · have hadd := State.add_of_run (fun word _ s s' hstep => hstep.rests) hrun
    rw [List.countP_reverse, hadd, ← List.flatMap_singleton' (Text.words text.toList),
      List.count_flatMap, List.flatMap_singleton']
    exact Nat.zero_add _

/-- A chord in a group that is held on, a rest, and a digit that is left over. -/
theorem words_of_check_held :
    check "4( C#E Gb^2 - ) . D6" = .ok () ∧ ∃ chords, parse "4( C#E Gb^2 - ) . D6" = .ok chords ∧
      (chords.map Chord.size).sum = 4 ∧ chords.countP Chord.isRest = 1 := by
  have hcheck : check "4( C#E Gb^2 - ) . D6" = .ok () := by decide +kernel
  -- a group with a chord, a held octave, a rest and a word with an octave that is passed over
  have hparse : parse "4( C#E Gb^2 - ) . D6" =
      .ok [⟨[⟨.c, 1, 0⟩, ⟨.e, 0, 0⟩], .ofFloat 1⟩, ⟨[⟨.g, -1, 2⟩], .ofFloat 2⟩, ⟨[], .ofFloat 1⟩,
        ⟨[⟨.d, 0, 0⟩], .ofFloat 1⟩] := by
    decide +kernel
  obtain ⟨-, -, hletters, hrests⟩ := words_of_check hcheck hparse
  refine ⟨hcheck, _, hparse, ?_, ?_⟩
  · rw [hletters (by decide)]
    decide
  · rw [hrests]
    decide

/-- A word that is written without anything left over. -/
def isExactWord (word : List Char) : Bool := isPlainWord word || (chordPieces word).all isPitchText

/-- Here no word is: three end in a final character, and a letter between slashes is passed over. -/
theorem leftover_in_every_word :
    check "D. E- C6 FA/G" = .ok () ∧
    parse "D. E- C6 FA/G" =
      .ok [⟨[⟨.d, 0, 0⟩], .ofFloat 1⟩, ⟨[⟨.e, 0, 0⟩], .ofFloat 1⟩, ⟨[⟨.c, 0, 0⟩], .ofFloat 1⟩,
        ⟨[⟨.f, 0, 0⟩, ⟨.g, 0, 0⟩], .ofFloat 1⟩] ∧
    ∀ word ∈ Text.words "D. E- C6 FA/G".toList, isExactWord word = false := by
  refine ⟨?_, ?_, ?_⟩
  · decide +kernel
  · decide +kernel
  · decide

end Melody.Notation
