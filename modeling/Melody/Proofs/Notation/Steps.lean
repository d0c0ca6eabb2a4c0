import Melody.Notation.Reading
import Melody.Proofs.Float.Sign
import Melody.Proofs.Outcome

/-!
# Steps of the reader

What each word does to a reader that accepts it, and what follows for every line that can be read.

## The architecture

* **`State.Steps`** has one case for each kind of word, and **`State.steps_of_step`** says that there are no
  others.
* **`State.exists_steps_of_run`** and **`State.add_of_run`**: the steps of a run, one at each word.
* **`State.Measured`** is kept by every step, and so by every run: no length has a minus sign.
* **`measured_of_parse`**: the chords of a line have such lengths.
-/

namespace Melody

open Outcome Decimal

/-- A chord whose length is a float without a minus sign. -/
def Chord.Measured (c : Chord) : Prop := ∃ x, c.length = .ofFloat x ∧ IsUnsigned x

namespace Notation

/-- A length is a quotient of a whole number, and has no sign. -/
theorem isUnsigned_activeLength {word : List Char} {length : Float} (h : activeLength word = .ok length) :
    IsUnsigned length := by
  -- four quarters over an unsigned count
  have hwhole : IsUnsigned wholeLength := by
    rw [IsUnsigned, show wholeLength.toModel.unpack = .finite .positive (2 ^ 52) (-50) (by decide) by rfl]
    exact .finite _ _ _
  rw [activeLength] at h
  split at h
  · next n _ =>
    obtain rfl := Except.ok.inj h
    exact hwhole.div (isUnsigned_toFloat n)
  · cases h

theorem isUnsigned_defaultLength : IsUnsigned defaultLength := by
  rw [IsUnsigned, show defaultLength.toModel.unpack = .finite .positive (2 ^ 52) (-52) (by decide) by rfl]
  exact .finite _ _ _

namespace State

variable {s s' : State} {position : Nat} {word : List Char} {words : List (List Char)}

/-! ## One step -/

/-- What a word does that the reader accepts. -/
inductive Steps (s : State) (word : List Char) : State → Prop
  | opening {length : Float} (hword : word.getLast? = some '(') (h : activeLength word = .ok length) :
      Steps s word { s with active := length }
  | closing (hword : word = [')']) : Steps s word { s with active := defaultLength }
  | extension {last : Chord} {before : List Chord} (hword : word = ['-'])
      (h : s.sounded = last :: before) :
      Steps s word { s with
        sounded := { last with length := .ofFloat (last.length.value + s.active) } :: before }
  | rest (hword : word = ['.']) :
      Steps s word { s with sounded := Chord.rest (.ofFloat s.active) :: s.sounded }
  | chord {pitches : List Pitch} (hword : Token.ofWord word = .chord word)
      (h : chordPitches word = .ok pitches) :
      Steps s word { s with sounded := ⟨pitches, .ofFloat s.active⟩ :: s.sounded }

/-- Everything a step can do. Proofs about the parser go through this and do not open the step itself. -/
theorem steps_of_step (h : s.step position word = .ok s') : Steps s word s' := by
  rw [step] at h
  -- in the order in which the code asks: each question takes the answers before it as no
  by_cases hopening : word.getLast? = some '('
  · rw [Token.ofWord, if_pos hopening] at h
    obtain ⟨length, hlength, h⟩ := bind_eq_ok_iff.1 h
    obtain rfl := pure_eq_ok_iff.1 h
    exact .opening hopening hlength
  by_cases hclosing : word = [')']
  · rw [Token.ofWord, if_neg hopening, if_pos hclosing] at h
    obtain rfl := Except.ok.inj h
    exact .closing hclosing
  by_cases hextension : word = ['-']
  · rw [Token.ofWord, if_neg hopening, if_neg hclosing, if_pos hextension] at h
    dsimp only at h
    split at h
    · cases h
    · next last before hsounded =>
      obtain rfl := Except.ok.inj h
      exact .extension hextension hsounded
  by_cases hrest : word = ['.']
  · rw [Token.ofWord, if_neg hopening, if_neg hclosing, if_neg hextension, if_pos hrest] at h
    obtain rfl := Except.ok.inj h
    exact .rest hrest
  have hchord : Token.ofWord word = .chord word := by
    rw [Token.ofWord, if_neg hopening, if_neg hclosing, if_neg hextension, if_neg hrest]
  rw [hchord] at h
  obtain ⟨pitches, hpitches, h⟩ := bind_eq_ok_iff.1 h
  obtain rfl := pure_eq_ok_iff.1 h
  exact .chord hchord hpitches

/-! ## Runs -/

/-- The words of the back are read from where those of the front have ended. -/
theorem run_append (front back : List (List Char)) :
    s.run position (front ++ back) =
      s.run position front >>= fun s => s.run (position + front.length) back := by
  induction front generalizing s position with
  | nil => rfl
  | cons w front ih =>
    rw [List.cons_append, run, run, bind_assoc]
    simp only [ih, List.length_cons, Nat.add_assoc, Nat.add_comm 1]

/-- A run takes a step at every word, after those in front of it. -/
theorem exists_steps_of_run {before after : List (List Char)}
    (h : s.run position (before ++ word :: after) = .ok s') :
    ∃ s₁ s₂ : State, s.run position before = .ok s₁ ∧ Steps s₁ word s₂ ∧
      s₂.run (position + before.length + 1) after = .ok s' := by
  rw [run_append] at h
  obtain ⟨s₁, hbefore, h⟩ := bind_eq_ok_iff.1 h
  obtain ⟨s₂, hstep, hafter⟩ := bind_eq_ok_iff.1 h
  exact ⟨s₁, s₂, hbefore, steps_of_step hstep, hafter⟩

/-- What every step adds by its word alone is added up over a run. -/
theorem add_of_run {measure : State → Nat} {weight : List Char → Nat}
    (hadd : ∀ word ∈ words, ∀ s s' : State, Steps s word s' → measure s' = measure s + weight word)
    (h : s.run position words = .ok s') : measure s' = measure s + (words.map weight).sum := by
  -- word by word, each adding its own weight
  induction words generalizing s position with
  | nil =>
    obtain rfl := Except.ok.inj h
    rfl
  | cons word rest ih =>
    obtain ⟨s₁, hstep, hrest⟩ := bind_eq_ok_iff.1 h
    rw [List.forall_mem_cons] at hadd
    rw [ih hadd.2 hrest, hadd.1 s s₁ (steps_of_step hstep), List.map_cons, List.sum_cons, Nat.add_assoc]

/-! ## Lengths -/

/-- No length has a minus sign, neither those of the chords nor the one that is active. -/
structure Measured (s : State) : Prop where
  active : IsUnsigned s.active
  sounded : ∀ c ∈ s.sounded, c.Measured

/-- Nothing has a length at the start but the state itself. -/
theorem measured_start : start.Measured := ⟨isUnsigned_defaultLength, List.forall_mem_nil _⟩

/-- A step keeps all lengths unsigned: new ones are the active length, and extended ones are sums. -/
theorem Steps.measured (h : Steps s word s') (hs : s.Measured) : s'.Measured := by
  have hnew (pitches : List Pitch) : (⟨pitches, .ofFloat s.active⟩ : Chord).Measured :=
    ⟨s.active, rfl, hs.active⟩
  cases h with
  | opening _ hlength => exact ⟨isUnsigned_activeLength hlength, hs.sounded⟩
  | closing _ => exact ⟨isUnsigned_defaultLength, hs.sounded⟩
  | @extension last before _ hsounded =>
    have hall := hs.sounded
    rw [hsounded, List.forall_mem_cons] at hall
    -- the chord that is extended was measured already, and sums of unsigned lengths are unsigned
    obtain ⟨x, hx, hunsigned⟩ := hall.1
    refine ⟨hs.active, List.forall_mem_cons.2 ⟨⟨_, rfl, ?_⟩, hall.2⟩⟩
    rw [hx, Binary64.value_ofFloat]
    exact hunsigned.add hs.active
  | rest _ => exact ⟨hs.active, List.forall_mem_cons.2 ⟨hnew [], hs.sounded⟩⟩
  | @chord pitches _ _ => exact ⟨hs.active, List.forall_mem_cons.2 ⟨hnew pitches, hs.sounded⟩⟩

theorem measured_of_run (h : s.run position words = .ok s') (hs : s.Measured) : s'.Measured := by
  induction words generalizing s position with
  | nil =>
    obtain rfl := Except.ok.inj h
    exact hs
  | cons word rest ih =>
    obtain ⟨s₁, hstep, hrest⟩ := bind_eq_ok_iff.1 h
    exact ih hrest ((steps_of_step hstep).measured hs)

end State

/-- The chords that are read from a line have lengths without a minus sign. -/
theorem measured_of_parse {text : String} {chords : List Chord} (h : parse text = .ok chords) :
    ∀ c ∈ chords, c.Measured := by
  obtain ⟨s, hrun, h⟩ := bind_eq_ok_iff.1 h
  obtain rfl := pure_eq_ok_iff.1 h
  intro c hc
  exact (State.measured_of_run hrun State.measured_start).sounded c (List.mem_reverse.1 hc)

end Notation

end Melody
