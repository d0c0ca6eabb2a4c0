import Mathlib.Order.Bounds.Defs
import Mathlib.Tactic.MkIffOfInductiveProp
import Melody.Proofs.Notation.PitchToken
import Melody.Proofs.Notation.Scan
import Melody.Proofs.Text.Bytes

/-!
# The grammar of the strict notation

The check is one walk with a neighbour and an open parenthesis in hand. What it accepts can be said without
a walk: every character is legal and has the neighbours that it needs, and the parentheses alternate. What it
reports is the first offset at which a character breaks a rule.

Offsets are in bytes, and so the rules are said of the units of a text (`Melody.Proofs.Text.Bytes`).

## The architecture

* **`Placed`** are the rules about neighbours and **`InTurn`** the one about parentheses; **`KeepsRules`** puts
  them together at an offset.
* **`IsStrict`** is the grammar, with the parentheses as pairs, and **`FirstFault`** what the offset of a fault
  is.
* **`forall_inTurn_iff`**: every parenthesis has its turn exactly if they are pairs, but for one that is left
  open.
* **`Place.judge_eq_ok_iff`** is one step of the walk, **`Place.Stands`** what it has in hand behind some
  characters, and **`Place.run_cases`** the whole walk.
* **`check_strict`** is about the check.
-/

namespace Melody.Notation

open Outcome Text

/-! ## The grammar -/

/-- What a character needs beside it. -/
@[mk_iff] structure Placed (before : Option Char) (c : Char) (next : Option Char) : Prop where
  legal : isLegal c = true
  opening : c = '(' → (∃ d ∈ before, Decimal.isDigit d = true) ∧ next = some ' '
  closing : c = ')' → before = some ' ' ∧ isGap next = true
  slash : c = '/' → ∃ d ∈ next, Letter.isLetter d = true
  point : c = '.' ∨ c = '-' → isGap next = true
  digit : Decimal.isDigit c = true → isGap next = true ∨ next = some '('

def isParen (c : Char) : Bool := c == '(' || c == ')'

/-- Whether the last parenthesis is an opening one. -/
def IsOpen (us : List Char) : Prop := (us.filter isParen).getLast? = some '('

/-- Whether a character, if it is a parenthesis, may stand behind some others. -/
def InTurn (before : List Char) (c : Char) : Prop :=
  (c = '(' → ¬IsOpen before) ∧ (c = ')' → IsOpen before)

/-- Whether the character at an offset keeps all rules. Where there is none, no rule is broken. -/
def KeepsRules (us : List Char) (offset : Nat) : Prop :=
  ∀ before c after, us = before ++ c :: after → before.length = offset →
    Placed before.getLast? c after.head? ∧ InTurn before c

def StartsWell (us : List Char) : Prop :=
  ∃ c ∈ us.head?, Decimal.isDigit c = true ∨ Letter.isLetter c = true

/-- Pairs of parentheses, one behind the other. -/
def parenPairs (n : Nat) : List Char := (List.replicate n ['(', ')']).flatten

/-- The strict notation. -/
structure IsStrict (us : List Char) : Prop where
  start : StartsWell us
  placed : ∀ before c after, us = before ++ c :: after → Placed before.getLast? c after.head?
  alternating : ∃ n, us.filter isParen = parenPairs n

/-- Where the fault of a text is: at the start if it begins with something else than it may, else at the first
character that breaks a rule, else at the parenthesis that is left open. -/
inductive FirstFault (us : List Char) : Nat → Prop
  | start (h : ¬StartsWell us) : FirstFault us 0
  | rule {offset : Nat} (hstart : StartsWell us) (h : IsLeast {i | ¬KeepsRules us i} offset) :
      FirstFault us offset
  | unclosed {before after : List Char} (hstart : StartsWell us) (hrules : ∀ i, KeepsRules us i)
      (h : us = before ++ '(' :: after) (hafter : ∀ c ∈ after, isParen c = false) :
      FirstFault us before.length

/-! ## Parentheses in turn -/

variable {us front rest cs : List Char} {c : Char}

/-- A parenthesis at the end is the last of the parentheses. -/
theorem filter_isParen_concat (h : isParen c = true) :
    (us ++ [c]).filter isParen = us.filter isParen ++ [c] := by
  rw [List.filter_append, List.filter_cons_of_pos h, List.filter_nil]

theorem filter_isParen_concat_of_not (h : isParen c = false) :
    (us ++ [c]).filter isParen = us.filter isParen := by
  rw [List.filter_append, List.filter_cons_of_neg (by rw [h]; exact Bool.false_ne_true), List.filter_nil,
    List.append_nil]

theorem isOpen_concat_opening : IsOpen (us ++ ['(']) := by
  rw [IsOpen, filter_isParen_concat rfl, List.getLast?_concat]

theorem not_isOpen_concat_closing : ¬IsOpen (us ++ [')']) := by
  rw [IsOpen, filter_isParen_concat rfl, List.getLast?_concat]
  decide

theorem isOpen_concat_of_not (h : isParen c = false) : IsOpen (us ++ [c]) ↔ IsOpen us := by
  rw [IsOpen, IsOpen, filter_isParen_concat_of_not h]

theorem inTurn_of_not_isParen (h : isParen c = false) : InTurn us c := by
  constructor
  · rintro rfl
    cases h
  · rintro rfl
    cases h

theorem isParen_cases (c : Char) : c = '(' ∨ c = ')' ∨ isParen c = false := by
  rw [← or_assoc, ← beq_iff_eq, ← beq_iff_eq (b := ')'), ← Bool.or_eq_true]
  exact (Bool.eq_false_or_eq_true _)

theorem parenPairs_succ (n : Nat) : parenPairs (n + 1) = '(' :: ')' :: parenPairs n := by
  rw [parenPairs, List.replicate_succ, List.flatten_cons]
  rfl

theorem parenPairs_succ' (n : Nat) : parenPairs (n + 1) = parenPairs n ++ ['('] ++ [')'] := by
  rw [parenPairs, List.replicate_succ', List.flatten_concat, List.append_assoc]
  rfl

/-- The parenthesis in front of one in pairs. -/
theorem getLast?_of_parenPairs {n : Nat} {before after : List Char}
    (h : parenPairs n = before ++ c :: after) :
    (c = '(' → before.getLast? ≠ some '(') ∧ (c = ')' → before.getLast? = some '(') := by
  induction n generalizing before with
  | zero => simp [parenPairs] at h
  | succ n ih =>
    rw [parenPairs_succ] at h
    -- the parenthesis is the first, the second, or one of the pairs behind
    match before, h with
    | [], h =>
      rw [List.nil_append, List.cons.injEq] at h
      rw [← h.1]
      exact ⟨nofun, fun hc => absurd hc (by decide)⟩
    | [d], h =>
      rw [List.singleton_append, List.cons.injEq, List.cons.injEq] at h
      rw [← h.1, ← h.2.1]
      exact ⟨fun hc => absurd hc (by decide), fun _ => rfl⟩
    | d :: e :: before, h =>
      rw [List.cons_append, List.cons_append, List.cons.injEq, List.cons.injEq] at h
      rw [← h.1, ← h.2.1]
      have hrest := ih h.2.2
      cases before with
      | nil => exact ⟨fun _ => by decide, fun hc => absurd (hrest.2 hc) (by decide)⟩
      | cons f before =>
        rw [List.getLast?_cons_cons, List.getLast?_cons_cons]
        exact hrest

/-- The parentheses of a text in which each has its turn: pairs, and one more if it is left open. -/
theorem exists_parenPairs (h : ∀ before c after, us = before ++ c :: after → InTurn before c) :
    (IsOpen us → ∃ n, us.filter isParen = parenPairs n ++ ['(']) ∧
      (¬IsOpen us → ∃ n, us.filter isParen = parenPairs n) := by
  induction us using List.reverseRecOn with
  | nil => exact ⟨nofun, fun _ => ⟨0, rfl⟩⟩
  | append_singleton us c ih =>
    have hturn : InTurn us c := h us c [] rfl
    obtain ⟨hopen, hclosed⟩ := ih fun before d after hus => by
      refine h before d (after ++ [c]) ?_
      rw [hus, List.append_assoc, List.cons_append]
    -- the pairs so far, with one more parenthesis or none
    rcases isParen_cases c with rfl | rfl | hc
    · obtain ⟨n, hn⟩ := hclosed (hturn.1 rfl)
      refine ⟨fun _ => ⟨n, ?_⟩, fun hnot => absurd isOpen_concat_opening hnot⟩
      rw [filter_isParen_concat rfl, hn]
    · obtain ⟨n, hn⟩ := hopen (hturn.2 rfl)
      refine ⟨fun hopen => absurd hopen not_isOpen_concat_closing, fun _ => ⟨n + 1, ?_⟩⟩
      rw [filter_isParen_concat rfl, hn, parenPairs_succ']
    · rw [isOpen_concat_of_not hc, filter_isParen_concat_of_not hc]
      exact ⟨hopen, hclosed⟩

/-- **Parentheses in turn** are pairs, if none is left open. -/
theorem forall_inTurn_iff :
    ((∀ before c after, us = before ++ c :: after → InTurn before c) ∧ ¬IsOpen us) ↔
      ∃ n, us.filter isParen = parenPairs n := by
  constructor
  · rintro ⟨hturn, hclosed⟩
    exact (exists_parenPairs hturn).2 hclosed
  · rintro ⟨n, hn⟩
    constructor
    · -- each parenthesis of the pairs stands behind one of the other kind
      intro before c after hus
      by_cases hc : isParen c = true
      · rw [hus, List.filter_append, List.filter_cons_of_pos hc] at hn
        exact getLast?_of_parenPairs hn.symm
      · exact inTurn_of_not_isParen (eq_false_of_ne_true hc)
    · rw [IsOpen, hn]
      cases n with
      | zero => exact nofun
      | succ n =>
        rw [parenPairs_succ', List.getLast?_concat]
        decide

/-! ## One step -/

/-- Every legal character is a single byte, so characters and bytes are counted alike. -/
theorem isAscii_of_isLegal (h : isLegal c = true) : IsAscii c := by
  simp only [isLegal, Bool.or_eq_true, beq_iff_eq] at h
  -- a sign of the notation, a letter of a pitch, or a digit
  rcases h with (hsign | hletter) | hdigit
  · rcases hsign with ((((((((rfl | rfl) | rfl) | rfl) | rfl) | rfl) | rfl) | rfl) | rfl) | rfl
    all_goals decide
  · obtain ⟨l, hl⟩ := Option.isSome_iff_exists.1 hletter
    rw [← Letter.toChar_of_ofChar? hl]
    cases l
    all_goals decide
  · rw [Decimal.isDigit, Bool.and_eq_true, decide_eq_true_eq, decide_eq_true_eq, Char.le_def, Char.le_def,
      UInt32.le_iff_toNat_le, UInt32.le_iff_toNat_le] at hdigit
    exact Nat.lt_of_le_of_lt hdigit.2 (by decide)

/-- The rules at an offset are about the character that starts there. -/
theorem keepsRules_append_cons_iff :
    KeepsRules (front ++ c :: rest) front.length ↔
      Placed front.getLast? c rest.head? ∧ InTurn front c := by
  refine ⟨fun h => h front c rest rfl rfl, ?_⟩
  intro h before d after hus hlength
  obtain ⟨rfl, hcons⟩ := List.append_inj hus hlength.symm
  obtain ⟨rfl, rfl⟩ := List.cons.inj hcons
  exact h

theorem keepsRules_of_length_le {offset : Nat} (h : us.length ≤ offset) : KeepsRules us offset := by
  intro before c after hus hlength
  rw [hus, List.length_append, List.length_cons] at h
  omega

theorem isGap_iff {next : Option Char} : isGap next = true ↔ next = none ∨ next = some ' ' := by
  cases next with
  | none => exact iff_of_true rfl (.inl rfl)
  | some d => simp [isGap]

/-- Only characters of ASCII matter to a character in front of them. -/
theorem Placed.congr {before next next' : Option Char} (hnone : next = none ↔ next' = none)
    (hsome : ∀ d, IsAscii d → (next = some d ↔ next' = some d)) :
    Placed before c next ↔ Placed before c next' := by
  have hspace : next = some ' ' ↔ next' = some ' ' := hsome ' ' (by decide)
  have hparen : next = some '(' ↔ next' = some '(' := hsome '(' (by decide)
  have hgap : isGap next = true ↔ isGap next' = true := by
    rw [isGap_iff, isGap_iff, hnone, hspace]
  -- the conditions on what follows only ever ask for characters the notation knows, all ASCII
  have hletter : (∃ d ∈ next, Letter.isLetter d = true) ↔ ∃ d ∈ next', Letter.isLetter d = true := by
    refine exists_congr fun d => and_congr_left fun hd => hsome d (isAscii_of_isLegal ?_)
    rw [isLegal, hd, Bool.or_true, Bool.true_or]
  rw [placed_iff, placed_iff, hspace, hgap, hletter, hparen]

namespace Place

variable {p : Place} {next : Option Char} {opened : Option Nat}

/-- **One step of the walk**: it goes on if the character has the neighbours it needs and, if it is a
parenthesis, its turn. -/
theorem judge_eq_ok_iff :
    p.judge c next = .ok opened ↔ Placed p.before c next ∧
      (c = '(' → p.opened = none ∧ opened = some p.offset) ∧
      (c = ')' → (∃ offset, p.opened = some offset) ∧ opened = none) ∧
      (isParen c = false → opened = p.opened) := by
  by_cases hlegal : isLegal c = true
  · rw [judge, hlegal, Bool.not_true, if_neg Bool.false_ne_true]
    -- an opening parenthesis: behind digits, in front of a blank, and in no group
    by_cases hopening : c = '('
    · subst hopening
      have hplaced : Placed p.before '(' next ↔
          (∃ d ∈ p.before, Decimal.isDigit d = true) ∧ next = some ' ' := by
        simp [placed_iff, Decimal.isDigit, hlegal]
      rw [if_pos rfl, hplaced]
      cases p.opened with
      | some offset => simp
      | none =>
        rw [Option.isSome_none, if_neg Bool.false_ne_true, ite_eq_ok_iff, @eq_comm _ (some p.offset)]
        simp [isParen, Option.any_eq_true]
    -- a closing one: behind a blank, in front of a gap, and in a group
    by_cases hclosing : c = ')'
    · subst hclosing
      have hplaced : Placed p.before ')' next ↔ p.before = some ' ' ∧ isGap next = true := by
        simp [placed_iff, Decimal.isDigit, hlegal]
      rw [if_neg hopening, if_pos rfl, hplaced]
      cases p.opened with
      | none => simp
      | some offset =>
        rw [Option.isNone_some, if_neg Bool.false_ne_true, ite_eq_ok_iff, @eq_comm _ none]
        simp [isParen]
    -- no other character opens or closes
    have hother : (opened = p.opened) ↔ (c = '(' → p.opened = none ∧ opened = some p.offset) ∧
        (c = ')' → (∃ offset, p.opened = some offset) ∧ opened = none) ∧
        (isParen c = false → opened = p.opened) := by
      simp [hopening, hclosing, isParen]
    rw [if_neg hopening, if_neg hclosing, ← hother, eq_comm (a := opened)]
    -- a slash stands in front of a letter
    by_cases hslash : c = '/'
    · subst hslash
      have hplaced : Placed p.before '/' next ↔ ∃ d ∈ next, Letter.isLetter d = true := by
        simp [placed_iff, Decimal.isDigit, hlegal]
      rw [if_pos rfl, ite_eq_ok_iff, hplaced, Option.any_eq_true]
      rfl
    -- points and lines end their word
    by_cases hpoint : c = '.' ∨ c = '-'
    · have hplaced : Placed p.before c next ↔ isGap next = true := by
        rcases hpoint with rfl | rfl
        · simp [placed_iff, Decimal.isDigit, hlegal]
        · simp [placed_iff, Decimal.isDigit, hlegal]
      rw [if_neg hslash, if_pos hpoint, ite_eq_ok_iff, hplaced]
    -- digits end their word or open a group, and any other legal character may stand anywhere
    by_cases hdigit : Decimal.isDigit c = true
    · have hplaced : Placed p.before c next ↔ isGap next = true ∨ next = some '(' := by
        simp [placed_iff, hlegal, hopening, hclosing, hslash, hpoint, hdigit]
      rw [if_neg hslash, if_neg hpoint, if_pos hdigit, ite_eq_ok_iff, hplaced, Bool.or_eq_true, beq_iff_eq]
    · have hplaced : Placed p.before c next := by
        simp [placed_iff, hlegal, hopening, hclosing, hslash, hpoint, hdigit]
      rw [if_neg hslash, if_neg hpoint, if_neg hdigit, Except.ok.injEq, and_iff_right hplaced]
  · rw [judge, eq_false_of_ne_true hlegal]
    refine iff_of_false (fun h => ?_) fun h => hlegal h.1.legal
    cases h

/-- A character that is refused ends the run with its offset. -/
theorem run_of_judge_error {fault : NotationFault} (h : p.judge c cs.head? = .error fault) :
    p.run (c :: cs) = .error (.invalidNotation p.offset fault) := by
  have hstep : p.step c cs.head? = .error (.invalidNotation p.offset fault) := by
    unfold step
    rw [h]
  rw [run, hstep]
  rfl

/-- One that is accepted moves the place on by its bytes. -/
theorem run_of_judge_ok (h : p.judge c cs.head? = .ok opened) :
    p.run (c :: cs) = run ⟨p.offset + c.utf8Size, some c, opened⟩ cs := by
  have hstep : p.step c cs.head? = .ok ⟨p.offset + c.utf8Size, some c, opened⟩ :=
    step_eq_ok_iff.2 ⟨opened, h, rfl⟩
  rw [run, hstep]
  rfl

/-- What the walk has in hand behind some characters. -/
structure Stands (p : Place) (front : List Char) : Prop where
  offset : p.offset = front.length
  before : p.before = front.getLast?
  closed : p.opened = none → ¬IsOpen front
  opened : ∀ offset, p.opened = some offset → ∃ before after, front = before ++ '(' :: after ∧
    before.length = offset ∧ ∀ c ∈ after, isParen c = false

theorem stands_start : start.Stands [] := ⟨rfl, rfl, fun _ => nofun, nofun⟩

/-- A place knows of an open group exactly if there is one. -/
theorem Stands.isOpen_iff (h : p.Stands front) : IsOpen front ↔ ∃ offset, p.opened = some offset := by
  cases hopened : p.opened with
  | none => exact iff_of_false (h.closed hopened) nofun
  | some offset =>
    refine iff_of_true ?_ ⟨offset, rfl⟩
    obtain ⟨before, after, rfl, -, hafter⟩ := h.opened offset hopened
    -- nothing but plain characters stands behind the open parenthesis
    have hnone : after.filter isParen = [] := by
      rw [List.filter_eq_nil_iff]
      intro d hd
      rw [hafter d hd]
      exact Bool.false_ne_true
    rw [IsOpen, List.filter_append, List.filter_cons_of_pos rfl, hnone, List.getLast?_concat]

/-- Reading one more character keeps what a place knows. It is the step of the invariant that the run carries.
-/
theorem Stands.step (h : p.Stands front) (hjudge : p.judge c next = .ok opened) :
    Stands ⟨p.offset + c.utf8Size, some c, opened⟩ (front ++ [c]) := by
  obtain ⟨hplaced, hopening, hclosing, hother⟩ := judge_eq_ok_iff.1 hjudge
  have hsize : c.utf8Size = 1 := by
    rw [← length_unitsOf, unitsOf_of_isAscii (isAscii_of_isLegal hplaced.legal), List.length_singleton]
  refine ⟨?_, ?_, ?_, ?_⟩
  · rw [hsize, h.offset, List.length_append, List.length_singleton]
  · exact List.getLast?_concat.symm
  · -- no group is known: this closed the last one, or there was none
    intro hnone
    rcases isParen_cases c with rfl | rfl | hc
    · rw [(hopening rfl).2] at hnone
      cases hnone
    · exact not_isOpen_concat_closing
    · rw [isOpen_concat_of_not hc]
      exact h.closed ((hother hc).symm.trans hnone)
  · -- a group is known: this opened it, or nothing since then was a parenthesis
    intro offset hsome
    rcases isParen_cases c with rfl | rfl | hc
    · rw [(hopening rfl).2, Option.some.injEq, h.offset] at hsome
      exact ⟨front, [], rfl, hsome, List.forall_mem_nil _⟩
    · rw [(hclosing rfl).2] at hsome
      cases hsome
    · obtain ⟨before, after, rfl, hlength, hafter⟩ := h.opened offset ((hother hc).symm.trans hsome)
      refine ⟨before, after ++ [c], ?_, hlength, ?_⟩
      · rw [List.append_assoc, List.cons_append]
      · rw [List.forall_mem_append, List.forall_mem_singleton]
        exact ⟨hafter, hc⟩

/-- A step goes on exactly if the character keeps its rules. -/
theorem exists_judge_eq_ok_iff (h : p.Stands front) :
    (∃ opened, p.judge c cs.head? = .ok opened) ↔
      KeepsRules (front ++ (c :: cs).flatMap unitsOf) front.length := by
  -- a character of one byte is judged as that byte is
  by_cases hascii : IsAscii c
  · rw [List.flatMap_cons, unitsOf_of_isAscii hascii, List.singleton_append, keepsRules_append_cons_iff,
      Placed.congr (head?_flatMap_unitsOf cs).1 (head?_flatMap_unitsOf cs).2, ← h.before, InTurn,
      h.isOpen_iff]
    simp only [judge_eq_ok_iff]
    constructor
    · rintro ⟨opened, hplaced, hopening, hclosing, -⟩
      refine ⟨hplaced, fun hc => ?_, fun hc => (hclosing hc).1⟩
      rw [(hopening hc).1]
      exact nofun
    · rintro ⟨hplaced, hopening, hclosing⟩
      rcases isParen_cases c with rfl | rfl | hc
      · have hnone : p.opened = none := Option.eq_none_iff_forall_ne_some.2 fun o ho => hopening rfl ⟨o, ho⟩
        exact ⟨some p.offset, hplaced, fun _ => ⟨hnone, rfl⟩, nofun, nofun⟩
      · exact ⟨none, hplaced, nofun, fun _ => ⟨hclosing rfl, rfl⟩, nofun⟩
      · refine ⟨p.opened, hplaced, ?_, ?_, fun _ => rfl⟩
        · rintro rfl
          cases hc
        · rintro rfl
          cases hc
  · obtain ⟨d, more, hunits, hd⟩ := unitsOf_of_not_isAscii hascii
    rw [List.flatMap_cons, hunits, List.cons_append, keepsRules_append_cons_iff]
    -- neither the character nor its first unit is legal
    refine iff_of_false ?_ fun hkeeps => hd (isAscii_of_isLegal hkeeps.1.legal)
    rintro ⟨opened, hjudge⟩
    exact hascii (isAscii_of_isLegal (judge_eq_ok_iff.1 hjudge).1.legal)

/-- **The whole walk**: it comes through if every character keeps its rules, and else stops at the first that
does not. -/
theorem run_cases (h : p.Stands front) :
    (∃ q : Place, p.run cs = .ok q ∧ q.Stands (front ++ cs.flatMap unitsOf) ∧
      ∀ i, front.length ≤ i → KeepsRules (front ++ cs.flatMap unitsOf) i) ∨
    ∃ offset fault, p.run cs = .error (.invalidNotation offset fault) ∧
      ¬KeepsRules (front ++ cs.flatMap unitsOf) offset ∧
      ∀ i, front.length ≤ i → i < offset → KeepsRules (front ++ cs.flatMap unitsOf) i := by
  induction cs generalizing p front with
  | nil =>
    refine .inl ⟨p, rfl, ?_, fun i hi => ?_⟩
    · rwa [List.flatMap_nil, List.append_nil]
    · rw [List.flatMap_nil, List.append_nil]
      exact keepsRules_of_length_le hi
  | cons c cs ih =>
    have hkeeps : (∃ opened, p.judge c cs.head? = .ok opened) ↔
        KeepsRules (front ++ (c :: cs).flatMap unitsOf) front.length := exists_judge_eq_ok_iff h
    -- either this character is the first to break a rule, or what holds of the others holds of all
    cases hjudge : p.judge c cs.head? with
    | error fault =>
      refine .inr ⟨front.length, fault, ?_, ?_, fun i hlow hhigh => ?_⟩
      · rw [run_of_judge_error hjudge, h.offset]
      · rw [← hkeeps, hjudge]
        exact nofun
      · omega
    | ok opened =>
      have hfirst := hkeeps.1 ⟨opened, hjudge⟩
      have hlegal := (judge_eq_ok_iff.1 hjudge).1.legal
      have hunits : front ++ (c :: cs).flatMap unitsOf = front ++ [c] ++ cs.flatMap unitsOf := by
        rw [List.flatMap_cons, unitsOf_of_isAscii (isAscii_of_isLegal hlegal), List.append_assoc]
      -- what is known of the first character goes in front of what is known of the others
      have hfrom {i : Nat} (hi : front.length ≤ i) : i = front.length ∨ (front ++ [c]).length ≤ i := by
        rw [List.length_append, List.length_singleton]
        omega
      rw [hunits] at hfirst ⊢
      rw [run_of_judge_ok hjudge]
      rcases ih (h.step hjudge) with ⟨q, hq, hstands, hall⟩ | ⟨offset, fault, hq, hbroken, hall⟩
      · refine .inl ⟨q, hq, hstands, fun i hi => ?_⟩
        rcases hfrom hi with rfl | hi
        · exact hfirst
        · exact hall i hi
      · refine .inr ⟨offset, fault, hq, hbroken, fun i hi hlt => ?_⟩
        rcases hfrom hi with rfl | hi
        · exact hfirst
        · exact hall i hi hlt

end Place

/-! ## The check -/

theorem isLegal_of_start (h : Decimal.isDigit c = true ∨ Letter.isLetter c = true) : isLegal c = true := by
  rcases h with h | h
  · rw [isLegal, h, Bool.or_true]
  · rw [isLegal, h, Bool.or_true, Bool.true_or]

/-- The first byte of a text is its first character if that is a digit or a letter, and no part of one
otherwise. -/
theorem startsWell_iff {first : Char} {rest : List Char} :
    StartsWell ((first :: rest).flatMap unitsOf) ↔
      (Decimal.isDigit first || Letter.isLetter first) = true := by
  rw [Bool.or_eq_true]
  -- the first unit of a text is its first character when that is ASCII
  constructor
  · rintro ⟨c, hc, hkind⟩
    have hascii := isAscii_of_isLegal (isLegal_of_start hkind)
    have hfirst := ((head?_flatMap_unitsOf (first :: rest)).2 c hascii).1 hc
    rwa [← Option.some.inj hfirst] at hkind
  · intro hkind
    have hascii := isAscii_of_isLegal (isLegal_of_start hkind)
    exact ⟨first, ((head?_flatMap_unitsOf (first :: rest)).2 first hascii).2 rfl, hkind⟩

/-- The grammar, by the rules at each offset. -/
theorem isStrict_iff : IsStrict us ↔ StartsWell us ∧ (∀ i, KeepsRules us i) ∧ ¬IsOpen us := by
  constructor
  · intro h
    obtain ⟨hturn, hclosed⟩ := forall_inTurn_iff.2 h.alternating
    refine ⟨h.start, fun i before c after hus _ => ?_, hclosed⟩
    exact ⟨h.placed before c after hus, hturn before c after hus⟩
  · rintro ⟨hstart, hrules, hclosed⟩
    refine ⟨hstart, fun before c after hus => (hrules _ before c after hus rfl).1, ?_⟩
    exact forall_inTurn_iff.1 ⟨fun before c after hus => (hrules _ before c after hus rfl).2, hclosed⟩

/-- The check in full: it accepts a text that keeps the grammar, and otherwise names the first place where it
is broken. -/
theorem checkChars_cases (text : List Char) :
    (checkChars text = .ok () ∧ IsStrict (text.flatMap unitsOf)) ∨
    ∃ offset fault, checkChars text = .error (.invalidNotation offset fault) ∧
      ¬IsStrict (text.flatMap unitsOf) ∧ FirstFault (text.flatMap unitsOf) offset := by
  cases text with
  | nil =>
    have hstart : ¬StartsWell [] := nofun
    exact .inr ⟨0, .empty, rfl, fun h => hstart h.start, .start hstart⟩
  | cons first rest =>
    rw [checkChars]
    by_cases hfirst : (Decimal.isDigit first || Letter.isLetter first) = true
    · have hstart : StartsWell ((first :: rest).flatMap unitsOf) := startsWell_iff.2 hfirst
      rw [hfirst, Bool.not_true, if_neg Bool.false_ne_true]
      -- the run stands at the end, or stops at a character
      rcases Place.run_cases Place.stands_start with
        ⟨last, hrun, hstands, hrules⟩ | ⟨offset, fault, hrun, hbroken, hbefore⟩
      · rw [hrun]
        have hall : ∀ i, KeepsRules ((first :: rest).flatMap unitsOf) i := fun i => hrules i (Nat.zero_le i)
        cases hopened : last.opened with
        | none =>
          refine .inl ⟨?_, isStrict_iff.2 ⟨hstart, hall, hstands.closed hopened⟩⟩
          dsimp only [bind, Except.bind]
          rw [hopened]
        -- at the end a group is open, and the fault is where it was opened
        | some offset =>
          obtain ⟨before, after, hunits, rfl, hafter⟩ := hstands.opened offset hopened
          refine .inr ⟨before.length, .unclosed, ?_, ?_, .unclosed hstart hall hunits hafter⟩
          · dsimp only [bind, Except.bind]
            rw [hopened]
          · exact fun h => (isStrict_iff.1 h).2.2 (hstands.isOpen_iff.2 ⟨_, hopened⟩)
      · refine .inr ⟨offset, fault, ?_, fun h => hbroken ((isStrict_iff.1 h).2.1 offset), ?_⟩
        · rw [hrun]
          rfl
        · refine .rule hstart ⟨hbroken, fun i hi => Nat.le_of_not_lt fun hlt => hi ?_⟩
          exact hbefore i (Nat.zero_le i) hlt
    · have hstart : ¬StartsWell ((first :: rest).flatMap unitsOf) := mt startsWell_iff.1 hfirst
      rw [eq_false_of_ne_true hfirst, Bool.not_false, if_pos rfl]
      exact .inr ⟨0, .badStart, rfl, fun h => hstart h.start, .start hstart⟩

/-- **The check accepts the grammar and points at the first fault.** -/
theorem check_strict (text : String) :
    (check text = .ok () ↔ IsStrict (units text)) ∧
    ∀ e, check text = .error e →
      ∃ offset fault, e = .invalidNotation offset fault ∧ FirstFault (units text) offset := by
  rw [units_eq, check]
  -- the two outcomes of the scan, each with its side of the specification
  rcases checkChars_cases text.toList with ⟨hcheck, hstrict⟩ | ⟨offset, fault, hcheck, hstrict, hfault⟩
  · rw [hcheck]
    exact ⟨iff_of_true rfl hstrict, nofun⟩
  · rw [hcheck]
    refine ⟨iff_of_false nofun hstrict, fun e he => ?_⟩
    exact ⟨offset, fault, (Except.error.inj he).symm, hfault⟩

/-- A group is left open: behind it a character of two bytes is the fault, and without that the parenthesis. -/
theorem check_strict_open :
    check "C 4( E é" = .error (.invalidNotation 7 .illegalCharacter) ∧ FirstFault (units "C 4( E é") 7 ∧
    check "C 4( E" = .error (.invalidNotation 3 .unclosed) ∧ FirstFault (units "C 4( E") 3 := by
  have hwide : check "C 4( E é" = .error (.invalidNotation 7 .illegalCharacter) := by decide +kernel
  have hopen : check "C 4( E" = .error (.invalidNotation 3 .unclosed) := by decide +kernel
  refine ⟨hwide, ?_, hopen, ?_⟩
  · obtain ⟨offset, fault, heq, hfault⟩ := (check_strict "C 4( E é").2 _ hwide
    obtain ⟨rfl, -⟩ := Error.invalidNotation.inj heq
    exact hfault
  · obtain ⟨offset, fault, heq, hfault⟩ := (check_strict "C 4( E").2 _ hopen
    obtain ⟨rfl, -⟩ := Error.invalidNotation.inj heq
    exact hfault

end Melody.Notation
