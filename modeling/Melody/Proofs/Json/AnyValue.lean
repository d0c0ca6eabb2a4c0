import Melody.Json.AnyValue
import Melody.Proofs.Json.Records

/-!
# Values of any kind, read back

A reader of any value does not know what was written, and finds the kind of it by its first character. It reads
back every value that it has room for, whatever is in it.

## The architecture

* **`Value.Fits`** says that no more brackets are open at once than a reader has room for, and that every number
  is read from its own text.
* **`rereads_of_fits`**: what fits is read back, by induction on the value. The parts of an array or an object are
  read with room for one bracket less: an array as a list of values is (**`any_read_of_array`**), an object in a run
  that puts each member in front of those found so far (**`runs_member`**).
-/

namespace Melody.Json

open Codec Outcome

/-- At most the given number of brackets are open at once, and numbers are read from their own text. -/
inductive Value.Fits : Nat → Value → Prop
  | null (room : Nat) : Fits room .null
  | bool (room : Nat) (b : Bool) : Fits room (.bool b)
  | number (room : Nat) {n : Number} (h : readNumber n.chars = .ok (n, [])) : Fits room (.number n)
  | string (room : Nat) (s : String) : Fits room (.string s)
  | array {room : Nat} {values : List Value} (h : ∀ v ∈ values, Fits room v) :
      Fits (room + 1) (.array values)
  | object {room : Nat} {members : List (String × Value)} (h : ∀ m ∈ members, Fits room m.2) :
      Fits (room + 1) (.object members)

/-- Values as they are, read with room for a number of open brackets. -/
def Codec.any (room : Nat) : Codec Value where
  read := readValue room
  write v := v
  consumes := readValue_consumes room

variable {room : Nat} {text : List Char}

/-! ## Values without parts -/

/-- What is read back without regard to parts is read back with room for any number of brackets. -/
theorem rereads_of_valueWith {v : Value} (h : ∀ (parts : Option PartReader) (style : Style) (text rest : List Char),
    skipSpace text = v.chars style ++ rest → Ends rest → valueWith parts text = .ok (v, rest)) :
    (any room).Rereads v v := by
  intro style text rest htext hrest
  cases room with
  | zero => exact h none style text rest htext hrest
  | succ room => exact h (some (valueReader room)) style text rest htext hrest

theorem rereads_null : (any room).Rereads .null .null := by
  apply rereads_of_valueWith
  intro parts style text rest htext _
  rw [valueWith, htext, Value.chars]
  rfl

/-- The words of the truth values are read back. -/
theorem rereads_bool (b : Bool) : (any room).Rereads (.bool b) (.bool b) := by
  apply rereads_of_valueWith
  intro parts style text rest htext _
  cases b with
  | true =>
    rw [valueWith, htext, Value.chars]
    rfl
  | false =>
    rw [valueWith, htext, Value.chars]
    rfl

/-- A number that is read from its own text begins like one. -/
theorem exists_numberChars_eq_cons {n : Number} (h : readNumber n.chars = .ok (n, [])) :
    ∃ c more, n.chars = c :: more ∧ startsNumber c = true := by
  cases n with
  | integer i => exact exists_signed_eq_cons i
  | real x =>
    obtain ⟨c, more, hchars, hc⟩ := exists_render_eq_cons x
    refine ⟨c, more, hchars, ?_⟩
    -- what prints as `null` is no number and was not read as one
    rcases hc with hc | rfl
    · exact hc
    · rw [Number.chars, hchars] at h
      cases h

/-- A number is read back whenever its text is, on its own, a text of the same number. -/
theorem rereads_number {n : Number} (h : readNumber n.chars = .ok (n, [])) :
    (any room).Rereads (.number n) (.number n) := by
  apply rereads_of_valueWith
  intro parts style text rest htext hrest
  obtain ⟨c, more, hchars, hc⟩ := exists_numberChars_eq_cons h
  have hne {d : Char} (hd : startsNumber d = false) : c ≠ d := by
    rintro rfl
    rw [hc] at hd
    cases hd
  -- a number starts with a sign or a digit, and no other value does
  have hstarts : c = '-' ∨ Decimal.isDigit c = true := by
    rwa [startsNumber, Bool.or_eq_true, beq_iff_eq] at hc
  have hread := settled_readNumber _ _ _ rest h hrest
  rw [Value.chars, hchars, List.cons_append] at htext
  rw [hchars, List.cons_append] at hread
  rw [valueWith, htext]
  dsimp only
  rw [if_neg (hne (by decide)), if_neg (hne (by decide)), if_neg (hne (by decide)), if_pos hstarts, hread]
  rfl

theorem rereads_text (s : String) : (any room).Rereads (.string s) (.string s) := by
  apply rereads_of_valueWith
  intro parts style text rest htext _
  rw [Value.chars, stringChars_append] at htext
  rw [valueWith, htext]
  show (readText (keyBehind s rest)).map _ = _
  rw [keyBehind, readText_stringChars]
  rfl

/-! ## Arrays and objects -/

/-- An array is read as a list of values is. -/
theorem any_read_of_array {inside : List Char} (h : skipSpace text = '[' :: inside) :
    (any (room + 1)).read text = ((any room).list.read text).map fun out => (.array out.1, out.2) := by
  show valueWith (some (valueReader room)) text = _
  rw [valueWith, h, Codec.list]
  dsimp only
  rw [scalar_of_skipSpace rfl h]
  show (items (any room).read (any room).consumes true inside >>= _) =
    (items (any room).read (any room).consumes true inside >>= _).map _
  -- both readers take the same values up to the same place, and close the array alike
  cases items (any room).read (any room).consumes true inside with
  | error fault => rfl
  | ok out =>
    show (closeArray out.2 >>= _) = (closeArray out.2 >>= _).map _
    cases closeArray out.2 with
    | error fault => rfl
    | ok behind => rfl

/-- A list of values is read back if each of its values is, with one more level of depth. -/
theorem rereads_array {values : List Value} (h : ∀ v ∈ values, (any room).Rereads v v) :
    (any (room + 1)).Rereads (.array values) (.array values) := by
  intro style text rest htext hrest
  have hlist := rereads_list (List.forall₂_same.2 h) style text rest
  have hwrite : (any room).list.write values = .array values := congrArg Value.array (List.map_id' values)
  -- the text starts with a bracket in either style, so it is read as an array
  obtain ⟨inside, hinside⟩ : ∃ inside, skipSpace text = '[' :: inside := by
    rw [htext]
    cases values with
    | nil => exact ⟨_, by rw [any, Value.chars]; rfl⟩
    | cons v values => exact ⟨_, by rw [any, Value.chars]; rfl⟩
  rw [any_read_of_array hinside, hlist (hwrite ▸ htext) hrest]
  rfl

/-- What is found last stands in front. -/
theorem runs_member {written : List (String × Value)} (h : ∀ m ∈ written, (any room).Rereads m.2 m.2)
    (found : List (String × Value)) :
    Runs (member (valueReader room)) found written (written.reverse ++ found) := by
  induction written generalizing found with
  | nil => exact .nil found
  | cons m written ih =>
    obtain ⟨key, v⟩ := m
    rw [List.forall_mem_cons] at h
    rw [List.reverse_cons, List.append_assoc]
    refine .cons (fun style rest hrest => ?_) (ih h.2 ((key, v) :: found))
    -- behind a key stand a colon and, in the indented style, a blank
    obtain ⟨blanks, hblanks, hcolon⟩ := exists_colon_eq_ok style (v.chars style ++ rest)
    have hread : (any room).read (blanks ++ (v.chars style ++ rest)) = .ok (v, rest) :=
      h.1 style _ rest (skipSpace_chars hblanks _ _ _) hrest
    show (colon _ >>= _) = _
    rw [hcolon]
    show ((any room).read _ >>= _) = _
    rw [hread]
    rfl

/-- An object is read back with its members in the order of the text, repeated keys included. -/
theorem rereads_object {written : List (String × Value)} (h : ∀ m ∈ written, (any room).Rereads m.2 m.2) :
    (any (room + 1)).Rereads (.object written) (.object written) := by
  intro style text rest htext _
  obtain ⟨inside, behind, hinside, hmembers, hclose⟩ :=
    exists_members_of_runs (member_consumes (valueReader room)) (runs_member h []) htext
  show valueWith (some (valueReader room)) text = _
  rw [valueWith, hinside]
  -- the members come back in reverse order of reading, after the empty list the reader starts from
  show (members (member (valueReader room)) (member_consumes _) true [] inside >>= _) = _
  rw [hmembers]
  show (closeObject behind >>= _) = _
  rw [hclose, List.append_nil, List.reverse_reverse]
  rfl

/-- **Every value that fits is read back.** -/
theorem rereads_of_fits {v : Value} (h : v.Fits room) : (any room).Rereads v v := by
  induction h with
  | null room => exact rereads_null
  | bool room b => exact rereads_bool b
  | number room h => exact rereads_number h
  | string room s => exact rereads_text s
  | array _ ih => exact rereads_array ih
  | object _ ih => exact rereads_object ih

end Melody.Json
