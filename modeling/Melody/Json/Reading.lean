import Melody.Json.Literal
import Melody.Json.Numeral

/-!
# Reading documents from left to right

A document is read in one pass, and the first thing that is wrong in reading order is its fault. A
`Reader` takes the text in front of it and gives a value and the text behind it.

* **`Reader.Consumes`** says that a reader uses up text. It is what lets a reader of many things end.
* **`items`** and **`members`** run through an array and an object, with a reader for one item and a step
  for one member.
* **`wrongKind`** is the fault of a value that should have been of another kind: a fault inside a string,
  a number or a word comes first, but an array or an object is not looked into.
-/

namespace Melody.Json

/-- A reader takes a text and gives a value and the text behind it. -/
abbrev Reader (α : Type) := List Char → Except DocumentFault (α × List Char)

/-- Whatever a reader finds, the text behind it is shorter than the text it was given. -/
def Reader.Consumes {α : Type} (read : Reader α) : Prop :=
  ∀ text, Guarantees (fun (_, rest) => rest.length < text.length) (read text)

/-- The blanks between the parts of a document. -/
def isSpace (c : Char) : Bool := c == ' ' || c == '\t' || c == '\n' || c == '\r'

def skipSpace (text : List Char) : List Char := text.dropWhile isSpace

theorem length_skipSpace (text : List Char) : (skipSpace text).length ≤ text.length :=
  (List.dropWhile_sublist isSpace).length_le

/-- What stands behind the first character that is no blank. -/
theorem length_of_skipSpace {text rest : List Char} {c : Char} (h : skipSpace text = c :: rest) :
    rest.length < text.length := by
  have := length_skipSpace text
  rw [h, List.length_cons] at this
  exact this

/-- The colon between the key of a member and its value. -/
def colon (text : List Char) : Except DocumentFault (List Char) :=
  match skipSpace text with
  | ':' :: rest => .ok rest
  | [] => .error .ended
  | _ => .error .malformed

theorem length_colon (text : List Char) :
    Guarantees (fun rest => rest.length < text.length) (colon text) := by
  unfold colon
  split
  · next h => exact .ok (length_of_skipSpace h)
  · exact .error
  · exact .error

/-- The fault of a value that is of the wrong kind. -/
def wrongKind (text : List Char) : DocumentFault :=
  let afterScalar (e : Except DocumentFault Unit) : DocumentFault :=
    match e with
    | .ok _ => .mismatched
    | .error fault => fault
  match text with
  | [] => .ended
  | c :: rest =>
    if c = 'n' then afterScalar ((word ['u', 'l', 'l'] rest).map fun _ => ())
    else if c = 't' then afterScalar ((word ['r', 'u', 'e'] rest).map fun _ => ())
    else if c = 'f' then afterScalar ((word ['a', 'l', 's', 'e'] rest).map fun _ => ())
    else if c = '-' ∨ Decimal.isDigit c then afterScalar ((readNumber text).map fun _ => ())
    else if c = '"' then afterScalar ((textFrom rest).map fun _ => ())
    else if c = '[' ∨ c = '\x7b' then .mismatched
    else .malformed

/-! ## Arrays and objects

Both are read behind their opening bracket. `first` says that no item has been read yet, so that none needs
a comma in front of it. -/

/-- The text of the next item of an array; none in front of the closing bracket. -/
def nextItem (first : Bool) (text : List Char) : Except DocumentFault (Option (List Char)) :=
  match skipSpace text with
  | [] => .error .ended
  | c :: rest =>
    if c = ']' then .ok none
    else if first then .ok (some (c :: rest))
    else if c = ',' then
      match skipSpace rest with
      | [] => .error .ended
      | d :: rest => if d = ']' then .error .malformed else .ok (some (d :: rest))
    else .error .malformed

theorem length_nextItem {first : Bool} {text start : List Char}
    (h : nextItem first text = .ok (some start)) : start.length ≤ text.length := by
  unfold nextItem at h
  split at h
  · cases h
  · next c rest hrest =>
    have := length_of_skipSpace hrest
    split at h
    · cases h
    · split at h
      · cases h
        exact this
      · split at h
        · split at h
          · cases h
          · next d rest' hrest' =>
            have := length_of_skipSpace hrest'
            split at h
            · cases h
            · cases h
              simp only [List.length_cons]
              omega
        · cases h

/-- The text of the next key of an object, behind its quote; none in front of the closing bracket. -/
def nextKey (first : Bool) (text : List Char) : Except DocumentFault (Option (List Char)) :=
  match skipSpace text with
  | [] => .error .ended
  | c :: rest =>
    if c = '\x7d' then .ok none
    else if first then (if c = '"' then .ok (some rest) else .error .malformed)
    else if c = ',' then
      match skipSpace rest with
      | [] => .error .ended
      | d :: rest => if d = '"' then .ok (some rest) else .error .malformed
    else .error .malformed

theorem length_nextKey {first : Bool} {text start : List Char}
    (h : nextKey first text = .ok (some start)) : start.length < text.length := by
  unfold nextKey at h
  split at h
  · cases h
  · next c rest hrest =>
    have := length_of_skipSpace hrest
    split at h
    · cases h
    · split at h
      · split at h <;> cases h
        exact this
      · split at h
        · split at h
          · cases h
          · next d rest' hrest' =>
            have := length_of_skipSpace hrest'
            split at h <;> cases h
            omega
        · cases h

/-- The closing bracket of an array. -/
def closeArray (text : List Char) : Except DocumentFault (List Char) :=
  match skipSpace text with
  | [] => .error .ended
  | c :: rest => if c = ']' then .ok rest else .error .malformed

/-- The closing bracket of an object. -/
def closeObject (text : List Char) : Except DocumentFault (List Char) :=
  match skipSpace text with
  | [] => .error .ended
  | c :: rest => if c = '\x7d' then .ok rest else .error .malformed

theorem length_closeArray (text : List Char) :
    Guarantees (fun rest => rest.length < text.length) (closeArray text) := by
  unfold closeArray
  split
  · exact .error
  · next h =>
    split
    · exact .ok (length_of_skipSpace h)
    · exact .error

theorem length_closeObject (text : List Char) :
    Guarantees (fun rest => rest.length < text.length) (closeObject text) := by
  unfold closeObject
  split
  · exact .error
  · next h =>
    split
    · exact .ok (length_of_skipSpace h)
    · exact .error

/-- The items of an array up to its closing bracket, which stays. -/
def items {α : Type} (item : Reader α) (consumes : item.Consumes) (first : Bool) (text : List Char) :
    Except DocumentFault (List α × List Char) :=
  match hnext : nextItem first text with
  | .error fault => .error fault
  | .ok none => .ok ([], text)
  | .ok (some start) =>
    match hitem : item start with
    | .error fault => .error fault
    | .ok (a, rest) =>
      have : rest.length < text.length :=
        Nat.lt_of_lt_of_le (consumes start _ hitem) (length_nextItem hnext)
      match items item consumes false rest with
      | .error fault => .error fault
      | .ok (more, rest) => .ok (a :: more, rest)
termination_by text.length

theorem length_items {α : Type} {item : Reader α} (consumes : item.Consumes) (first : Bool)
    (text : List Char) :
    Guarantees (fun (_, rest) => rest.length ≤ text.length) (items item consumes first text) := by
  fun_induction items item consumes first text with
  | case2 => exact .ok (Nat.le_refl _)
  | case5 first text start hnext a rest hitem hlt more rest' hmore ih =>
    have := ih _ hmore
    exact .ok (Nat.le_of_lt (Nat.lt_of_le_of_lt this hlt))
  | _ => exact .error

/-- The members of an object up to its closing bracket, which stays, taken one by one into a draft. The
step gets the key and reads on behind it, colon first. -/
def members {σ : Type} (step : String → σ → Reader σ)
    (consumes : ∀ key draft, (step key draft).Consumes) (first : Bool) (draft : σ)
    (text : List Char) : Except DocumentFault (σ × List Char) :=
  match hnext : nextKey first text with
  | .error fault => .error fault
  | .ok none => .ok (draft, text)
  | .ok (some start) =>
    match hkey : readText start with
    | .error fault => .error fault
    | .ok (key, behind) =>
      match hstep : step key draft behind with
      | .error fault => .error fault
      | .ok (draft, rest) =>
        have : rest.length < text.length :=
          Nat.lt_trans (consumes key _ behind _ hstep)
            (Nat.lt_trans (length_readText hkey) (length_nextKey hnext))
        members step consumes false draft rest
termination_by text.length

theorem length_members {σ : Type} {step : String → σ → Reader σ}
    (consumes : ∀ key draft, (step key draft).Consumes) (first : Bool) (draft : σ)
    (text : List Char) :
    Guarantees (fun (_, rest) => rest.length ≤ text.length)
      (members step consumes first draft text) := by
  fun_induction members step consumes first draft text with
  | case2 => exact .ok (Nat.le_refl _)
  | case5 first draft text start hnext key behind hkey draft' rest hstep hlt ih =>
    intro out hout
    exact Nat.le_of_lt (Nat.lt_of_le_of_lt (ih out hout) hlt)
  | _ => exact .error

end Melody.Json
