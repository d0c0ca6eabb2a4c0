import Melody.Json.Reading

/-!
# Passing over values

A value that nobody asked for is passed over (`pass`). It may be of any depth: only the open brackets are
remembered, and each step passes over one value or opening bracket and whatever closes behind it
(`passStep`). Its strings and numbers have to be well formed but need not have a value.
-/

namespace Melody.Json

inductive Bracket
  | array
  | object
deriving DecidableEq, Repr

/-- A number that is passed over may be of any size, and breaking off is a fault like any other. -/
def passNumber (text : List Char) : Except DocumentFault (List Char) :=
  (Numeral.scan .malformed text).map (·.2)

/-- A value that is passed over, or the bracket that opens it. -/
def passScalar (text : List Char) : Except DocumentFault (Option Bracket × List Char) :=
  match text with
  | [] => .error .ended
  | c :: rest =>
    if c = 'n' then (word ['u', 'l', 'l'] rest).map fun rest => (none, rest)
    else if c = 't' then (word ['r', 'u', 'e'] rest).map fun rest => (none, rest)
    else if c = 'f' then (word ['a', 'l', 's', 'e'] rest).map fun rest => (none, rest)
    else if c = '-' ∨ Decimal.isDigit c then (passNumber text).map fun rest => (none, rest)
    else if c = '"' then (passText rest).map fun rest => (none, rest)
    else if c = '[' then .ok (some .array, rest)
    else if c = '\x7b' then .ok (some .object, rest)
    else .error .malformed

theorem length_passScalar (text : List Char) :
    Guarantees (fun (_, rest) => rest.length < text.length) (passScalar text) := by
  unfold passScalar
  split
  · exact .error
  · next c rest =>
    have hword (w : List Char) :
        Guarantees (fun after => after.length < (c :: rest).length) (word w rest) :=
      fun _ h => Nat.lt_succ_of_le (length_word h)
    split
    · exact .map (hword _) fun _ h => h
    · split
      · exact .map (hword _) fun _ h => h
      · split
        · exact .map (hword _) fun _ h => h
        · split
          · exact .map (.map (Numeral.length_scan .malformed _) fun _ h => h) fun _ h => h
          · split
            · exact .map (fun _ h => Nat.lt_succ_of_lt (length_passText h)) fun _ h => h
            · split
              · exact .ok (Nat.lt_succ_self _)
              · split
                · exact .ok (Nat.lt_succ_self _)
                · exact .error

/-- Closing brackets behind a value, up to the next comma. What is left are the brackets still open and the
text behind the comma, or nothing open and the text behind the value. `ready` says that a value stands in
front, so that a comma may follow. -/
def closeAll (ready : Bool) : List Bracket → List Char →
    Except DocumentFault (List Bracket × List Char)
  | [], text => .ok ([], text)
  | bracket :: outer, text =>
    match skipSpace text with
    | [] => .error .ended
    | c :: rest =>
      if c = ',' ∧ ready then .ok (bracket :: outer, rest)
      else if c = (match bracket with | .array => ']' | .object => '\x7d') then closeAll true outer rest
      else if ready then .error .malformed
      else .ok (bracket :: outer, c :: rest)

theorem length_closeAll (ready : Bool) (opened : List Bracket) (text : List Char) :
    Guarantees (fun (_, rest) => rest.length ≤ text.length) (closeAll ready opened text) := by
  fun_induction closeAll ready opened text with
  | case1 => exact .ok (Nat.le_refl _)
  | case2 => exact .error
  | case3 ready bracket outer text c rest hrest _ =>
    exact .ok (Nat.le_of_lt (length_of_skipSpace hrest))
  | case4 ready bracket outer text rest hrest _ ih =>
    intro out hout
    exact Nat.le_trans (ih out hout) (Nat.le_of_lt (length_of_skipSpace hrest))
  | case5 => exact .error
  | case6 ready bracket outer text c rest hrest _ _ _ =>
    exact .ok (length_of_skipSpace hrest)

/-- The key of a member that is passed over, with its colon; nothing in an array. -/
def passKey (bracket : Bracket) (text : List Char) : Except DocumentFault (List Char) :=
  match bracket with
  | .array => .ok text
  | .object =>
    match skipSpace text with
    | [] => .error .ended
    | c :: rest => if c = '"' then (do colon (← passText rest)) else .error .malformed

theorem length_passKey (bracket : Bracket) (text : List Char) :
    Guarantees (fun rest => rest.length ≤ text.length) (passKey bracket text) := by
  unfold passKey
  split
  · exact .ok (Nat.le_refl _)
  · split
    · exact .error
    · next c rest hrest =>
      have := length_of_skipSpace hrest
      split
      · refine .bind (P := fun after => after.length < rest.length) (fun _ h => length_passText h)
          fun after h => ?_
        intro behind hbehind
        have := length_colon after behind hbehind
        omega
      · exact .error

/-- Passes over one value or opening bracket, the brackets that close behind it, and the key of the member
that comes next. What is left are the brackets still open and the text behind. -/
def passStep (opened : List Bracket) (text : List Char) :
    Except DocumentFault (List Bracket × List Char) := do
  let (bracket, rest) ← passScalar (skipSpace text)
  -- a value may be the last of several brackets, and then all of them close behind it
  let (opened, rest) ← closeAll bracket.isNone (bracket.toList ++ opened) rest
  match opened with
  | [] => return ([], rest)
  | innermost :: outer => return (innermost :: outer, ← passKey innermost rest)

theorem length_passStep (opened : List Bracket) (text : List Char) :
    Guarantees (fun (_, rest) => rest.length < text.length) (passStep opened text) := by
  have hskip := length_skipSpace text
  unfold passStep
  refine .bind (length_passScalar (skipSpace text)) fun (bracket, rest) hscalar => ?_
  refine .bind (length_closeAll bracket.isNone (bracket.toList ++ opened) rest)
    fun (opened, after) hclose => ?_
  dsimp only at *
  split
  · exact .ok (by dsimp only; omega)
  · next innermost outer =>
    exact .bind (length_passKey innermost after) fun behind hkey => .ok (by dsimp only; omega)

/-- Passes over a value inside the given open brackets, and on to the end of the outermost. -/
def passWithin (opened : List Bracket) (text : List Char) : Except DocumentFault (List Char) :=
  match h : passStep opened text with
  | .error fault => .error fault
  | .ok ([], rest) => .ok rest
  | .ok (innermost :: outer, rest) =>
    have : rest.length < text.length := length_passStep opened text _ h
    passWithin (innermost :: outer) rest
termination_by text.length

theorem length_passWithin (opened : List Bracket) (text : List Char) :
    Guarantees (fun rest => rest.length < text.length) (passWithin opened text) := by
  fun_induction passWithin opened text with
  | case1 => exact .error
  | case2 opened text rest h => exact .ok (length_passStep opened text _ h)
  | case3 opened text innermost outer rest h hlt ih =>
    intro after hafter
    exact Nat.lt_trans (ih after hafter) hlt

/-- Passes over a value. -/
def pass (text : List Char) : Except DocumentFault (List Char) := passWithin [] text

end Melody.Json
