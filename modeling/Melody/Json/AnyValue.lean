import Melody.Json.Reading

/-!
# Reading any value

A value of any kind is read together with its parts (`valueWith`), and `readValue` reads one in which no more
than a number of brackets are open at once. The reader of the parts comes with the fact that it uses up text,
so that arrays and objects of them end.
-/

namespace Melody.Json

/-- How many brackets may be open at once. -/
def nestingLimit : Nat := 127

/-- A reader for the parts of a value, with the fact that it uses up text. -/
abbrev PartReader : Type := { read : Reader Value // read.Consumes }

/-- A member of an object, behind its key, in front of those found so far. -/
def member (part : PartReader) (key : String) (found : List (String × Value)) :
    Reader (List (String × Value)) := fun text => do
  let (value, rest) ← part.val (← colon text)
  return ((key, value) :: found, rest)

theorem member_consumes (part : PartReader) (key : String) (found : List (String × Value)) :
    (member part key found).Consumes := by
  intro text
  refine .bind (length_colon text) fun behind hcolon => ?_
  exact .bind (part.property behind) fun (value, rest) h => .ok (Nat.lt_trans h hcolon)

/-- A value, whose parts are read by another reader; without one it has none. -/
def valueWith (parts : Option PartReader) : Reader Value := fun text =>
  match skipSpace text with
  | [] => .error .ended
  | c :: rest =>
    if c = 'n' then (word ['u', 'l', 'l'] rest).map fun rest => (.null, rest)
    else if c = 't' then (word ['r', 'u', 'e'] rest).map fun rest => (.bool true, rest)
    else if c = 'f' then (word ['a', 'l', 's', 'e'] rest).map fun rest => (.bool false, rest)
    else if c = '-' ∨ Decimal.isDigit c then
      (readNumber (c :: rest)).map fun (n, rest) => (.number n, rest)
    else if c = '"' then (readText rest).map fun (s, rest) => (.string s, rest)
    else if c = '[' then
      match parts with
      | none => .error .malformed
      | some part => do
        let (values, rest) ← items part.val part.property true rest
        return (.array values, ← closeArray rest)
    else if c = '\x7b' then
      match parts with
      | none => .error .malformed
      | some part => do
        let (found, rest) ← members (member part) (member_consumes part) true [] rest
        return (.object found.reverse, ← closeObject rest)
    else .error .malformed

theorem valueWith_consumes (parts : Option PartReader) : (valueWith parts).Consumes := by
  intro text
  unfold valueWith
  split
  · exact .error
  · next c rest hrest =>
    have hrest := length_of_skipSpace hrest
    have hword (w : List Char) : Guarantees (fun after => after.length < text.length) (word w rest) :=
      fun _ h => Nat.lt_of_le_of_lt (length_word h) hrest
    split
    · exact .map (hword _) fun _ h => h
    · split
      · exact .map (hword _) fun _ h => h
      · split
        · exact .map (hword _) fun _ h => h
        · split
          · refine .map (length_readNumber (c :: rest)) fun (n, after) h => ?_
            exact Nat.lt_of_lt_of_le h hrest
          · split
            · exact .map (fun (s, after) h => Nat.lt_trans (length_readText h) hrest) fun _ h => h
            · split
              · split
                · exact .error
                · next part =>
                  refine .bind (length_items part.property true rest) fun (values, after) h => ?_
                  refine .bind (length_closeArray after) fun behind hclose => .ok ?_
                  simp only at *
                  omega
              · split
                · split
                  · exact .error
                  · next part =>
                    refine .bind (length_members (member_consumes part) true [] rest)
                      fun (found, after) h => ?_
                    refine .bind (length_closeObject after) fun behind hclose => .ok ?_
                    simp only at *
                    omega
                · exact .error

/-- The reader of values in which at most a number of brackets are open at once. -/
def valueReader : Nat → PartReader
  | 0 => ⟨valueWith none, valueWith_consumes none⟩
  | room + 1 => ⟨valueWith (some (valueReader room)), valueWith_consumes _⟩

/-- A value in which at most the given number of brackets are open at once. -/
def readValue (room : Nat) : Reader Value := (valueReader room).val

theorem readValue_consumes (room : Nat) : (readValue room).Consumes := (valueReader room).property

end Melody.Json
