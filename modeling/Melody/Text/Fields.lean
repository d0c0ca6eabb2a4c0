/-!
# Cutting text into fields

Blanks, and the two cuts that the notation needs.

* **`isBlank`** is white space in the sense of the Unicode standard.
* **`fields`** are the longest stretches free of separators; empty ones are dropped. **`words`** are
  the fields between blanks.
* **`groupsFrom`** starts a new group at every character that opens one, so that no character is lost.
-/

namespace Melody.Text

/-- The white space characters of the Unicode standard. -/
def isBlank (c : Char) : Bool :=
  let n := c.toNat
  (9 ≤ n && n ≤ 13) || n == 0x20 || n == 0x85 || n == 0xA0 || n == 0x1680 ||
    (0x2000 ≤ n && n ≤ 0x200A) || n == 0x2028 || n == 0x2029 || n == 0x202F || n == 0x205F ||
    n == 0x3000

/-- The longest stretches of the text in which no character is a separator, in order. -/
def fields (isSeparator : Char → Bool) (text : List Char) : List (List Char) :=
  (text.splitOnP isSeparator).filter (!·.isEmpty)

/-- The fields between blanks. -/
def words (text : List Char) : List (List Char) := fields isBlank text

/-- No field is empty: empty stretches are what `fields` drops. -/
theorem ne_nil_of_mem_fields {p : Char → Bool} {text w : List Char} (h : w ∈ fields p text) :
    w ≠ [] := by
  simpa using (List.mem_filter.1 h).2

/-- Cuts before every character that opens a group; what stands before the first is a group too. -/
def groupsFrom (opens : Char → Bool) (text : List Char) : List (List Char) :=
  text.splitBy fun _ next => !opens next

/-- What stands before the first opening character is a group of its own. -/
example : groupsFrom (·.isUpper) "aBcD".toList = ["a".toList, "Bc".toList, "D".toList] := by
  decide

end Melody.Text
