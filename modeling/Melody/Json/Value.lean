import Melody.Decimal.Layout

/-!
# Document values and their text

The values of a stored document, members of an object in order, and the two ways to print them: without any
blanks (`compact`) and with one item a line, two more spaces for each level (`indented`).

Numbers keep apart what is written like an integer and what is written like a float: a float always has a
point or an exponent.
-/

namespace Melody.Json

/-- A number as it is written: an integer, or with a point or an exponent. -/
inductive Number
  | integer (n : Int)
  | real (x : Float)
deriving DecidableEq

inductive Value
  | null
  | bool (b : Bool)
  | number (n : Number)
  | string (s : String)
  | array (items : List Value)
  | object (members : List (String × Value))

/-! ## Strings -/

/-- A hexadecimal digit. -/
def hexDigit (n : Nat) : Char := (Nat.digitChar n)

/-- The form of a character inside a string: only quotes, backslashes and control characters are
escaped. -/
def escaped : Char → List Char
  | '"' => ['\\', '"']
  | '\\' => ['\\', '\\']
  | '\x08' => ['\\', 'b']
  | '\x0c' => ['\\', 'f']
  | '\n' => ['\\', 'n']
  | '\r' => ['\\', 'r']
  | '\t' => ['\\', 't']
  | c =>
    if c.toNat < 0x20 then ['\\', 'u', '0', '0', hexDigit (c.toNat / 16), hexDigit (c.toNat % 16)]
    else [c]

/-- A string in quotes. -/
def stringChars (s : String) : List Char := '"' :: s.toList.flatMap escaped ++ ['"']

/-! ## Values -/

def Number.chars : Number → List Char
  | .integer n => Decimal.signed n
  | .real x => Decimal.document.render x

/-- How a value is printed: without blanks, or indented to a level. -/
inductive Style
  | compact
  | indented (level : Nat)
deriving DecidableEq, Repr

namespace Style

/-- What stands in front of every item on its own line. -/
def lineBreak : Style → List Char
  | .compact => []
  | .indented level => '\n' :: List.replicate (2 * level) ' '

/-- What stands between the key of a member and its value. -/
def colon : Style → List Char
  | .compact => [':']
  | .indented _ => [':', ' ']

/-- The style of the items inside. -/
def inner : Style → Style
  | .compact => .compact
  | .indented level => .indented (level + 1)

end Style

mutual

/-- The text of a value. An empty array or object is a pair of brackets on one line. -/
def Value.chars (style : Style) : Value → List Char
  | .null => ['n', 'u', 'l', 'l']
  | .bool true => ['t', 'r', 'u', 'e']
  | .bool false => ['f', 'a', 'l', 's', 'e']
  | .number n => n.chars
  | .string s => stringChars s
  | .array [] => ['[', ']']
  | .array (item :: items) =>
    '[' :: style.inner.lineBreak ++ item.chars style.inner ++ itemsChars style.inner items ++
      style.lineBreak ++ [']']
  | .object [] => ['\x7b', '\x7d']
  | .object ((key, value) :: members) =>
    '\x7b' :: style.inner.lineBreak ++ stringChars key ++ style.inner.colon ++
      value.chars style.inner ++ membersChars style.inner members ++ style.lineBreak ++ ['\x7d']

/-- Items behind the first, each after a comma. -/
def itemsChars (style : Style) : List Value → List Char
  | [] => []
  | item :: items => ',' :: style.lineBreak ++ item.chars style ++ itemsChars style items

/-- Members behind the first, each after a comma. -/
def membersChars (style : Style) : List (String × Value) → List Char
  | [] => []
  | (key, value) :: members =>
    ',' :: style.lineBreak ++ stringChars key ++ style.colon ++ value.chars style ++
      membersChars style members

end

/-- The text without blanks. -/
def Value.compact (v : Value) : String := String.ofList (v.chars .compact)

/-- The text with one item a line. -/
def Value.indented (v : Value) : String := String.ofList (v.chars (.indented 0))

end Melody.Json
