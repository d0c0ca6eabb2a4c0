/-!
# Whole numbers in decimal

Digits of a whole number and the number of a run of digits. Reading takes back what writing produces
(`ofDigits_digits`), and it never looks at anything but ASCII digits (`digits?`).
-/

namespace Melody.Decimal

/-- The decimal digits, without leading zeros; zero has one. -/
def digits (n : Nat) : List Char := Nat.toDigits 10 n

/-- An integer: a minus sign in front of the digits of a negative one. -/
def signed : Int → List Char
  | .ofNat n => digits n
  | .negSucc n => '-' :: digits (n + 1)

/-- An ASCII digit. -/
def isDigit (c : Char) : Bool := '0' ≤ c && c ≤ '9'

/-- The number written by a run of digits. -/
def ofDigits (ds : List Char) : Nat := Nat.ofDigitChars 10 ds 0

/-- Writing, then reading. -/
theorem ofDigits_digits (n : Nat) : ofDigits (digits n) = n :=
  Nat.ofDigitChars_ten_toDigits

/-- The number written by a text that holds digits, at least one, and nothing else. -/
def digits? (text : List Char) : Option Nat :=
  if text.isEmpty || !text.all isDigit then none else some (ofDigits text)

/-- The run of digits in front of the text, and what follows it. -/
def span (text : List Char) : List Char × List Char :=
  (text.takeWhile isDigit, text.dropWhile isDigit)

/-- `span` loses nothing. -/
theorem span_append (text : List Char) : (span text).1 ++ (span text).2 = text :=
  List.takeWhile_append_dropWhile

end Melody.Decimal
