import Melody.Text.Category

/-!
# Quoted text in messages

How a piece of input is shown inside a message: in double quotes, with everything a reader could not
see or could mistake for the message itself spelled out.
-/

namespace Melody.Text

/-- `\u` and the number of the character in braces, in hexadecimal without leading zeros. -/
def codeEscape (c : Char) : List Char :=
  ['\\', 'u', '\x7b'] ++ Nat.toDigits 16 c.toNat ++ ['\x7d']

/-- The form of one character inside quotes. -/
def quotedChar : Char → List Char
  | '"' => ['\\', '"']
  | '\\' => ['\\', '\\']
  | '\x00' => ['\\', '0']
  | '\t' => ['\\', 't']
  | '\n' => ['\\', 'n']
  | '\r' => ['\\', 'r']
  | c => if isUnprintable c || isAttaching c then codeEscape c else [c]

/-- The text in double quotes. -/
def quoted (text : String) : String :=
  String.ofList (['"'] ++ text.toList.flatMap quotedChar ++ ['"'])

/-- Quotes and backslashes inside are escaped. -/
example : quoted "a\"b\\" = "\"a\\\"b\\\\\"" := by decide +kernel

/-- A mark is spelled out wherever it stands, so that it cannot merge with its neighbour. -/
example : quoted "C\u0301" = "\"C\\u\x7b301\x7d\"" := by decide +kernel

end Melody.Text
