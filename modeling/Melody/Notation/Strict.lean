import Melody.Error
import Melody.Pitch

/-!
# Strict notation

Reading is lenient, so a line from outside can be checked first. The strict notation is a set of rules
that each look at one character and its neighbours, and parentheses that open and close in turn. The check
walks the characters once, with the byte offset, the character before and the parenthesis left open in hand
(`Place`), and reports the first place where a rule fails (`Place.step`). Only a text without such a place
can be faulted for a parenthesis that is never closed.
-/

namespace Melody.Notation

/-- The characters of the strict notation. -/
def isLegal (c : Char) : Bool :=
  c == ' ' || c == '-' || c == '.' || c == '^' || c == '/' || c == '_' || c == '(' || c == ')' ||
    c == '#' || c == 'b' || Letter.isLetter c || Decimal.isDigit c

/-- Whether there is no neighbour, or it is a space. -/
def isGap (neighbour : Option Char) : Bool := neighbour.all (· == ' ')

/-- Where the check stands. -/
structure Place where
  /-- The byte offset of the next character. -/
  offset : Nat
  /-- The character before it. -/
  before : Option Char
  /-- The offset of the parenthesis that is open. -/
  opened : Option Nat
deriving DecidableEq, Repr

namespace Place

def start : Place := ⟨0, none, none⟩

/-- The parenthesis left open behind a character, or the rule that the character breaks. -/
def judge (p : Place) (c : Char) (next : Option Char) : Except NotationFault (Option Nat) :=
  if !isLegal c then .error .illegalCharacter
  else if c = '(' then
    if p.opened.isSome then .error .nested
    else if p.before.any Decimal.isDigit && next == some ' ' then .ok (some p.offset)
    else .error .openPlace
  else if c = ')' then
    if p.opened.isNone then .error .unbalanced
    else if p.before == some ' ' && isGap next then .ok none
    else .error .closePlace
  else if c = '/' then
    if next.any Letter.isLetter then .ok p.opened else .error .slashPlace
  else if c = '.' ∨ c = '-' then
    if isGap next then .ok p.opened else .error .tokenPlace
  else if Decimal.isDigit c then
    if isGap next || next == some '(' then .ok p.opened else .error .digitPlace
  else .ok p.opened

/-- The place behind a character, given the one that follows it. -/
def step (p : Place) (c : Char) (next : Option Char) : Result Place :=
  match p.judge c next with
  | .ok opened => .ok ⟨p.offset + c.utf8Size, some c, opened⟩
  | .error fault => .error (.invalidNotation p.offset fault)

/-- The place behind all characters. -/
def run (p : Place) : List Char → Result Place
  | [] => .ok p
  | c :: rest => do
    let p ← p.step c rest.head?
    p.run rest

end Place

/-- Checks a line of notation, as characters, against the strict rules. -/
def checkChars (text : List Char) : Result Unit :=
  match text with
  | [] => .error (.invalidNotation 0 .empty)
  | first :: _ =>
    if !(Decimal.isDigit first || Letter.isLetter first) then .error (.invalidNotation 0 .badStart)
    else do
      let last ← Place.start.run text
      match last.opened with
      | some offset => .error (.invalidNotation offset .unclosed)
      | none => .ok ()

/-- Checks a line of notation against the strict rules. -/
def check (text : String) : Result Unit := checkChars text.toList

end Melody.Notation
