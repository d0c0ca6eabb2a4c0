import Melody.Decimal.Natural

/-!
# Command-line options

What a command line asks for. Arguments are read from left to right, and the first that is wrong, or that
asks for help, decides.
-/

namespace Melody

/-- What to work on; the last one named counts. -/
inductive Source
  /-- A score in a file. -/
  | score (path : String)
  /-- A line of notation. -/
  | line (text : String)
  /-- A MIDI file to list. -/
  | midi (path : String)
deriving DecidableEq, Repr

structure Options where
  source : Option Source
  output : Option String
  tempo : Option UInt32
  /-- Whether notation is checked against the strict rules. -/
  strict : Bool
deriving DecidableEq, Repr

/-- What is wrong with the text of a tempo. -/
inductive TempoFault
  | empty
  | notDigit
  | tooLarge
deriving DecidableEq, Repr

def TempoFault.message : TempoFault → String
  | .empty => "cannot parse integer from empty string"
  | .notDigit => "invalid digit found in string"
  | .tooLarge => "number too large to fit in target type"

/-- The number of digits behind those already read. -/
def tempoFrom (acc : Nat) : List Char → Except TempoFault UInt32
  | [] => .ok (UInt32.ofNat acc)
  | c :: rest =>
    if Decimal.isDigit c then
      let acc := acc * 10 + Decimal.ofDigits [c]
      if acc < UInt32.size then tempoFrom acc rest else .error .tooLarge
    else .error .notDigit

/-- The tempo of a text: digits, with or without a plus sign. -/
def tempoOfText (text : String) : Except TempoFault UInt32 :=
  match text.toList with
  | [] => .error .empty
  | ['+'] => .error .notDigit
  | '+' :: ds => tempoFrom 0 ds
  | ds => tempoFrom 0 ds

/-- Why a command line gives no options. -/
inductive Refusal
  | help
  | unknown (option : String)
  | noArgument (option : String)
  | badTempo (text : String) (fault : TempoFault)
deriving DecidableEq, Repr

namespace Options

def initial : Options := ⟨none, none, none, true⟩

/-- The options that take an argument. -/
inductive Key
  | line
  | midi
  | output
  | tempo
deriving DecidableEq, Repr

def Key.ofText? (arg : String) : Option Key :=
  if arg = "--notation" ∨ arg = "-n" then some .line
  else if arg = "--inspect" ∨ arg = "-i" then some .midi
  else if arg = "--output" ∨ arg = "-o" then some .output
  else if arg = "--tempo" ∨ arg = "-t" then some .tempo
  else none

/-- The options with the argument of a key. -/
def set (o : Options) (key : Key) (value : String) : Except Refusal Options :=
  match key with
  | .line => .ok { o with source := some (.line value) }
  | .midi => .ok { o with source := some (.midi value) }
  | .output => .ok { o with output := some value }
  | .tempo =>
    match tempoOfText value with
    | .ok tempo => .ok { o with tempo := some tempo }
    | .error fault => .error (.badTempo value fault)

/-- The options with an argument that stands alone: a switch, or the path of a score. -/
def setAlone (o : Options) (arg : String) : Except Refusal Options :=
  if arg = "--no-validate" then .ok { o with strict := false }
  else if arg = "--help" ∨ arg = "-h" then .error .help
  else if arg.toList.head? = some '-' then .error (.unknown arg)
  else .ok { o with source := some (.score arg) }

/-- The options of a command line, added to those so far. -/
def parse (o : Options) : List String → Except Refusal Options
  | [] => .ok o
  | arg :: rest =>
    match Key.ofText? arg, rest with
    | none, rest => do (← o.setAlone arg).parse rest
    | some _, [] => .error (.noArgument arg)
    | some key, value :: rest => do (← o.set key value).parse rest

end Options

end Melody
