import Melody.Json.Reading

/-!
# Codecs: reading and writing typed values

A `Codec` of a type is a reader, which finds its value behind any blanks and uses up text doing so, and a
writer into document values. Codecs are built from those of the parts.
-/

namespace Melody.Json

structure Codec (α : Type) where
  read : Reader α
  write : α → Value
  consumes : read.Consumes

namespace Codec

variable {α β : Type}

/-- The same values seen as another type. -/
def map (c : Codec α) (view : α → β) (back : β → α) : Codec β where
  read text := (c.read text).map fun (a, rest) => (view a, rest)
  write b := c.write (back b)
  consumes text := .map (c.consumes text) fun _ h => h

/-- Reads a whole document: nothing but blanks may follow the value. -/
def ofText (c : Codec α) (text : List Char) : Except DocumentFault α := do
  let (a, rest) ← c.read text
  match skipSpace rest with
  | [] => return a
  | _ :: _ => throw .malformed

/-! ## Scalars -/

/-- A reader of values that start with a certain kind of character. -/
def scalar (starts : Char → Bool) (read : Reader α) : Reader α := fun text =>
  match skipSpace text with
  | [] => .error .ended
  | c :: rest => if starts c then read (c :: rest) else .error (wrongKind (c :: rest))

theorem scalar_consumes {starts : Char → Bool} {read : Reader α} (h : read.Consumes) :
    (scalar starts read).Consumes := by
  intro text
  unfold scalar
  split
  · exact .error
  · next c rest hrest =>
    split
    · intro out hout
      exact Nat.lt_of_lt_of_le (h _ out hout) (length_of_skipSpace hrest)
    · exact .error

def startsNumber (c : Char) : Bool := c == '-' || Decimal.isDigit c

/-- Integers of a type that holds only some. -/
def integer (ofInt? : Int → Option α) (toInt : α → Int) : Codec α where
  read := scalar startsNumber fun text => do
    let (n, rest) ← readNumber text
    match n with
    | .integer i =>
      match ofInt? i with
      | some a => return (a, rest)
      | none => throw .mismatched
    | .real _ => throw .mismatched
  write a := .number (.integer (toInt a))
  consumes := scalar_consumes fun text => .bind (length_readNumber text) fun (n, rest) h => by
    dsimp only
    split
    · split
      · exact .ok h
      · exact .error
    · exact .error

def int32 : Codec Int32 :=
  integer (fun i => if Int32.minValue.toInt ≤ i ∧ i ≤ Int32.maxValue.toInt then some (Int32.ofInt i)
    else none) Int32.toInt

def uint32 : Codec UInt32 :=
  integer (fun i => if 0 ≤ i ∧ i < UInt32.size then some (UInt32.ofNat i.toNat) else none)
    fun n => n.toNat

def uint16 : Codec UInt16 :=
  integer (fun i => if 0 ≤ i ∧ i < UInt16.size then some (UInt16.ofNat i.toNat) else none)
    fun n => n.toNat

/-- Floats; integers count as floats too. -/
def float : Codec Float where
  read := scalar startsNumber fun text => do
    let (n, rest) ← readNumber text
    return (n.toFloat, rest)
  write x := .number (.real x)
  consumes := scalar_consumes fun text => .bind (length_readNumber text) fun _ h => .ok h

def string : Codec String where
  read := scalar (· == '"') fun text => readText text.tail
  write := .string
  consumes := scalar_consumes fun text (s, rest) h =>
    Nat.lt_of_lt_of_le (length_readText h) (by simp)

/-! ## Lists and values that may be missing -/

def list (c : Codec α) : Codec (List α) where
  read := scalar (· == '[') fun text => do
    let (values, rest) ← items c.read c.consumes true text.tail
    return (values, ← closeArray rest)
  write as := .array (as.map c.write)
  consumes := scalar_consumes fun text => by
    refine .bind (length_items c.consumes true text.tail) fun (values, rest) h => ?_
    refine .bind (length_closeArray rest) fun behind hclose => .ok ?_
    have : text.tail.length ≤ text.length := by simp
    dsimp only at *
    omega

/-- A value, or the word that says there is none. -/
def nullable (c : Codec α) : Codec (Option α) where
  read text :=
    match skipSpace text with
    | 'n' :: rest => (word ['u', 'l', 'l'] rest).map fun rest => (none, rest)
    | text => (c.read text).map fun (a, rest) => (some a, rest)
  write
    | none => .null
    | some a => c.write a
  consumes text := by
    dsimp only
    split
    · next rest hrest =>
      refine .map (P := fun after => after.length < text.length) (fun after h => ?_) fun _ h => h
      exact Nat.lt_of_le_of_lt (length_word h) (length_of_skipSpace hrest)
    · refine .map (c.consumes _) fun _ h => ?_
      exact Nat.lt_of_lt_of_le h (length_skipSpace text)

end Codec

end Melody.Json
