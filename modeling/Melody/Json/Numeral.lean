import Melody.Decimal.Natural
import Melody.Decimal.Scaling
import Melody.Error
import Melody.Guarantee
import Melody.Json.Value

/-!
# Numbers in documents

A number is cut from the text first, as the runs of digits it consists of (`Numeral.scan`), and valued
second (`Numeral.value`).

Valued as a float, a number keeps as many leading digits as fit a 64-bit word; what it cannot keep of its
whole part raises the power of ten instead. It is an integer if it has neither point nor exponent and fits
64 bits, a negative one with a sign of its own; there is no negative zero among the integers.
-/

namespace Melody.Json

/-- A number as it is written. -/
structure Numeral where
  negative : Bool
  whole : List Char
  /-- The digits behind a point. -/
  fraction : List Char
  /-- Whether there is a point. -/
  pointed : Bool
  /-- The power of ten behind an `e`. -/
  exponent : Option Int
deriving DecidableEq, Repr

namespace Numeral

/-- A run of digits that must not be empty; the text may end early with a fault of its own. -/
def digitRun (atEnd : DocumentFault) (text : List Char) :
    Except DocumentFault (List Char × List Char) :=
  match Decimal.span text with
  | ([], []) => .error atEnd
  | ([], _ :: _) => .error .malformed
  | (ds, rest) => .ok (ds, rest)

/-- A run uses up text, since it is not empty. -/
theorem length_digitRun (atEnd : DocumentFault) (text : List Char) :
    Guarantees (fun (_, rest) => rest.length < text.length) (digitRun atEnd text) := by
  rintro ⟨ds, rest⟩ h
  have whole := congrArg List.length (Decimal.span_append text)
  unfold digitRun at h
  split at h
  · cases h
  · cases h
  · next hds _ hspan =>
    cases h
    rw [hspan, List.length_append] at whole
    have : ds ≠ [] := by
      rintro rfl
      cases rest with
      | nil => exact hds rfl rfl
      | cons c rest => simp_all
    have := List.length_pos_iff.2 this
    simp only at *
    omega

/-- The digits in front of a point: a zero stands alone. -/
def wholePart (atEnd : DocumentFault) (text : List Char) :
    Except DocumentFault (List Char × List Char) := do
  let (ds, rest) ← digitRun atEnd text
  if ds.head? = some '0' ∧ 1 < ds.length then throw .malformed
  return (ds, rest)

theorem length_wholePart (atEnd : DocumentFault) (text : List Char) :
    Guarantees (fun (_, rest) => rest.length < text.length) (wholePart atEnd text) := by
  unfold wholePart
  refine .bind (length_digitRun atEnd text) fun (ds, rest) h => ?_
  dsimp only
  split
  · exact .error
  · exact .ok h

/-- The digits behind a point, if there is one. -/
def fractionPart (atEnd : DocumentFault) : List Char →
    Except DocumentFault ((Bool × List Char) × List Char)
  | '.' :: rest => do
    let (ds, rest) ← digitRun atEnd rest
    return ((true, ds), rest)
  | text => .ok ((false, []), text)

theorem length_fractionPart (atEnd : DocumentFault) (text : List Char) :
    Guarantees (fun (_, rest) => rest.length ≤ text.length) (fractionPart atEnd text) := by
  unfold fractionPart
  split
  · next rest =>
    refine .bind (length_digitRun atEnd rest) fun (ds, rest) h => .ok ?_
    simp only [List.length_cons] at *
    omega
  · exact .ok (Nat.le_refl _)

/-- The power of ten of an exponent behind its mark, with an optional sign. -/
def signedExponent (atEnd : DocumentFault) : List Char → Except DocumentFault (Int × List Char)
  | '-' :: rest => do
    let (ds, rest) ← digitRun atEnd rest
    return (-(Decimal.ofDigits ds : Int), rest)
  | '+' :: rest => do
    let (ds, rest) ← digitRun atEnd rest
    return ((Decimal.ofDigits ds : Int), rest)
  | text => do
    let (ds, rest) ← digitRun atEnd text
    return ((Decimal.ofDigits ds : Int), rest)

theorem length_signedExponent (atEnd : DocumentFault) (text : List Char) :
    Guarantees (fun (_, rest) => rest.length < text.length) (signedExponent atEnd text) := by
  unfold signedExponent
  split
  · next rest =>
    refine .bind (length_digitRun atEnd rest) fun (ds, rest) h => .ok ?_
    exact Nat.lt_succ_of_lt h
  · next rest =>
    refine .bind (length_digitRun atEnd rest) fun (ds, rest) h => .ok ?_
    exact Nat.lt_succ_of_lt h
  · exact .bind (length_digitRun atEnd _) fun (ds, rest) h => .ok h

/-- The exponent, if there is one. -/
def exponentPart (atEnd : DocumentFault) (text : List Char) :
    Except DocumentFault (Option Int × List Char) :=
  match text with
  | c :: rest =>
    if c = 'e' ∨ c = 'E' then do
      let (exponent, rest) ← signedExponent atEnd rest
      return (some exponent, rest)
    else .ok (none, text)
  | [] => .ok (none, [])

theorem length_exponentPart (atEnd : DocumentFault) (text : List Char) :
    Guarantees (fun (_, rest) => rest.length ≤ text.length) (exponentPart atEnd text) := by
  unfold exponentPart
  split
  · next c rest =>
    split
    · refine .bind (length_signedExponent atEnd rest) fun (exponent, rest) h => .ok ?_
      simp only [List.length_cons] at *
      omega
    · exact .ok (Nat.le_refl _)
  · exact .ok (Nat.le_refl _)

/-- The number in front of a text. A text that ends within the number has the fault given for that. -/
def scan (atEnd : DocumentFault) (text : List Char) : Except DocumentFault (Numeral × List Char) := do
  let negative := text.head? == some '-'
  let (whole, text) ← wholePart atEnd (if negative then text.tail else text)
  let ((pointed, fraction), text) ← fractionPart atEnd text
  let (exponent, text) ← exponentPart atEnd text
  return (⟨negative, whole, fraction, pointed, exponent⟩, text)

/-- A number uses up text: the digits in front of the point at least. -/
theorem length_scan (atEnd : DocumentFault) (text : List Char) :
    Guarantees (fun (_, rest) => rest.length < text.length) (scan atEnd text) := by
  have hunsigned : ∀ negative : Bool,
      (if negative then text.tail else text).length ≤ text.length := by
    intro negative
    cases negative <;> simp
  unfold scan
  refine .bind (length_wholePart atEnd _) fun (whole, text₁) h₁ => ?_
  refine .bind (length_fractionPart atEnd text₁) fun (fraction, text₂) h₂ => ?_
  refine .bind (length_exponentPart atEnd text₂) fun (exponent, text₃) h₃ => .ok ?_
  have := hunsigned (text.head? == some '-')
  simp only at *
  omega

/-! ## Values -/

/-- Digits taken into a significand as long as it fits a 64-bit word, and the digits left over. -/
def absorb (significand : Nat) : List Char → Nat × List Char
  | [] => (significand, [])
  | d :: ds =>
    let more := significand * 10 + Decimal.ofDigits [d]
    if more < UInt64.size then absorb more ds else (significand, d :: ds)

/-- The value of a numeral; a float that would be infinite is a fault of the text. -/
def value (n : Numeral) : Except DocumentFault Number :=
  let (kept, dropped) := absorb 0 n.whole
  if n.pointed || n.exponent.isSome || !dropped.isEmpty then
    let (significand, left) := absorb kept n.fraction
    -- dropped digits of the whole part raise the power, kept digits of the fraction lower it
    let power : Int := dropped.length - (n.fraction.length - left.length : Nat) + n.exponent.getD 0
    match Decimal.ofParts (UInt64.ofNat significand) power with
    | none => .error .malformed
    | some x => .ok (.real (if n.negative then -x else x))
  else if !n.negative then .ok (.integer kept)
  else if 0 < kept ∧ kept ≤ 0x8000000000000000 then .ok (.integer (-kept))
  else .ok (.real (-(UInt64.ofNat kept).toFloat))

end Numeral

/-- The number in front of a text. -/
def readNumber (text : List Char) : Except DocumentFault (Number × List Char) := do
  let (numeral, rest) ← Numeral.scan .ended text
  return (← numeral.value, rest)

theorem length_readNumber (text : List Char) :
    Guarantees (fun (_, rest) => rest.length < text.length) (readNumber text) := by
  unfold readNumber
  refine .bind (Numeral.length_scan .ended text) fun (numeral, rest) h => ?_
  exact .of_next fun _ => .ok h

/-- The float of a number. -/
def Number.toFloat : Number → Float
  | .integer (.ofNat n) => (UInt64.ofNat n).toFloat
  | .integer (.negSucc n) => -(UInt64.ofNat (n + 1)).toFloat
  | .real x => x

end Melody.Json
