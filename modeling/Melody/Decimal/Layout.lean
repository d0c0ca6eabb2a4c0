import Melody.Decimal.Shortest

/-!
# Laying a float out as text

The digits of a float are the shortest that name it (`Melody.Decimal.Shortest`). What remains is a
matter of format and sits in one record, `Layout`: which values are written without an exponent, what
is written for those that have no digits, and where ties go. Two formats are used: `message`, for a
number inside a sentence, and `document`, for a number in a stored document.
-/

namespace Melody.Decimal

/-- How floats are written. -/
structure Layout where
  /-- Whether a number whose first digit stands for this power of ten is written without exponent. -/
  positional : Int → Bool
  /-- Whether a whole number is written with `.0`. -/
  wholeWithPoint : Bool
  /-- Where a decimal goes that lies in the middle of two of its length. -/
  tie : Tie
  /-- What is written for a value that is no number. -/
  notANumber : List Char
  /-- What is written for the infinities. -/
  infinity : List Char
  negativeInfinity : List Char

/-- Inside a sentence no exponent is ever written, and whole numbers are written like integers. -/
def message : Layout where
  positional _ := true
  wholeWithPoint := false
  tie := .up
  notANumber := "NaN".toList
  infinity := "inf".toList
  negativeInfinity := "-inf".toList

/-- In a document a float has a point or an exponent, so that it never looks like an integer: up to
sixteen digits before the point and down to the fifth place after it there is no exponent. What is not
finite is written as the missing value. -/
def document : Layout where
  positional point := -5 ≤ point && point ≤ 15
  wholeWithPoint := true
  tie := .toEven
  notANumber := "null".toList
  infinity := "null".toList
  negativeInfinity := "null".toList

namespace Layout

/-- Digits with a decimal point in place, zeros filled in on either side. -/
def plain (layout : Layout) (d : Scientific) : List Char :=
  let ds := digits d.significand
  if 0 ≤ d.exponent then
    let whole := ds ++ List.replicate d.exponent.toNat '0'
    if layout.wholeWithPoint then whole ++ ['.', '0'] else whole
  else
    let places := (-d.exponent).toNat
    if places < ds.length then ds.take (ds.length - places) ++ '.' :: ds.drop (ds.length - places)
    else ['0', '.'] ++ List.replicate (places - ds.length) '0' ++ ds

/-- One digit, the others behind a point, and the signed power of ten. -/
def scientific (d : Scientific) : List Char :=
  let sign := if d.point < 0 then ['e', '-'] else ['e', '+']
  match digits d.significand with
  | [] => []
  | [one] => one :: sign ++ digits d.point.natAbs
  | one :: more => one :: '.' :: more ++ sign ++ digits d.point.natAbs

/-- The text of a float. -/
def render (layout : Layout) (x : Float) : List Char :=
  match Dyadic.ofFloat? x with
  | none =>
    if x.isNaN then layout.notANumber
    else if x < 0 then layout.negativeInfinity else layout.infinity
  | some d =>
    let size :=
      if d.mantissa == 0 then layout.plain ⟨0, 0⟩
      else
        let shortest := d.shortest layout.tie
        if layout.positional shortest.point then layout.plain shortest else scientific shortest
    if d.negative then '-' :: size else size

end Layout

/-- A float with a fixed number of places after the point: its exact value rounded, a half to the even
neighbour. What is not finite is written as in a sentence. -/
def fixed (places : Nat) (x : Float) : List Char :=
  match Dyadic.ofFloat? x with
  | none => message.render x
  | some d =>
    let ds := digits (roundDiv .toEven (d.ratio.1 * Nat.pow 10 places) d.ratio.2)
    let padded := List.replicate (places + 1 - ds.length) '0' ++ ds
    let size := padded.take (padded.length - places) ++ '.' :: padded.drop (padded.length - places)
    if d.negative then '-' :: size else size

end Melody.Decimal
