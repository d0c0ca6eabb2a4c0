import Melody.Json.Literal
import Melody.Json.Value

/-!
# Strings read back

A string is written between quotes, with an escape for every character that could not stand there itself.
Each character is read back from what is written for it, whatever follows, so the string is.
-/

namespace Melody.Json

variable {c : Char} {text after cs last : List Char}

/-- An escape is read as its character. -/
theorem textFrom_of_escape (hescape : escape text = .ok (c, after))
    (h : textFrom after = .ok (cs, last)) : textFrom ('\\' :: text) = .ok (c :: cs, last) := by
  rw [textFrom]
  -- the reader matches on the escape once more, so its result is carried in
  split
  · next fault hfault =>
    rw [hescape] at hfault
    cases hfault
  · next d behind hd =>
    rw [hescape] at hd
    obtain ⟨rfl, rfl⟩ := Prod.mk.inj (Except.ok.inj hd)
    rw [h]

theorem textFrom_of_plain (hquote : c ≠ '"') (hslash : c ≠ '\\') (hcontrol : ¬ c.toNat < 0x20)
    (h : textFrom text = .ok (cs, last)) : textFrom (c :: text) = .ok (c :: cs, last) := by
  rw [textFrom, if_neg hcontrol, h]
  · exact hquote
  · exact hslash

/-- A hexadecimal digit is read as what it was written for. -/
theorem hexValue?_hexDigit {n : Nat} (h : n < 16) : hexValue? (hexDigit n) = some n := by
  have hall : ∀ k : Fin 16, hexValue? (hexDigit k) = some k.val := by decide
  exact hall ⟨n, h⟩

/-- A control character is read back from its number. -/
theorem escape_number (h : c.toNat < 0x20) (rest : List Char) :
    escape ('u' :: '0' :: '0' :: hexDigit (c.toNat / 16) :: hexDigit (c.toNat % 16) :: rest) =
      .ok (c, rest) := by
  -- two zeros and two digits make the number of the character
  have hnumber : hexNumber? '0' '0' (hexDigit (c.toNat / 16)) (hexDigit (c.toNat % 16)) =
      some c.toNat := by
    have hzero : hexValue? '0' = some 0 := rfl
    rw [hexNumber?, hzero, hexValue?_hexDigit (by omega), hexValue?_hexDigit (by omega)]
    show some (((0 * 16 + 0) * 16 + c.toNat / 16) * 16 + c.toNat % 16) = some c.toNat
    congr 1
    omega
  rw [escape, if_pos rfl, numberEscape, hexFour, hnumber]
  show (if 0xDC00 ≤ c.toNat ∧ c.toNat ≤ 0xDFFF then _ else _) = _
  rw [if_neg (by omega), if_neg (by omega), Char.ofNat_toNat]
  rfl

/-- A character is read back from what is written for it. -/
theorem textFrom_escaped (h : textFrom text = .ok (cs, last)) :
    textFrom (escaped c ++ text) = .ok (c :: cs, last) := by
  unfold escaped
  split
  · exact textFrom_of_escape rfl h
  · exact textFrom_of_escape rfl h
  · exact textFrom_of_escape rfl h
  · exact textFrom_of_escape rfl h
  · exact textFrom_of_escape rfl h
  · exact textFrom_of_escape rfl h
  · exact textFrom_of_escape rfl h
  · -- what has no escape of its own is a control character or stands for itself
    next hquote hslash _ _ _ _ _ =>
    split
    · next hcontrol => exact textFrom_of_escape (escape_number hcontrol text) h
    · next hcontrol => exact textFrom_of_plain hquote hslash hcontrol h

/-- **A string is read back** behind its opening quote, with the text behind the closing one left. -/
theorem readText_stringChars (s : String) (rest : List Char) :
    readText (s.toList.flatMap escaped ++ '"' :: rest) = .ok (s, rest) := by
  have hchars (chars : List Char) :
      textFrom (chars.flatMap escaped ++ '"' :: rest) = .ok (chars, rest) := by
    -- one character after the other: each reads back from its escape
    induction chars with
    | nil => rw [List.flatMap_nil, List.nil_append, textFrom]
    | cons c chars ih =>
      rw [List.flatMap_cons, List.append_assoc]
      exact textFrom_escaped ih
  rw [readText, hchars]
  show Except.ok (String.ofList s.toList, rest) = _
  rw [String.ofList_toList]

end Melody.Json
