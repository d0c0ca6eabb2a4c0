import Melody.Error

/-!
# Strings and words in documents

Strings are read behind their opening quote. Escapes stand for single characters; a character beyond the
first plane may be written as a pair of escapes, and half of a pair alone is a fault. Where a string is only
passed over, pairs do not matter (`passText`).
-/

namespace Melody.Json

/-- The value of a hexadecimal digit. -/
def hexValue? (c : Char) : Option Nat :=
  if '0' ≤ c ∧ c ≤ '9' then some (c.toNat - 48)
  else if 'a' ≤ c ∧ c ≤ 'f' then some (c.toNat - 87)
  else if 'A' ≤ c ∧ c ≤ 'F' then some (c.toNat - 55)
  else none

/-- The number of four hexadecimal digits. -/
def hexNumber? (a b c d : Char) : Option Nat := do
  return (((← hexValue? a) * 16 + (← hexValue? b)) * 16 + (← hexValue? c)) * 16 + (← hexValue? d)

/-- Four hexadecimal digits. A text too short to hold them has ended; its length counts in bytes. -/
def hexFour (text : List Char) : Except DocumentFault (Nat × List Char) :=
  match text with
  | a :: b :: c :: d :: rest =>
    match hexNumber? a b c d with
    | some n => .ok (n, rest)
    | none => .error .malformed
  | _ => if (String.ofList text).utf8ByteSize < 4 then .error .ended else .error .malformed

theorem length_hexFour {text rest : List Char} {n : Nat} (h : hexFour text = .ok (n, rest)) :
    rest.length < text.length := by
  unfold hexFour at h
  split at h
  · split at h
    · cases h
      simp only [List.length_cons]
      omega
    · cases h
  · split at h <;> cases h

/-- The character of a single-letter escape. -/
def letterEscape? : Char → Option Char
  | '"' => some '"'
  | '\\' => some '\\'
  | '/' => some '/'
  | 'b' => some '\x08'
  | 'f' => some '\x0c'
  | 'n' => some '\n'
  | 'r' => some '\r'
  | 't' => some '\t'
  | _ => none

/-- The second escape of a pair, whose first half has the given number. -/
def secondHalf (first : Nat) (text : List Char) : Except DocumentFault (Char × List Char) :=
  match text with
  | [] | ['\\'] => .error .ended
  | '\\' :: 'u' :: rest => do
    let (second, rest) ← hexFour rest
    -- each half holds ten bits of what lies beyond the first plane
    if 0xDC00 ≤ second ∧ second ≤ 0xDFFF then
      return (Char.ofNat (0x10000 + (first - 0xD800) * 0x400 + (second - 0xDC00)), rest)
    else throw .malformed
  | _ => .error .malformed

/-- The character that four hexadecimal digits begin. -/
def numberEscape (text : List Char) : Except DocumentFault (Char × List Char) := do
  let (n, rest) ← hexFour text
  if 0xDC00 ≤ n ∧ n ≤ 0xDFFF then throw .malformed
  else if 0xD800 ≤ n ∧ n ≤ 0xDBFF then secondHalf n rest
  else return (Char.ofNat n, rest)

/-- The character of an escape, behind its backslash. -/
def escape : List Char → Except DocumentFault (Char × List Char)
  | [] => .error .ended
  | c :: rest =>
    if c = 'u' then numberEscape rest
    else match letterEscape? c with
      | some d => .ok (d, rest)
      | none => .error .malformed

theorem length_secondHalf {first : Nat} {text rest : List Char} {c : Char}
    (h : secondHalf first text = .ok (c, rest)) : rest.length < text.length := by
  unfold secondHalf at h
  split at h
  · cases h
  · cases h
  · next tail =>
    cases hn : hexFour tail with
    | error e => simp [hn, bind, Except.bind] at h
    | ok pair =>
      obtain ⟨number, after⟩ := pair
      have := length_hexFour hn
      simp only [hn, bind, Except.bind] at h
      split at h
      · simp only [pure, Except.pure, Except.ok.injEq, Prod.mk.injEq] at h
        obtain ⟨-, rfl⟩ := h
        simp only [List.length_cons]
        omega
      · cases h
  · cases h

theorem length_numberEscape {text rest : List Char} {c : Char}
    (h : numberEscape text = .ok (c, rest)) : rest.length < text.length := by
  unfold numberEscape at h
  cases hn : hexFour text with
  | error e => simp [hn, bind, Except.bind] at h
  | ok pair =>
    obtain ⟨number, after⟩ := pair
    have hlen := length_hexFour hn
    simp only [hn, bind, Except.bind] at h
    split at h
    · cases h
    · split at h
      · exact Nat.lt_trans (length_secondHalf h) hlen
      · cases h
        exact hlen

/-- An escape uses up text. -/
theorem length_escape {text rest : List Char} {c : Char} (h : escape text = .ok (c, rest)) :
    rest.length < text.length := by
  unfold escape at h
  split at h
  · cases h
  · split at h
    · exact Nat.lt_succ_of_lt (length_numberEscape h)
    · split at h
      · cases h
        simp
      · cases h

/-- The characters of a string and what follows its closing quote. -/
def textFrom (text : List Char) : Except DocumentFault (List Char × List Char) :=
  match text with
  | [] => .error .ended
  | '"' :: rest => .ok ([], rest)
  | '\\' :: rest =>
    match h : escape rest with
    | .error fault => .error fault
    | .ok (c, after) =>
      have := length_escape h
      match textFrom after with
      | .error fault => .error fault
      | .ok (cs, after) => .ok (c :: cs, after)
  | c :: rest =>
    if c.toNat < 0x20 then .error .malformed
    else match textFrom rest with
      | .error fault => .error fault
      | .ok (cs, after) => .ok (c :: cs, after)
termination_by text.length

theorem length_textFrom {text cs rest : List Char} (h : textFrom text = .ok (cs, rest)) :
    rest.length < text.length := by
  fun_induction textFrom text generalizing cs rest with
  | case2 => cases h; simp
  | case5 tail c after _ hlt cs' after' htail ih =>
    cases h
    have := ih htail
    simp only [List.length_cons]
    omega
  | case8 c tail _ _ _ cs' after' htail ih =>
    cases h
    exact Nat.lt_succ_of_lt (ih htail)
  | _ => cases h

/-- The string and what follows its closing quote. -/
def readText (text : List Char) : Except DocumentFault (String × List Char) :=
  (textFrom text).map fun (cs, rest) => (String.ofList cs, rest)

theorem length_readText {text rest : List Char} {s : String} (h : readText text = .ok (s, rest)) :
    rest.length < text.length := by
  unfold readText at h
  cases ht : textFrom text with
  | error fault => simp [ht, Except.map] at h
  | ok pair =>
    simp only [ht, Except.map, Except.ok.injEq, Prod.mk.injEq] at h
    exact h.2 ▸ length_textFrom ht

/-- An escape that is passed over, behind its backslash. -/
def passEscape : List Char → Except DocumentFault (List Char)
  | [] => .error .ended
  | c :: rest =>
    if c = 'u' then (hexFour rest).map (·.2)
    else if (letterEscape? c).isSome then .ok rest
    else .error .malformed

theorem length_passEscape {text rest : List Char} (h : passEscape text = .ok rest) :
    rest.length < text.length := by
  unfold passEscape at h
  split at h
  · cases h
  · next c tail =>
    split at h
    · cases hn : hexFour tail with
      | error e => simp [hn, Except.map] at h
      | ok pair =>
        obtain ⟨number, after⟩ := pair
        have := length_hexFour hn
        simp only [hn, Except.map, Except.ok.injEq] at h
        subst h
        exact Nat.lt_succ_of_lt this
    · split at h
      · cases h
        simp
      · cases h

/-- What follows the closing quote of a string that is passed over. -/
def passText (text : List Char) : Except DocumentFault (List Char) :=
  match text with
  | [] => .error .ended
  | '"' :: rest => .ok rest
  | '\\' :: rest =>
    match h : passEscape rest with
    | .error fault => .error fault
    | .ok after =>
      have := length_passEscape h
      passText after
  | c :: rest => if c.toNat < 0x20 then .error .malformed else passText rest
termination_by text.length

theorem length_passText {text rest : List Char} (h : passText text = .ok rest) :
    rest.length < text.length := by
  fun_induction passText text with
  | case2 => cases h; simp
  | case4 tail after _ hlt ih =>
    have := ih h
    simp only [List.length_cons]
    omega
  | case6 c tail _ _ _ ih => exact Nat.lt_succ_of_lt (ih h)
  | _ => cases h

/-- What follows the rest of a word, letter by letter. -/
def word : List Char → List Char → Except DocumentFault (List Char)
  | [], text => .ok text
  | _ :: _, [] => .error .ended
  | w :: ws, c :: rest => if c = w then word ws rest else .error .malformed

theorem length_word {w text rest : List Char} (h : word w text = .ok rest) :
    rest.length ≤ text.length := by
  fun_induction word w text with
  | case1 => cases h; exact Nat.le_refl _
  | case3 w ws rest ih => exact Nat.le_succ_of_le (ih h)
  | _ => cases h

end Melody.Json
